import Queueing.CommandLine.Program
import Queueing.Proofs.Experiment.Assignments

/-!
# Configurations from documents and options

In the configuration that comes out of a document and options, an option goes before the document
and the document before the default (`Options.Settles`). A setting may therefore as well be given
by an option as by the document, while a document that is not taken is refused whatever the options
(`Options.configure_document`).
-/

namespace Queueing

open Json

namespace CommandLine.Options

open ExperimentConfig (Assignment Settled AssignedBy Accepted Gives)

/-- A configuration whose settings are taken from the options, then from what a document gives,
and then from the defaults. -/
structure Settles (o : Options) (given : Assignment → Prop) (c : ExperimentConfig Binary64) :
    Prop where
  customers : Settled o.customers (fun n => given (.customers n))
    (ExperimentConfig.default : ExperimentConfig Binary64).customers c.customers
  arrivalRate : Settled o.arrivalRate (fun x => given (.arrivalRate x))
    (ExperimentConfig.default : ExperimentConfig Binary64).arrivalRate c.arrivalRate
  serviceRate : Settled o.serviceRate (fun x => given (.serviceRate x))
    (ExperimentConfig.default : ExperimentConfig Binary64).serviceRate c.serviceRate
  trials : Settled o.trials (fun n => given (.trials n))
    (ExperimentConfig.default : ExperimentConfig Binary64).trials c.trials
  seed : Settled o.seed (fun n => given (.seed n))
    (ExperimentConfig.default : ExperimentConfig Binary64).seed c.seed
  workers : Settled (o.workers.map some) (fun n => given (.workers n))
    (ExperimentConfig.default : ExperimentConfig Binary64).workers c.workers

namespace Settles

variable {o : Options} {given : Assignment → Prop} {c c' : ExperimentConfig Binary64}

theorem override (h : Settles .empty given c) : Settles o given (o.override c) where
  customers := h.customers.override
  arrivalRate := h.arrivalRate.override
  serviceRate := h.serviceRate.override
  trials := h.trials.override
  seed := h.seed.override
  workers := by
    have hworkers : (o.override c).workers = (o.workers.map some).getD c.workers := by
      show (o.workers <|> c.workers) = _
      cases o.workers <;> rfl
    rw [hworkers]
    exact h.workers.override

theorem unique (hgiven : ∀ a b, given a → given b → a.key = b.key → a = b)
    (h : Settles o given c) (h' : Settles o given c') : c = c' := by
  obtain ⟨customers, arrivalRate, serviceRate, trials, seed, workers⟩ := c
  obtain ⟨customers', arrivalRate', serviceRate', trials', seed', workers'⟩ := c'
  congr
  · exact h.customers.unique
      (fun _ _ ha hb => Assignment.customers.inj (hgiven _ _ ha hb rfl)) h'.customers
  · exact h.arrivalRate.unique
      (fun _ _ ha hb => Assignment.arrivalRate.inj (hgiven _ _ ha hb rfl)) h'.arrivalRate
  · exact h.serviceRate.unique
      (fun _ _ ha hb => Assignment.serviceRate.inj (hgiven _ _ ha hb rfl)) h'.serviceRate
  · exact h.trials.unique
      (fun _ _ ha hb => Assignment.trials.inj (hgiven _ _ ha hb rfl)) h'.trials
  · exact h.seed.unique
      (fun _ _ ha hb => Assignment.seed.inj (hgiven _ _ ha hb rfl)) h'.seed
  · exact h.workers.unique
      (fun _ _ ha hb => Assignment.workers.inj (hgiven _ _ ha hb rfl)) h'.workers

end Settles

variable {text : String} {members : List (Reading × Reading)}

theorem exists_ofValue? {values : Given} (h : ExperimentConfig.Listing members values) :
    ∃ c : ExperimentConfig Binary64,
      Form.ofValue? (.object (ExperimentConfig.fields.map fun f =>
        (f.name, (values.lookup f.name).getD (f.default.getD .null)))) = some c ∧
      Settles .empty (AssignedBy members) c := by
  let d : ExperimentConfig Binary64 := .default
  have hrate : ∀ x : Binary64, x.isFinite = true → Form.ofValue? (Form.write x) = some x := by
    intro x hx
    show Value.real? (Value.ofReal x) = some x
    rw [Value.ofReal, if_pos hx]
    rfl
  obtain ⟨customers, hcustomers, h1⟩ := h.settled .customers "customers"
    (Form.write d.customers) (by rintro ⟨⟩ <;> simp [Assignment.key]) word?_ofNat
    (word?_ofNat d.customers)
  obtain ⟨arrivalRate, harrivals, h2⟩ := h.settled .arrivalRate "arrival_rate"
    (Form.write d.arrivalRate) (by rintro ⟨⟩ <;> simp [Assignment.key]) (fun _ => rfl)
    (hrate d.arrivalRate (by decide +kernel))
  obtain ⟨serviceRate, hservice, h3⟩ := h.settled .serviceRate "service_rate"
    (Form.write d.serviceRate) (by rintro ⟨⟩ <;> simp [Assignment.key]) (fun _ => rfl)
    (hrate d.serviceRate (by decide +kernel))
  obtain ⟨trials, htrials, h4⟩ := h.settled .trials "trials"
    (Form.write d.trials) (by rintro ⟨⟩ <;> simp [Assignment.key]) word?_ofNat
    (word?_ofNat d.trials)
  obtain ⟨seed, hseed, h5⟩ := h.settled .seed "rng_seed"
    (Form.write d.seed) (by rintro ⟨⟩ <;> simp [Assignment.key]) word?_ofNat (word?_ofNat d.seed)
  obtain ⟨workers, hworkers, h6⟩ := h.settled .workers "workers" .null
    (by rintro ⟨⟩ <;> simp [Assignment.key]) option?_word rfl
  refine ⟨⟨customers, arrivalRate, serviceRate, trials, seed, workers⟩, ?_,
    ⟨h1, h2, h3, h4, h5, h6⟩⟩
  show (do pure (ExperimentConfig.mk
    (← Form.ofValue? ((values.lookup "customers").getD (Form.write d.customers)))
    (← Form.ofValue? ((values.lookup "arrival_rate").getD (Form.write d.arrivalRate)))
    (← Form.ofValue? ((values.lookup "service_rate").getD (Form.write d.serviceRate)))
    (← Form.ofValue? ((values.lookup "trials").getD (Form.write d.trials)))
    (← Form.ofValue? ((values.lookup "rng_seed").getD (Form.write d.seed)))
    (← Form.ofValue? ((values.lookup "workers").getD .null)))) = some _
  simp only [hcustomers, harrivals, hservice, htrials, hseed, hworkers]
  rfl

/-- **An accepted document is read**, member by member. -/
theorem exists_ofText (htext : Reading.SpellsText text (.object members true))
    (h : Accepted members) :
    ∃ c, ExperimentConfig.ofText text = .ok c ∧ Settles .empty (AssignedBy members) c := by
  have _ : Nonempty Assignment := ⟨.workers none⟩
  choose! g hg using h.gives
  -- one of the levels of nesting is taken by the object itself
  have hnew : List.Forall₂ (TakenAs (check 126) (.mk "struct ExperimentConfig" true true
      ExperimentConfig.fields)) members (members.map fun m => ((g m).key, (g m).value)) :=
    List.forall₂_map_right_iff.mpr (List.forall₂_same.mpr fun m hm =>
      ExperimentConfig.takenAs_iff.mpr ⟨g m, hg m hm, rfl⟩)
  have hdefaults : ∀ f ∈ ExperimentConfig.fields, f.default.isSome = true := by
    simp [ExperimentConfig.fields, Field.default, Field.defaulting, Field.optional]
  have hcheck : check maxDepth (shapeOf (ExperimentConfig Binary64)) (.object members true) = _ :=
    (checkMembers_eq_ok_iff rfl).mpr ⟨_, hnew, (nodup_of_takenAs hnew).mp h.nodup,
      congrArg _ (mapM_settle_of_default hdefaults)⟩
  obtain ⟨c, hvalue, hc⟩ := exists_ofValue? (ExperimentConfig.listing_of_gives hg)
  refine ⟨c, ?_, hc⟩
  have hread : Json.read (ExperimentConfig Binary64) text = .ok c := by
    simp only [Json.read, Shape.read, Reading.ofText_spelled htext, hcheck, if_true]
    rw [hvalue]
  rw [ExperimentConfig.ofText, hread]

theorem accepted_of_check {depth : ℕ} {v : Value}
    (h : check (depth + 1) (shapeOf (ExperimentConfig Binary64)) (.object members true) = .ok v) :
    Accepted members := by
  rw [ExperimentConfig.shapeOf_eq, check] at h
  obtain ⟨new, hnew, hnodup, -⟩ := (checkMembers_eq_ok_iff rfl).mp h
  refine ⟨(nodup_of_takenAs hnew).mpr hnodup, ?_⟩
  have hgives := hnew.imp fun m named htaken =>
    And.intro ((ExperimentConfig.takenAs_iff.mp htaken).imp fun _ => And.left) htaken
  exact ((List.forall₂_and_left _ _).mp hgives).1

theorem exists_error_of_not_accepted (htext : Reading.SpellsText text (.object members true))
    (h : ¬ Accepted members) : ∃ message,
      ExperimentConfig.ofText (α := Binary64) text = .error (.malformedConfig message) := by
  cases hcheck : check maxDepth (shapeOf (ExperimentConfig Binary64)) (.object members true) with
  | ok v => exact absurd (accepted_of_check hcheck) h
  | error e =>
    refine ⟨"Invalid experiment config: " ++ e.message, ?_⟩
    have hread : Json.read (ExperimentConfig Binary64) text = .error e := by
      simp only [Json.read, Shape.read, Reading.ofText_spelled htext, hcheck]
    rw [ExperimentConfig.ofText, hread]

/-! ## Options in place of a document -/

/-- The options with one more, which gives a setting the same value as an assignment does. No
option can say that the number of workers is null. -/
inductive Adds (o : Options) : Assignment → Options → Prop
  | customers {n : UInt64} (h : o.customers = none) :
      Adds o (.customers n) { o with customers := some n }
  | arrivalRate {x : Binary64} (h : o.arrivalRate = none) :
      Adds o (.arrivalRate x) { o with arrivalRate := some x }
  | serviceRate {x : Binary64} (h : o.serviceRate = none) :
      Adds o (.serviceRate x) { o with serviceRate := some x }
  | trials {n : UInt64} (h : o.trials = none) : Adds o (.trials n) { o with trials := some n }
  | seed {n : UInt64} (h : o.seed = none) : Adds o (.seed n) { o with seed := some n }
  | workers {n : UInt64} (h : o.workers = none) :
      Adds o (.workers (some n)) { o with workers := some n }

/-- One option is added when it is that of an assignment, and kept otherwise. -/
def Moved {τ : Type} (assignment : τ → Assignment) (a : Assignment) (before after : Option τ) :
    Prop :=
  (∃ x, a = assignment x ∧ before = none ∧ after = some x) ∨
    (∀ x, (assignment x).key ≠ a.key) ∧ after = before

theorem Moved.settled {τ : Type} {assignment : τ → Assignment} {a : Assignment}
    {before after : Option τ} (h : Moved assignment a before after)
    {given rest : Assignment → Prop} (hgiven : given a)
    (hrest : ∀ b : Assignment, b.key ≠ a.key → (rest b ↔ given b)) {d x : τ}
    (hx : Settled after (fun y => rest (assignment y)) d x) :
    Settled before (fun y => given (assignment y)) d x := by
  rcases h with ⟨y, rfl, rfl, rfl⟩ | ⟨hkey, rfl⟩
  · rw [Settled.some_iff.mp hx]
    exact .given rfl hgiven
  · have hsame : ∀ y, rest (assignment y) ↔ given (assignment y) := fun y => hrest _ (hkey y)
    cases after with
    | none => simpa only [Settled.none_iff, hsame] using hx
    | some y => simpa only [Settled.some_iff] using hx

/-- What is settled by an option is settled the same by the document. -/
theorem Settles.of_adds {o o' : Options} {a : Assignment} (hadds : o.Adds a o')
    {given rest : Assignment → Prop} (hgiven : given a)
    (hrest : ∀ b : Assignment, b.key ≠ a.key → (rest b ↔ given b))
    {c : ExperimentConfig Binary64} (h : Settles o' rest c) : Settles o given c := by
  have hmoved : Moved .customers a o.customers o'.customers ∧
      Moved .arrivalRate a o.arrivalRate o'.arrivalRate ∧
      Moved .serviceRate a o.serviceRate o'.serviceRate ∧ Moved .trials a o.trials o'.trials ∧
      Moved .seed a o.seed o'.seed ∧
      Moved .workers a (o.workers.map some) (o'.workers.map some) := by
    cases hadds <;> simp_all [Moved, Assignment.key]
  obtain ⟨hcustomers, harrivals, hservice, htrials, hseed, hworkers⟩ := hmoved
  exact ⟨hcustomers.settled hgiven hrest h.customers, harrivals.settled hgiven hrest h.arrivalRate,
    hservice.settled hgiven hrest h.serviceRate, htrials.settled hgiven hrest h.trials,
    hseed.settled hgiven hrest h.seed, hworkers.settled hgiven hrest h.workers⟩

/-! ## Configurations -/

theorem configure_eq_ok_iff {o : Options} {c : ExperimentConfig Binary64} :
    o.configure (.inl text) = .ok c ↔
      ∃ c', ExperimentConfig.ofText text = .ok c' ∧ o.override c' = c := by
  rw [configure]
  cases ExperimentConfig.ofText (α := Binary64) text with
  | error e => simp [Except.map]
  | ok c' => simp [Except.map]

/-- **What an accepted document and the options come to.** -/
theorem configure_accepted (htext : Reading.SpellsText text (.object members true))
    (h : Accepted members) (o : Options) :
    ∃ c, o.configure (.inl text) = .ok c ∧ Settles o (AssignedBy members) c := by
  obtain ⟨c, hread, hc⟩ := exists_ofText htext h
  exact ⟨_, configure_eq_ok_iff.mpr ⟨c, hread, rfl⟩, hc.override⟩

theorem assignedBy_append_iff {before after : List (Reading × Reading)} {member : Reading × Reading}
    {a b : Assignment} (hgives : Gives member a) (hkey : b.key ≠ a.key) :
    AssignedBy (before ++ after) b ↔ AssignedBy (before ++ member :: after) b := by
  constructor
  · rintro ⟨m, hm, hb⟩
    refine ⟨m, ?_, hb⟩
    simp only [List.mem_append, List.mem_cons] at hm ⊢
    exact hm.imp_right Or.inr
  · rintro ⟨m, hm, hb⟩
    refine ⟨m, ?_, hb⟩
    simp only [List.mem_append, List.mem_cons] at hm ⊢
    refine hm.imp_right (Or.resolve_left · ?_)
    rintro rfl
    exact hkey (by simpa using hb.1.symm.trans hgives.1)

/-- **An option of the same value goes for a member.** -/
theorem configure_adds {before after : List (Reading × Reading)} {member : Reading × Reading}
    (htext : Reading.SpellsText text (.object (before ++ member :: after) true))
    (h : Accepted (before ++ member :: after)) {a : Assignment} (hgives : Gives member a)
    {o o' : Options} (hadds : o.Adds a o') {text' : String}
    (htext' : Reading.SpellsText text' (.object (before ++ after) true)) :
    o'.configure (.inl text') = o.configure (.inl text) := by
  have hsub : (before ++ after).Sublist (before ++ member :: after) :=
    (List.sublist_cons_self member after).append_left before
  have h' : Accepted (before ++ after) :=
    ⟨h.nodup.sublist (hsub.map Prod.fst), fun m hm => h.gives m (hsub.subset hm)⟩
  obtain ⟨c, hconfigure, hc⟩ := configure_accepted htext h o
  obtain ⟨c', hconfigure', hc'⟩ := configure_accepted htext' h' o'
  have hmoved : Settles o (AssignedBy (before ++ member :: after)) c' :=
    hc'.of_adds hadds ⟨member, by simp, hgives⟩ fun _ hkey => assignedBy_append_iff hgives hkey
  rw [hconfigure, hconfigure', hmoved.unique (fun _ _ => h.unique) hc]

theorem simulate_document {machine : Machine Id} {o : Options} {path : String}
    (hpath : o.config = some path) (hfile : machine.fileAt path = .ok text.toUTF8) :
    simulate machine o = Outcome.ofReport o.json (do
      let config ← (o.configure (.inl text)).mapError .error
      runExperiment machine.processors config machine.staffing) := by
  have hdocument : documentText path (.ok text.toUTF8) = .ok text := by
    simp [documentText, String.fromUTF8?, String.fromUTF8, String.toUTF8, text.isValidUTF8]
  have hsource : o.source machine = .ok (.inl text) := by
    rw [source, hpath]
    show (documentText path (machine.fileAt path)).map Sum.inl = _
    rw [hfile, hdocument]
    rfl
  rw [simulate, hsource]
  rfl

/-- **What a configuration document and the options come to.** The document is an object in any
spelling. Whatever the options, it is taken if and only if its keys are different and each of them
names a setting that its value fits; otherwise it is refused, and for the same reason whatever the
options. In the configuration, every setting has the value of its option, or else the one that
the document gives, or else its default. A member that gives a value may therefore be taken out of
the document if the option of the same value is added: the configuration is the same, and so is
the outcome of the program on a machine that has the shorter document in the place of the longer
one. -/
theorem configure_document {text : String} {members : List (Reading × Reading)}
    (htext : Reading.SpellsText text (.object members true)) :
    (∀ o : Options, (∃ c, o.configure (.inl text) = .ok c) ↔ Accepted members) ∧
    (∀ (o : Options) c, o.configure (.inl text) = .ok c → o.Settles (AssignedBy members) c) ∧
    (¬ Accepted members → ∃ message, ∀ o : Options,
      o.configure (.inl text) = .error (.malformedConfig message)) ∧
    ∀ before member after, members = before ++ member :: after → Accepted members →
      ∀ a, Gives member a → ∀ o o' : Options, o.Adds a o' →
        ∀ text', Reading.SpellsText text' (.object (before ++ after) true) →
          o'.configure (.inl text') = o.configure (.inl text) ∧
          ∀ (machine machine' : Machine Id) path, o.config = some path →
            machine.fileAt path = .ok text.toUTF8 → machine'.fileAt path = .ok text'.toUTF8 →
            machine'.processors = machine.processors → machine'.staffing = machine.staffing →
            simulate machine' o' = simulate machine o := by
  have haccepted : ∀ {o : Options} {c}, o.configure (.inl text) = .ok c → Accepted members := by
    intro o c h
    by_contra hnot
    obtain ⟨message, hrefused⟩ := exists_error_of_not_accepted htext hnot
    obtain ⟨c', hread, -⟩ := configure_eq_ok_iff.mp h
    cases hread.symm.trans hrefused
  refine ⟨fun o => ⟨fun ⟨c, h⟩ => haccepted h, fun h => ?_⟩, fun o c h => ?_, fun hnot => ?_, ?_⟩
  · obtain ⟨c, hc, -⟩ := configure_accepted htext h o
    exact ⟨c, hc⟩
  · obtain ⟨c', hc', hsettles⟩ := configure_accepted htext (haccepted h) o
    cases hc'.symm.trans h
    exact hsettles
  · obtain ⟨message, hrefused⟩ := exists_error_of_not_accepted htext hnot
    refine ⟨message, fun o => ?_⟩
    rw [configure, hrefused]
    rfl
  · rintro before member after rfl h a hgives o o' hadds text' htext'
    have hsame := configure_adds htext h hgives hadds htext'
    refine ⟨hsame, fun machine machine' path hpath hfile hfile' hprocessors
      hstaffing => ?_⟩
    have hkept : o'.config = o.config ∧ o'.json = o.json := by
      cases hadds <;> exact ⟨rfl, rfl⟩
    rw [simulate_document hpath hfile, simulate_document (hkept.1.trans hpath) hfile', hsame,
      hkept.2, hprocessors, hstaffing]

/-- Seven trials may be asked for by the document or by an option, but not twice by the document. -/
theorem configure_sevenTrials :
    let o : Options := { Options.empty with customers := some 5 }
    (∃ c, o.configure (.inl "\x7b\"trials\":7,\"workers\":null\x7d") = .ok c ∧
      o.Settles (AssignedBy [(.string (some "trials"), .number (.ofInt 7)),
        (.string (some "workers"), .null)]) c ∧
      { o with trials := some 7 }.configure (.inl "\x7b\"workers\":null\x7d") = .ok c) ∧
    ∃ message, ∀ o : Options, o.configure (.inl "\x7b\"trials\":7,\"trials\":7\x7d") =
      .error (.malformedConfig message) := by
  intro o
  have hspelled : ∀ members : List (String × Value), (Value.object members).Finite →
      Reading.SpellsText (Value.object members).compact
        (.object (Reading.ofMembers members) true) := fun _ h => Reading.spellsText_compact h
  have hlong := configure_document
    (hspelled [("trials", .ofNat 7), ("workers", .null)] ⟨trivial, trivial, trivial⟩)
  have htwice := configure_document
    (hspelled [("trials", .ofNat 7), ("trials", .ofNat 7)] ⟨trivial, trivial, trivial⟩)
  have hshort := hspelled [("workers", .null)] ⟨trivial, trivial⟩
  have htrials : Gives (.string (some "trials"), .number (.ofInt 7)) (.trials 7) :=
    ⟨rfl, .intro rfl⟩
  have hworkers : Gives (.string (some "workers"), .null) (.workers none) := ⟨rfl, rfl⟩
  have haccepted : Accepted [(.string (some "trials"), .number (.ofInt 7)),
      (.string (some "workers"), .null)] := by
    refine ⟨by simp, ?_⟩
    rintro m hm
    simp only [List.mem_cons, List.not_mem_nil, or_false] at hm
    rcases hm with rfl | rfl
    · exact ⟨_, htrials⟩
    · exact ⟨_, hworkers⟩
  have hnot : ¬ Accepted [(.string (some "trials"), .number (.ofInt 7)),
      (.string (some "trials"), .number (.ofInt 7))] := by
    intro h
    simpa using h.nodup
  obtain ⟨c, hc⟩ := (hlong.1 o).mpr haccepted
  have hmoved := hlong.2.2.2 [] _ _ rfl haccepted _ htrials o _ (.trials rfl) _ hshort
  exact ⟨⟨c, hc, hlong.2.1 o c hc, hmoved.1.trans hc⟩, htwice.2.2.1 hnot⟩

end CommandLine.Options

end Queueing
