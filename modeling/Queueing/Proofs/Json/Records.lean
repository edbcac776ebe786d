import Queueing.Json.Form
import Queueing.Proofs.Actions
import Queueing.Proofs.Json.Documents

/-!
# Checking records

A record that was written has all its fields in the order of their declaration. Checking it thus
amounts to checking each field (`checkMembers_written`), also when the record is a variant of a
tagged choice (`checkTagged_written`). The members of a record that was not written may come in any
order, and a strict record takes them when their keys are different and each names a field that
its value fits (`checkMembers_eq_ok_iff`).
-/

namespace Queueing.Json

variable {check : Shape → Reading → Except ReadError Value} {r : Record}

/-! ## Fields -/

def checkNamed (check : Shape → Reading → Except ReadError Value) (p : Field × Reading) :
    Except ReadError (String × Value) :=
  (checkField check p.1 p.2).map fun v => (p.1.name, v)

theorem fst_of_checkNamed {p : Field × Reading} {m : String × Value}
    (h : checkNamed check p = .ok m) : m.1 = p.1.name := by
  rw [checkNamed] at h
  cases hfield : checkField check p.1 p.2 with
  | error e =>
    rw [hfield] at h
    cases h
  | ok v =>
    rw [hfield] at h
    cases h
    rfl

theorem checkMember_written {given : Given} {p : Field × Reading}
    (hfind : r.fields.find? (·.name = p.1.name) = some p.1)
    (hnew : given.lookup p.1.name = none) :
    checkMember check r given (.string (some p.1.name), p.2) =
      (checkNamed check p).map (· :: given) := by
  simp only [checkMember, checkKey, bind, Except.bind, hfind, hnew, checkNamed]
  cases checkField check p.1 p.2 <;> rfl

theorem foldlM_checkMember {pairs : List (Field × Reading)} (given : Given)
    (hfind : ∀ p ∈ pairs, r.fields.find? (·.name = p.1.name) = some p.1)
    (hnodup : (pairs.map (·.1.name)).Nodup)
    (hnew : ∀ p ∈ pairs, given.lookup p.1.name = none) :
    (pairs.map fun p => (Reading.string (some p.1.name), p.2)).foldlM (checkMember check r) given =
      (pairs.mapM (checkNamed check)).map fun new => new.reverse ++ given := by
  induction pairs generalizing given with
  | nil => rfl
  | cons p pairs ih =>
    rw [List.map_cons, List.nodup_cons] at hnodup
    rw [List.map_cons, List.foldlM_cons, List.mapM_cons,
      checkMember_written (hfind p List.mem_cons_self) (hnew p List.mem_cons_self)]
    cases hnamed : checkNamed check p with
    | error e => rfl
    | ok named =>
      have hname := fst_of_checkNamed hnamed
      have hrest := ih (named :: given)
        (fun q hq => hfind q (List.mem_cons_of_mem _ hq)) hnodup.2 (by
          intro q hq
          have hne : q.1.name ≠ named.1 := by
            rw [hname]
            intro heq
            exact hnodup.1 (heq ▸ List.mem_map_of_mem hq)
          rw [List.lookup_cons, beq_false_of_ne hne]
          exact hnew q (List.mem_cons_of_mem _ hq))
      simp only [Except.map, bind, Except.bind, hrest]
      cases pairs.mapM (checkNamed check) with
      | error e => rfl
      | ok new => simp [pure, Except.pure]

theorem map_fst_of_mapM_checkNamed {pairs : List (Field × Reading)}
    {new : List (String × Value)} (h : pairs.mapM (checkNamed check) = .ok new) :
    new.map Prod.fst = pairs.map (·.1.name) := by
  induction mapM_eq_ok_iff.mp h with
  | nil => rfl
  | cons hnamed _ ih =>
    rw [List.map_cons, List.map_cons, fst_of_checkNamed hnamed, ih (mapM_eq_ok_iff.mpr ‹_›)]

theorem mapM_settle {given : Given} {fields : List Field} {new : List (String × Value)}
    (hnames : new.map Prod.fst = fields.map Field.name)
    (hgiven : ∀ m ∈ new, given.lookup m.1 = some m.2) :
    fields.mapM (settle given) = .ok new := by
  induction fields generalizing new with
  | nil =>
    rw [List.map_nil, List.map_eq_nil_iff] at hnames
    subst hnames
    rfl
  | cons f fields ih =>
    cases new with
    | nil => cases hnames
    | cons m new =>
      obtain ⟨hname, hrest⟩ := List.cons.inj hnames
      have hsettle : settle given f = .ok m := by
        have := hgiven m List.mem_cons_self
        rw [hname] at this
        simp only [settle, this]
        rw [← hname]
      rw [List.mapM_cons, hsettle,
        ih hrest fun q hq => hgiven q (List.mem_cons_of_mem _ hq)]
      rfl

/-- A field with a default is taken as it was given, or else as its default. -/
theorem mapM_settle_of_default {given : Given} {fields : List Field}
    (h : ∀ f ∈ fields, f.default.isSome = true) :
    fields.mapM (settle given) =
      .ok (fields.map fun f => (f.name, (given.lookup f.name).getD (f.default.getD .null))) := by
  induction fields with
  | nil => rfl
  | cons f fields ih =>
    rw [List.forall_mem_cons] at h
    obtain ⟨v, hv⟩ := Option.isSome_iff_exists.mp h.1
    have hsettle : settle given f =
        .ok (f.name, (given.lookup f.name).getD (f.default.getD .null)) := by
      rw [settle, hv]
      cases given.lookup f.name <;> rfl
    rw [List.mapM_cons, hsettle, ih h.2]
    rfl

theorem lookup_of_mem {β : Type} {l : List (String × β)} (hnodup : (l.map Prod.fst).Nodup)
    {m : String × β} (hm : m ∈ l) : l.lookup m.1 = some m.2 := by
  obtain ⟨before, after, rfl⟩ := List.append_of_mem hm
  refine List.lookup_eq_some_iff.mpr ⟨before, after, rfl, fun p hp => ?_⟩
  rw [List.map_append, List.map_cons, List.nodup_append] at hnodup
  have hne := hnodup.2.2 p.1 (List.mem_map_of_mem hp) m.1 List.mem_cons_self
  exact bne_iff_ne.mpr (Ne.symm hne)

/-- **A record that was written is checked field by field.** -/
theorem checkMembers_written (check : Shape → Reading → Except ReadError Value)
    (pairs : List (Field × Reading))
    (hfields : r.fields = pairs.map Prod.fst) (hnodup : (r.fields.map Field.name).Nodup) :
    checkMembers check r (pairs.map fun p => (.string (some p.1.name), p.2)) true =
      (pairs.mapM (checkNamed check)).map .object := by
  have hnames : r.fields.map Field.name = pairs.map (·.1.name) := by
    rw [hfields, List.map_map]
    rfl
  have hfind : ∀ p ∈ pairs, r.fields.find? (·.name = p.1.name) = some p.1 := by
    intro p hp
    obtain ⟨before, after, hsplit⟩ :=
      List.append_of_mem (hfields ▸ List.mem_map_of_mem hp : p.1 ∈ r.fields)
    refine List.find?_eq_some_iff_append.mpr ⟨by simp, before, after, hsplit, fun f hf => ?_⟩
    rw [hsplit, List.map_append, List.map_cons, List.nodup_append] at hnodup
    have hne := hnodup.2.2 f.name (List.mem_map_of_mem hf) p.1.name List.mem_cons_self
    simpa using hne
  rw [checkMembers, foldlM_checkMember [] hfind (hnames ▸ hnodup) (fun _ _ => rfl)]
  cases hnew : pairs.mapM (checkNamed check) with
  | error e => rfl
  | ok new =>
    have hkeys := map_fst_of_mapM_checkNamed hnew
    have hsettle : r.fields.mapM (settle (new.reverse ++ [])) = .ok new := by
      refine mapM_settle (hkeys.trans hnames.symm) fun m hm => ?_
      rw [List.append_nil]
      refine lookup_of_mem ?_ (List.mem_reverse.mpr hm)
      rw [List.map_reverse, List.nodup_reverse, hkeys, ← hnames]
      exact hnodup
    show (r.fields.mapM (settle (new.reverse ++ []))).map Value.object = _
    rw [hsettle]

/-! ## Strict records -/

/-- A member is taken as the value of the field that its key names. -/
def TakenAs (check : Shape → Reading → Except ReadError Value) (r : Record)
    (member : Reading × Reading) (named : String × Value) : Prop :=
  member.1 = .string (some named.1) ∧
    ∃ f, r.fields.find? (·.name = named.1) = some f ∧ checkField check f member.2 = .ok named.2

theorem nodup_of_takenAs {members : List (Reading × Reading)} {new : List (String × Value)}
    (h : List.Forall₂ (TakenAs check r) members new) :
    (members.map Prod.fst).Nodup ↔ (new.map Prod.fst).Nodup := by
  have hkeys : members.map Prod.fst = (new.map Prod.fst).map (Reading.string ∘ some) := by
    induction h with
    | nil => rfl
    | cons htaken _ ih => rw [List.map_cons, List.map_cons, List.map_cons, htaken.1, ih]; rfl
  rw [hkeys]
  refine List.nodup_map_iff fun s t hst => ?_
  simpa using hst

theorem checkKey_eq_ok_iff {key : Reading} {s : String} :
    checkKey key = .ok s ↔ key = .string (some s) := by
  rw [checkKey.eq_def]
  split <;> simp_all

/-- A strict record takes a member with a new key that names a field, and no other. -/
theorem checkMember_eq_ok_iff (hstrict : r.strict = true) {given given' : Given}
    {member : Reading × Reading} : checkMember check r given member = .ok given' ↔
      ∃ named, TakenAs check r member named ∧ named.1 ∉ given.map Prod.fst ∧
        given' = named :: given := by
  have hnew : ∀ key, given.lookup key = none ↔ key ∉ given.map Prod.fst := by
    intro key
    simp only [List.lookup_eq_none_iff, bne_iff_ne, ne_eq, List.mem_map, not_exists, not_and]
    exact forall₂_congr fun _ _ => not_congr eq_comm
  rw [checkMember, bind_eq_ok_iff]
  constructor
  · rintro ⟨key, hkey, h⟩
    cases hfind : r.fields.find? (·.name = key) with
    | none =>
      rw [hfind] at h
      simp only [hstrict, if_true] at h
      cases h
    | some f =>
      rw [hfind] at h
      cases hlookup : given.lookup key with
      | some v =>
        rw [hlookup] at h
        cases h
      | none =>
        rw [hlookup] at h
        obtain ⟨v, hv, hgiven⟩ := bind_eq_ok_iff.mp h
        cases hgiven
        exact ⟨(key, v), ⟨checkKey_eq_ok_iff.mp hkey, f, hfind, hv⟩, (hnew key).mp hlookup, rfl⟩
  · rintro ⟨⟨key, v⟩, ⟨hkey, f, hfind, hv⟩, hfresh, rfl⟩
    refine ⟨key, checkKey_eq_ok_iff.mpr hkey, ?_⟩
    simp only [hfind, (hnew key).mpr hfresh]
    exact bind_eq_ok_iff.mpr ⟨v, hv, rfl⟩

theorem foldlM_checkMember_eq_ok_iff (hstrict : r.strict = true)
    {members : List (Reading × Reading)} {given given' : Given} :
    members.foldlM (checkMember check r) given = .ok given' ↔
      ∃ new, List.Forall₂ (TakenAs check r) members new ∧ (new.map Prod.fst).Nodup ∧
        (∀ named ∈ new, named.1 ∉ given.map Prod.fst) ∧ given' = new.reverse ++ given := by
  induction members generalizing given with
  | nil =>
    simp only [List.foldlM_nil, List.forall₂_nil_left_iff]
    constructor
    · rintro ⟨⟩
      exact ⟨[], rfl, List.nodup_nil, by simp, rfl⟩
    · rintro ⟨_, rfl, -, -, rfl⟩
      rfl
  | cons member members ih =>
    rw [List.foldlM_cons, bind_eq_ok_iff]
    constructor
    · rintro ⟨between, hmember, hmembers⟩
      obtain ⟨named, htaken, hfresh, rfl⟩ := (checkMember_eq_ok_iff hstrict).mp hmember
      obtain ⟨new, hnew, hnodup, hapart, rfl⟩ := ih.mp hmembers
      simp only [List.map_cons, List.mem_cons, not_or] at hapart
      refine ⟨named :: new, .cons htaken hnew, ?_, ?_, by simp⟩
      · refine List.nodup_cons.mpr ⟨fun hmem => ?_, hnodup⟩
        obtain ⟨other, hother, heq⟩ := List.mem_map.mp hmem
        exact (hapart other hother).1 heq
      · exact List.forall_mem_cons.mpr ⟨hfresh, fun other hother => (hapart other hother).2⟩
    · rintro ⟨new, hnew, hnodup, hapart, rfl⟩
      cases hnew with
      | @cons _ named _ new htaken hnew =>
        rw [List.map_cons, List.nodup_cons] at hnodup
        rw [List.forall_mem_cons] at hapart
        refine ⟨named :: given, (checkMember_eq_ok_iff hstrict).mpr ⟨named, htaken, hapart.1, rfl⟩,
          ih.mpr ⟨new, hnew, hnodup.2, fun other hother => ?_, by simp⟩⟩
        rw [List.map_cons, List.mem_cons, not_or]
        refine ⟨fun heq => hnodup.1 ?_, hapart.2 other hother⟩
        exact heq ▸ List.mem_map_of_mem hother

/-- **What a strict record is read as**, in whatever order its members are given. -/
theorem checkMembers_eq_ok_iff (hstrict : r.strict = true) {members : List (Reading × Reading)}
    {v : Value} : checkMembers check r members true = .ok v ↔
      ∃ new, List.Forall₂ (TakenAs check r) members new ∧ (new.map Prod.fst).Nodup ∧
        (r.fields.mapM (settle new.reverse)).map .object = .ok v := by
  rw [checkMembers, bind_eq_ok_iff]
  simp only [foldlM_checkMember_eq_ok_iff hstrict, List.append_nil]
  constructor
  · rintro ⟨_, ⟨new, hnew, hnodup, -, rfl⟩, hsettled⟩
    exact ⟨new, hnew, hnodup, hsettled⟩
  · rintro ⟨new, hnew, hnodup, hsettled⟩
    exact ⟨new.reverse, ⟨new, hnew, hnodup, by simp, rfl⟩, hsettled⟩

/-! ## Variants -/

theorem foldlM_checkTagMember {any : Reading → Except ReadError Value} {tag : String}
    (variants : List (String × Record)) (chosen : Option (String × Record))
    (others : List (Reading × Reading)) {pairs : List (Field × Reading)}
    (htag : ∀ p ∈ pairs, p.1.name ≠ tag) (hany : ∀ p ∈ pairs, ∃ v, any p.2 = .ok v) :
    (pairs.map fun p => (Reading.string (some p.1.name), p.2)).foldlM
        (checkTagMember any tag variants) (chosen, others) =
      .ok (chosen, others ++ pairs.map fun p => (Reading.string (some p.1.name), p.2)) := by
  induction pairs generalizing others with
  | nil =>
    rw [List.map_nil, List.append_nil]
    rfl
  | cons p pairs ih =>
    obtain ⟨v, hv⟩ := hany p List.mem_cons_self
    have hmember : checkTagMember any tag variants (chosen, others)
        (.string (some p.1.name), p.2) =
          .ok (chosen, others ++ [(.string (some p.1.name), p.2)]) := by
      simp only [checkTagMember, checkKey, bind, Except.bind,
        if_neg (htag p List.mem_cons_self), hv]
      rfl
    have hrest := ih (others ++ [(.string (some p.1.name), p.2)])
      (fun q hq => htag q (List.mem_cons_of_mem _ hq))
      fun q hq => hany q (List.mem_cons_of_mem _ hq)
    rw [List.map_cons, List.foldlM_cons, hmember]
    simp only [bind, Except.bind, hrest, List.append_assoc, List.singleton_append]

/-- **A variant that was written is checked like its record.** -/
theorem checkTagged_written (check : Shape → Reading → Except ReadError Value)
    (pairs : List (Field × Reading)) {tag name : String} {variants : List (String × Record)}
    (hlookup : variants.lookup name = some r) (hfields : r.fields = pairs.map Prod.fst)
    (hnodup : (r.fields.map Field.name).Nodup)
    (htag : tag ∉ r.fields.map Field.name) (hany : ∀ p ∈ pairs, ∃ v, check .any p.2 = .ok v) :
    checkTagged check tag variants ((.string (some tag), .string (some name)) ::
        pairs.map fun p => (.string (some p.1.name), p.2)) true =
      (pairs.mapM (checkNamed check)).map fun members => withTag tag name (.object members) := by
  have hne : ∀ p ∈ pairs, p.1.name ≠ tag := by
    rintro p hp rfl
    rw [hfields, List.map_map] at htag
    exact htag (List.mem_map_of_mem (f := Field.name ∘ Prod.fst) hp)
  have hchosen : checkTagMember (check .any) tag variants (none, [])
      (.string (some tag), .string (some name)) = .ok (some (name, r), []) := by
    simp only [checkTagMember, checkKey, bind, Except.bind, checkTag, checkString, hlookup]
    rfl
  have hothers := foldlM_checkTagMember variants (some (name, r)) [] hne hany
  rw [checkTagged, List.foldlM_cons, hchosen]
  simp only [bind, Except.bind, hothers, List.nil_append, checkClosed, if_true,
    checkMembers_written check pairs hfields hnodup]
  cases pairs.mapM (checkNamed check) <;> rfl

end Queueing.Json
