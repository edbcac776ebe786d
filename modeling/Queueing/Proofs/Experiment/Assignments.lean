import Queueing.Experiment.Config
import Queueing.Proofs.Json.Reread

/-!
# Assignments of a configuration document

A configuration document is an object whose members may come in any order. It is taken if and only
if its keys are different and each of them names a setting that its value fits (`Accepted`). A
setting that may be given in several ways is settled by the first of them (`Settled`), and one that
is left to the document by the member that names it or by its default (`Listing.settled`).
-/

namespace Queueing

open Json

namespace Json

/-! ## Values that fit -/

/-- A count that fits into 64 bits: digits without a sign, a fraction or an exponent. -/
inductive IsCount : Reading → UInt64 → Prop
  | intro {digits : List Char} {n : UInt64} (h : Decimal.digitsValue digits = n.toNat) :
      IsCount (.number ⟨false, digits, none, none⟩) n

/-- A number in the range of reals. -/
inductive IsRate : Reading → Binary64 → Prop
  | integer {n : Numeral} {i : Int} (h : n.number? = some (.integer i)) :
      IsRate (.number n) (realOfInt i)
  | real {n : Numeral} {x : Binary64} (h : n.number? = some (.real x)) : IsRate (.number n) x

theorem IsCount.unique {r : Reading} {n k : UInt64} (hn : IsCount r n) (hk : IsCount r k) :
    n = k := by
  cases hn with
  | intro hn =>
    cases hk with
    | intro hk => exact UInt64.toNat_inj.mp (hn.symm.trans hk)

theorem IsRate.unique {r : Reading} {x y : Binary64} (hx : IsRate r x) (hy : IsRate r y) :
    x = y := by
  cases hx <;> cases hy <;> simp_all

theorem not_isCount_null {n : UInt64} : ¬ IsCount .null n := by
  rintro ⟨⟩

/-- Only a numeral of digits alone names an integer that is not negative. -/
theorem exists_digits_of_number? {n : Numeral} {i : Int} (h : n.number? = some (.integer i))
    (hi : 0 ≤ i) : ∃ digits, n = ⟨false, digits, none, none⟩ ∧
      i = Decimal.digitsValue digits ∧ Decimal.digitsValue digits < Decimal.wordLimit := by
  obtain ⟨negative, whole, fraction, exponent⟩ := n
  simp only [Numeral.number?] at h
  split_ifs at h with hplain hneg hpos hlt
  · cases h
    omega
  · simp at h
  · cases h
    obtain ⟨rfl, rfl⟩ := hplain
    exact ⟨whole, by simp [hneg], rfl, hlt⟩
  · simp at h
  · simp at h

theorem refuse_ne_ok {α : Type} {expected : String} {r : Reading} {v : α} :
    refuse expected r ≠ .ok v := by
  intro h
  have hnone := toOption_refuse (α := α) expected r
  rw [h] at hnone
  cases hnone

theorem checkCount_eq_ok_iff {type : String} {r : Reading} {v : Value} :
    checkCount type r = .ok v ↔ ∃ n, IsCount r n ∧ v = Value.ofNat n.toNat := by
  constructor
  · intro h
    rw [checkCount.eq_def] at h
    split at h
    · split at h
      · next i hi =>
        split_ifs at h with hpos
        obtain ⟨digits, rfl, rfl, hlt⟩ := exists_digits_of_number? hi hpos
        cases h
        have hvalue : (UInt64.ofNat (Decimal.digitsValue digits)).toNat =
            Decimal.digitsValue digits := UInt64.toNat_ofNat_of_lt' hlt
        refine ⟨_, .intro hvalue.symm, ?_⟩
        rw [hvalue]
        rfl
      · exact absurd h refuse_ne_ok
    · exact absurd h refuse_ne_ok
  · rintro ⟨n, ⟨hn⟩, rfl⟩
    have hlt : n.toNat < Decimal.wordLimit := n.toNat_lt
    simp [checkCount, Numeral.number?, hn, hlt, Value.ofNat]

theorem checkReal_eq_ok_iff {r : Reading} {v : Value} :
    checkReal r = .ok v ↔ ∃ x, IsRate r x ∧ v = .number (.real x) := by
  constructor
  · intro h
    rw [checkReal.eq_def] at h
    split at h
    · split at h
      · next i hi =>
        cases h
        exact ⟨_, .integer hi, rfl⟩
      · next x hx =>
        cases h
        exact ⟨_, .real hx, rfl⟩
      · cases h
    · exact absurd h refuse_ne_ok
  · rintro ⟨x, ⟨h⟩ | ⟨h⟩, rfl⟩
    · simp only [checkReal, h]
    · simp only [checkReal, h]

section

variable {depth : ℕ} {f : Field} {type : String} {r : Reading} {v : Value}

theorem checkField_count_iff (hs : f.shape = .count type) (hn : f.nullable = false) :
    checkField (check depth) f r = .ok v ↔ ∃ n, IsCount r n ∧ v = Form.write n := by
  rw [checkField_of_not_nullable hn, hs, check]
  exact checkCount_eq_ok_iff

theorem checkField_real_iff (hs : f.shape = .real) (hn : f.nullable = false) :
    checkField (check depth) f r = .ok v ↔ ∃ x, IsRate r x ∧ v = .number (.real x) := by
  rw [checkField_of_not_nullable hn, hs, check]
  exact checkReal_eq_ok_iff

theorem checkField_optional_count_iff (hs : f.shape = .count type) (hn : f.nullable = true) :
    checkField (check depth) f r = .ok v ↔
      r = .null ∧ v = .null ∨ ∃ n, IsCount r n ∧ v = Form.write n := by
  rw [checkField.eq_def, hn, hs]
  cases r with
  | null => simp [not_isCount_null, eq_comm]
  | _ =>
    simp only [if_true, check, checkCount_eq_ok_iff, reduceCtorEq, false_and, false_or]
    rfl

end

end Json

namespace ExperimentConfig

/-! ## Assignments of a document -/

/-- A setting with the value that a member of a document gives it. -/
inductive Assignment where
  | customers (n : UInt64)
  | arrivalRate (x : Binary64)
  | serviceRate (x : Binary64)
  | trials (n : UInt64)
  | seed (n : UInt64)
  | workers (n : Option UInt64)

namespace Assignment

def key : Assignment → String
  | .customers _ => "customers"
  | .arrivalRate _ => "arrival_rate"
  | .serviceRate _ => "service_rate"
  | .trials _ => "trials"
  | .seed _ => "rng_seed"
  | .workers _ => "workers"

/-- A value that gives this. Only the number of workers can be null. -/
def Fits (r : Reading) : Assignment → Prop
  | .customers n | .trials n | .seed n | .workers (some n) => IsCount r n
  | .arrivalRate x | .serviceRate x => IsRate r x
  | .workers none => r = .null

def value : Assignment → Value
  | .customers n | .trials n | .seed n => Form.write n
  | .arrivalRate x | .serviceRate x => .number (.real x)
  | .workers n => Form.write n

end Assignment

def Gives (member : Reading × Reading) (a : Assignment) : Prop :=
  member.1 = .string (some a.key) ∧ a.Fits member.2

def AssignedBy (members : List (Reading × Reading)) (a : Assignment) : Prop :=
  ∃ m ∈ members, Gives m a

/-- Members with different keys, each of which gives a setting its value. -/
structure Accepted (members : List (Reading × Reading)) : Prop where
  nodup : (members.map Prod.fst).Nodup
  gives : ∀ m ∈ members, ∃ a, Gives m a

theorem Assignment.eq_of_fits {r : Reading} {a b : Assignment} (hkey : a.key = b.key)
    (h : a.Fits r) (h' : b.Fits r) : a = b := by
  cases a <;> cases b <;> simp only [Assignment.key, String.reduceEq] at hkey
  case customers | trials | seed => rw [IsCount.unique h h']
  case arrivalRate | serviceRate => rw [IsRate.unique h h']
  case workers n k =>
    cases n with
    | none =>
      obtain rfl : r = .null := h
      cases k with
      | none => rfl
      | some k => exact absurd h' not_isCount_null
    | some n =>
      cases k with
      | none =>
        obtain rfl : r = .null := h'
        exact absurd h not_isCount_null
      | some k => rw [IsCount.unique h h']

theorem Accepted.unique {members : List (Reading × Reading)} (h : Accepted members)
    {a b : Assignment} (ha : AssignedBy members a) (hb : AssignedBy members b)
    (hkey : a.key = b.key) : a = b := by
  obtain ⟨m, hm, hname, hfits⟩ := ha
  obtain ⟨m', hm', hname', hfits'⟩ := hb
  obtain rfl : m = m' := List.inj_on_of_nodup_map h.nodup hm hm' (by rw [hname, hname', hkey])
  exact Assignment.eq_of_fits hkey hfits hfits'

/-! ## The record of a configuration -/

def fields : List Field :=
  let d : ExperimentConfig Binary64 := .default
  [.defaulting "customers" (shapeOf UInt64) (Form.write d.customers),
    .defaulting "arrival_rate" (shapeOf Binary64) (Form.write d.arrivalRate),
    .defaulting "service_rate" (shapeOf Binary64) (Form.write d.serviceRate),
    .defaulting "trials" sizeShape (Form.write d.trials),
    .defaulting "rng_seed" (shapeOf UInt64) (Form.write d.seed),
    .optional "workers" sizeShape]

theorem shapeOf_eq : shapeOf (ExperimentConfig Binary64) =
    .record (.mk "struct ExperimentConfig" true true fields) :=
  rfl

variable {depth : ℕ} {members : List (Reading × Reading)}

/-- **What a member of a configuration is taken as.** -/
theorem takenAs_iff {title : String} {lenient strict : Bool} {member : Reading × Reading}
    {named : String × Value} :
    TakenAs (check depth) (.mk title lenient strict fields) member named ↔
      ∃ a, Gives member a ∧ named = (a.key, a.value) := by
  obtain ⟨key, v⟩ := named
  constructor
  · rintro ⟨hkey, f, hfind, hfield⟩
    have hname : f.name = key := by simpa using List.find?_some hfind
    have hmem : f ∈ fields := List.mem_of_find?_eq_some hfind
    simp only [fields, List.mem_cons, List.not_mem_nil, or_false] at hmem
    subst hname
    rcases hmem with rfl | rfl | rfl | rfl | rfl | rfl
    · obtain ⟨n, hn, rfl⟩ := (checkField_count_iff rfl rfl).mp hfield
      exact ⟨.customers n, ⟨hkey, hn⟩, rfl⟩
    · obtain ⟨x, hx, rfl⟩ := (checkField_real_iff rfl rfl).mp hfield
      exact ⟨.arrivalRate x, ⟨hkey, hx⟩, rfl⟩
    · obtain ⟨x, hx, rfl⟩ := (checkField_real_iff rfl rfl).mp hfield
      exact ⟨.serviceRate x, ⟨hkey, hx⟩, rfl⟩
    · obtain ⟨n, hn, rfl⟩ := (checkField_count_iff rfl rfl).mp hfield
      exact ⟨.trials n, ⟨hkey, hn⟩, rfl⟩
    · obtain ⟨n, hn, rfl⟩ := (checkField_count_iff rfl rfl).mp hfield
      exact ⟨.seed n, ⟨hkey, hn⟩, rfl⟩
    · rcases (checkField_optional_count_iff rfl rfl).mp hfield with ⟨hnull, rfl⟩ | ⟨n, hn, rfl⟩
      · exact ⟨.workers none, ⟨hkey, hnull⟩, rfl⟩
      · exact ⟨.workers (some n), ⟨hkey, hn⟩, rfl⟩
  · rintro ⟨a, ⟨hkey, hfits⟩, heq⟩
    cases heq
    refine ⟨hkey, ?_⟩
    cases a with
    | customers n => exact ⟨_, rfl, (checkField_count_iff rfl rfl).mpr ⟨n, hfits, rfl⟩⟩
    | arrivalRate x => exact ⟨_, rfl, (checkField_real_iff rfl rfl).mpr ⟨x, hfits, rfl⟩⟩
    | serviceRate x => exact ⟨_, rfl, (checkField_real_iff rfl rfl).mpr ⟨x, hfits, rfl⟩⟩
    | trials n => exact ⟨_, rfl, (checkField_count_iff rfl rfl).mpr ⟨n, hfits, rfl⟩⟩
    | seed n => exact ⟨_, rfl, (checkField_count_iff rfl rfl).mpr ⟨n, hfits, rfl⟩⟩
    | workers n =>
      refine ⟨_, rfl, (checkField_optional_count_iff rfl rfl).mpr ?_⟩
      cases n with
      | none => exact Or.inl ⟨hfits, rfl⟩
      | some n => exact Or.inr ⟨n, hfits, rfl⟩

/-! ## Settings by precedence -/

/-- An option goes before what a document gives, and this before the default. -/
inductive Settled {τ : Type} (option : Option τ) (given : τ → Prop) (default : τ) : τ → Prop
  | option {x : τ} (h : option = some x) : Settled option given default x
  | given {x : τ} (hoption : option = none) (h : given x) : Settled option given default x
  | default (hoption : option = none) (h : ∀ x, ¬ given x) : Settled option given default default

namespace Settled

variable {τ : Type} {option : Option τ} {given : τ → Prop} {d x y : τ}

@[simp]
theorem some_iff : Settled (some y) given d x ↔ x = y := by
  constructor
  · rintro (h | ⟨⟨⟩, -⟩ | ⟨⟨⟩, -⟩)
    exact (Option.some.inj h).symm
  · rintro rfl
    exact .option rfl

@[simp]
theorem none_iff : Settled none given d x ↔ given x ∨ x = d ∧ ∀ z, ¬ given z := by
  constructor
  · rintro (⟨⟨⟩⟩ | ⟨-, h⟩ | ⟨-, h⟩)
    · exact Or.inl h
    · exact Or.inr ⟨rfl, h⟩
  · rintro (h | ⟨rfl, h⟩)
    · exact .given rfl h
    · exact .default rfl h

theorem override (h : Settled none given d x) : Settled option given d (option.getD x) := by
  cases option with
  | none => exact h
  | some x => exact .option rfl

theorem unique (hgiven : ∀ x y, given x → given y → x = y) (hx : Settled option given d x)
    (hy : Settled option given d y) : x = y := by
  cases option with
  | some z => rw [some_iff.mp hx, some_iff.mp hy]
  | none =>
    rcases none_iff.mp hx with hx | ⟨rfl, hnone⟩
    · rcases none_iff.mp hy with hy | ⟨-, hnone⟩
      · exact hgiven x y hx hy
      · exact absurd hx (hnone x)
    · rcases none_iff.mp hy with hy | ⟨rfl, -⟩
      · exact absurd hy (hnone y)
      · rfl

end Settled

/-- A listing of what members give: every value in it is given, and none is left out. -/
structure Listing (members : List (Reading × Reading)) (values : Given) : Prop where
  given : ∀ {key v}, values.lookup key = some v →
    ∃ a, AssignedBy members a ∧ a.key = key ∧ a.value = v
  all : ∀ {a}, AssignedBy members a → values.lookup a.key ≠ none

theorem listing_of_gives {g : Reading × Reading → Assignment}
    (hg : ∀ m ∈ members, Gives m (g m)) :
    Listing members (members.map fun m => ((g m).key, (g m).value)).reverse where
  given := by
    intro key v h
    obtain ⟨before, after, hsplit, -⟩ := List.lookup_eq_some_iff.mp h
    have hmem : (key, v) ∈ (members.map fun m => ((g m).key, (g m).value)).reverse := by
      rw [hsplit]
      simp
    obtain ⟨m, hm, heq⟩ := List.mem_map.mp (List.mem_reverse.mp hmem)
    obtain ⟨hkey, hvalue⟩ := Prod.mk.inj heq
    exact ⟨g m, ⟨m, hm, hg m hm⟩, hkey, hvalue⟩
  all := by
    rintro a ⟨m, hm, hkey, -⟩ hnone
    have hne := List.lookup_eq_none_iff.mp hnone ((g m).key, (g m).value)
      (List.mem_reverse.mpr (List.mem_map_of_mem hm))
    have hsame : a.key = (g m).key := by simpa using hkey.symm.trans (hg m hm).1
    rw [hsame] at hne
    simp at hne

theorem Listing.settled {values : Given} (h : Listing members values) {τ : Type} [Form τ]
    (assignment : τ → Assignment) (key : String) (default : Value) {d : τ}
    (hkey : ∀ a : Assignment, a.key = key ↔ ∃ x, a = assignment x)
    (hvalue : ∀ x, Form.ofValue? (assignment x).value = some x)
    (hdefault : Form.ofValue? default = some d) :
    ∃ x, Form.ofValue? ((values.lookup key).getD default) = some x ∧
      Settled none (fun x => AssignedBy members (assignment x)) d x := by
  cases hlookup : values.lookup key with
  | none =>
    refine ⟨d, hdefault, .default rfl fun x hx => h.all hx ?_⟩
    rw [(hkey _).mpr ⟨x, rfl⟩]
    exact hlookup
  | some v =>
    obtain ⟨a, ha, hname, rfl⟩ := h.given hlookup
    obtain ⟨x, rfl⟩ := (hkey a).mp hname
    exact ⟨x, hvalue x, .given rfl ha⟩

end ExperimentConfig

end Queueing
