import Mathlib.Data.List.Perm.Basic
import Queueing.Proofs.Binary64.Order
import Queueing.Proofs.Statistics.Aggregate
import Queueing.Proofs.Statistics.Moments

/-!
# The order of results does not matter

Results are aggregated one after the other, and each step divides by the number of samples so
far. In exact arithmetic the summary is that of the samples as a whole all the same
(`Summary.describes_ofList`), so an aggregate depends on the valid results only, in whatever order
they come and wherever degenerate ones stand between them. Rounding breaks this for the moments,
but not for the count and the extremes (`Summary.extremes_ofList_perm`). Both are told by
`aggregate_rearranged`.
-/

namespace Queueing

/-! ## The extremes -/

namespace Summary

variable {α : Type}

section

variable [Min α] [Max α]

/-- Extremes that are widened so that they enclose one more sample. -/
def widen (extremes : Option α × Option α) (y : α) : Option α × Option α :=
  (some (extremes.1.elim y fun m => Min.min m y), some (extremes.2.elim y fun m => Max.max m y))

/-- Extremes widen to the same for two samples in either order, if such samples can be swapped
among themselves and behind any other number. -/
theorem widen_widen_comm {x y : α} (hmin : Min.min x y = Min.min y x)
    (hmax : Max.max x y = Max.max y x)
    (hmins : ∀ m, Min.min (Min.min m x) y = Min.min (Min.min m y) x)
    (hmaxs : ∀ m, Max.max (Max.max m x) y = Max.max (Max.max m y) x)
    (extremes : Option α × Option α) :
    widen (widen extremes x) y = widen (widen extremes y) x := by
  obtain ⟨least, greatest⟩ := extremes
  refine Prod.ext ?_ ?_
  · cases least with
    | none => exact congrArg some hmin
    | some m => exact congrArg some (hmins m)
  · cases greatest with
    | none => exact congrArg some hmax
    | some m => exact congrArg some (hmaxs m)

end

def extremes (s : Summary α) : Option α × Option α := (s.min, s.max)

variable [Zero α] [NatCast α] [Add α] [Sub α] [Mul α] [Div α] [Min α] [Max α]

omit [Zero α] in
theorem extremes_add (y : α) (s : Summary α) : (s.add y).extremes = widen s.extremes y := by
  obtain ⟨count, least, greatest, m1, m2, m3, m4⟩ := s
  cases least <;> cases greatest <;> rfl

omit [Zero α] in
theorem extremes_extend (ys : List α) : ∀ s : Summary α,
    (s.extend ys).extremes = ys.foldl widen s.extremes := by
  induction ys with
  | nil => exact fun s => rfl
  | cons y ys ih =>
      intro s
      rw [extend_cons, ih, extremes_add, List.foldl_cons]

theorem extremes_ofList_perm {xs ys : List α} (h : xs.Perm ys)
    (hcomm : ∀ x ∈ xs, ∀ y ∈ xs, ∀ extremes : Option α × Option α,
      widen (widen extremes x) y = widen (widen extremes y) x) :
    (ofList xs).extremes = (ofList ys).extremes := by
  rw [ofList, ofList, extremes_extend, extremes_extend]
  exact h.foldl_eq' hcomm _

end Summary

/-! ## Exact arithmetic -/

section Exact

variable {K : Type} [Field K] [LinearOrder K] [IsStrictOrderedRing K]

/-- The arithmetic of an ordered field. What is no field operation is given. -/
abbrev exactArithmetic (sqrt threeHalves log : K → K) : Arithmetic K where
  sqrt := sqrt
  threeHalves := threeHalves
  decidableLE := inferInstance
  decidableLT := inferInstance
  isFinite _ := true
  compareTotal := compare
  log := log

namespace Summary

/-- **The summary of samples does not depend on their order.** -/
theorem ofList_perm {xs ys : List K} (h : xs.Perm ys) : ofList xs = ofList ys :=
  (describes_ofList xs).unique (describes_ofList ys) h

end Summary

end Exact

/-! ## Binary64 arithmetic -/

namespace Binary64

/-- A number above zero that is not infinite. -/
structure Positive (x : Binary64) : Prop where
  finite : x.isFinite = true
  pos : 0 < x

variable {x y : Binary64}

/-- The place of such a number on the number line is its pattern. -/
theorem Positive.position_eq (hx : x.Positive) : 0 < x.position ∧ x.position = x.bits.toNat := by
  have hpos := (lt_iff.mp hx.pos).2.2
  have hzero : (0 : Binary64).position = 0 := rfl
  have hlt := x.toNat_bits_lt
  rw [hzero, Binary64.position_eq] at hpos
  rw [Binary64.position_eq]
  split_ifs at hpos ⊢ <;> omega

theorem Positive.eq_of_position (hx : x.Positive) (hy : y.Positive)
    (h : x.position = y.position) : x = y := by
  rw [hx.position_eq.2, hy.position_eq.2] at h
  cases x
  cases y
  exact congrArg Binary64.mk (UInt64.toNat_inj.mp (Int.ofNat_inj.mp h))

theorem Positive.isNaN (hx : x.Positive) : x.isNaN = false :=
  isNaN_eq_false_of_isFinite hx.finite

theorem Positive.min_eq (hx : x.Positive) (m : Binary64) :
    min m x = if m.isNaN = false ∧ m.position < x.position then m else x := by
  show (if x.isNaN || decide (m < x) then m else x) = _
  simp only [hx.isNaN, Bool.false_or, decide_eq_true_eq, lt_iff, true_and]

theorem Positive.max_eq (hx : x.Positive) (m : Binary64) :
    max m x = if m.isNaN = false ∧ x.position < m.position then m else x := by
  show (if x.isNaN || decide (x < m) then m else x) = _
  simp only [hx.isNaN, Bool.false_or, decide_eq_true_eq, lt_iff, true_and]

theorem Positive.widen_widen (hx : x.Positive) (hy : y.Positive)
    (extremes : Option Binary64 × Option Binary64) :
    Summary.widen (Summary.widen extremes x) y = Summary.widen (Summary.widen extremes y) x := by
  have heq := hx.eq_of_position hy
  have hxn := hx.isNaN
  have hyn := hy.isNaN
  refine Summary.widen_widen_comm ?_ ?_ ?_ ?_ extremes
  · rw [hy.min_eq, hx.min_eq]
    grind
  · rw [hy.max_eq, hx.max_eq]
    grind
  · intro m
    rw [hy.min_eq, hx.min_eq, hx.min_eq, hy.min_eq]
    grind
  · intro m
    rw [hy.max_eq, hx.max_eq, hx.max_eq, hy.max_eq]
    grind

end Binary64

/-! ## Aggregates -/

/-- Results in another order, with degenerate ones put in or left out anywhere. -/
inductive Rearranged {α : Type} : List (TrialResult α) → List (TrialResult α) → Prop where
  | perm {results others : List (TrialResult α)} (h : results.Perm others) :
      Rearranged results others
  | insert (before after : List (TrialResult α)) :
      Rearranged (before ++ after) (before ++ .degenerate :: after)
  | remove (before after : List (TrialResult α)) :
      Rearranged (before ++ .degenerate :: after) (before ++ after)
  | trans {results others last : List (TrialResult α)} (h : Rearranged results others)
      (h' : Rearranged others last) : Rearranged results last

theorem Rearranged.values_perm {α : Type} {results others : List (TrialResult α)}
    (h : Rearranged results others) :
    (results.filterMap TrialResult.value?).Perm (others.filterMap TrialResult.value?) := by
  have hdegenerate : TrialResult.value? (.degenerate : TrialResult α) = none := rfl
  induction h with
  | perm h => exact h.filterMap _
  | insert before after =>
      rw [List.filterMap_append, List.filterMap_append, List.filterMap_cons_none hdegenerate]
  | remove before after =>
      rw [List.filterMap_append, List.filterMap_append, List.filterMap_cons_none hdegenerate]
  | trans _ _ ih ih' => exact ih.trans ih'

section

variable {α : Type} [Arithmetic α]

theorem extremes_of_aggregate {results : List (TrialResult α)} {a : Aggregate α}
    (h : aggregate results = .ok a) :
    (Summary.ofList (results.filterMap TrialResult.value?)).extremes =
      (some a.min, some a.max) := by
  have hread := readFrom_of_aggregate h
  rw [Summary.extremes, hread.min_eq, hread.max_eq]

theorem positive_of_mem_values {results : List (TrialResult Binary64)}
    (h : ∀ x, .mean x ∈ results → x.isFinite = true ∧ 0 < x) :
    ∀ x ∈ results.filterMap TrialResult.value?, x.Positive := by
  intro x hx
  obtain ⟨result, hresult, hvalue⟩ := List.mem_filterMap.mp hx
  cases result with
  | mean value =>
      cases hvalue
      obtain ⟨hfin, hpos⟩ := h x hresult
      exact ⟨hfin, hpos⟩
  | degenerate => cases hvalue

/-- Of rearranged results equally many are valid: both have an aggregate, of the same size, or
neither has. -/
theorem aggregate_cases_of_rearranged {results others : List (TrialResult α)}
    (h : Rearranged results others) :
    ((results.filterMap TrialResult.value?).length < requiredSamples ∧
      aggregate results = .error (.insufficientSamples
        (results.filterMap TrialResult.value?).length requiredSamples) ∧
      aggregate others = .error (.insufficientSamples
        (results.filterMap TrialResult.value?).length requiredSamples)) ∨
    (requiredSamples ≤ (results.filterMap TrialResult.value?).length ∧
      ∃ a b, aggregate results = .ok a ∧ aggregate others = .ok b ∧ a.n = b.n) := by
  have hvalid := h.values_perm.length_eq
  rcases aggregate_cases results with ⟨henough, a, ha, hn⟩ | ⟨hfew, herror⟩
  · rcases aggregate_cases others with ⟨-, b, hb, hn'⟩ | ⟨hfew', -⟩
    · exact Or.inr ⟨henough, a, b, ha, hb, by rw [hn, hn', hvalid]⟩
    · omega
  · rcases aggregate_cases others with ⟨henough', -⟩ | ⟨-, herror'⟩
    · omega
    · exact Or.inl ⟨hfew, herror, by rw [herror', hvalid]⟩

end

/-- **An aggregate does not depend on the order of results, nor on where degenerate ones stand.**
In exact arithmetic, with any square root, nothing of it does; in binary64 arithmetic the size
and the extremes do not, if the results are positive and finite. Fewer than two valid results are
the only reason for an error, which tells how many there are. -/
theorem aggregate_rearranged :
    (∀ (K : Type) [Field K] [LinearOrder K] [IsStrictOrderedRing K] (sqrt threeHalves log : K → K),
      letI := exactArithmetic sqrt threeHalves log
      ∀ results others : List (TrialResult K), Rearranged results others →
        let valid := (results.filterMap TrialResult.value?).length
        (valid < 2 ∧ aggregate results = .error (.insufficientSamples valid 2) ∧
          aggregate others = .error (.insufficientSamples valid 2)) ∨
        (2 ≤ valid ∧ ∃ a, aggregate results = .ok a ∧ aggregate others = .ok a)) ∧
    ∀ log threeHalves : Binary64 → Binary64,
      letI := Binary64.arithmetic log threeHalves
      ∀ results others : List (TrialResult Binary64), Rearranged results others →
        (∀ x, .mean x ∈ results → x.isFinite = true ∧ 0 < x) →
        let valid := (results.filterMap TrialResult.value?).length
        (valid < 2 ∧ aggregate results = .error (.insufficientSamples valid 2) ∧
          aggregate others = .error (.insufficientSamples valid 2)) ∨
        (2 ≤ valid ∧ ∃ a b, aggregate results = .ok a ∧ aggregate others = .ok b ∧
          a.n = b.n ∧ a.min = b.min ∧ a.max = b.max) := by
  refine ⟨?_, ?_⟩
  · intro K _ _ _ sqrt threeHalves log
    let _ := exactArithmetic sqrt threeHalves log
    intro results others h
    have hsummary : Summary.ofList (results.filterMap TrialResult.value?) =
        Summary.ofList (others.filterMap TrialResult.value?) := Summary.ofList_perm h.values_perm
    have hsame : aggregate others = aggregate results := by
      simp only [aggregate, hsummary]
    refine (aggregate_cases_of_rearranged h).imp_right ?_
    rintro ⟨henough, a, -, ha, -, -⟩
    exact ⟨henough, a, ha, hsame.trans ha⟩
  · intro log threeHalves
    let _ := Binary64.arithmetic log threeHalves
    intro results others h hpositive
    have hcomm := positive_of_mem_values hpositive
    have hextremes := Summary.extremes_ofList_perm h.values_perm
      fun x hx y hy => (hcomm x hx).widen_widen (hcomm y hy)
    refine (aggregate_cases_of_rearranged h).imp_right ?_
    rintro ⟨henough, a, b, ha, hb, hn⟩
    have hmin := (extremes_of_aggregate ha).symm.trans (hextremes.trans (extremes_of_aggregate hb))
    simp only [Prod.mk.injEq, Option.some.injEq] at hmin
    exact ⟨henough, a, b, ha, hb, hn, hmin⟩

/-- Two valid results, between which a degenerate one is left out before they are swapped. -/
theorem rearranged_pair {α : Type} (x y : α) :
    Rearranged [.mean x, .degenerate, .mean y] [.mean y, .mean x] :=
  .trans (.remove [.mean x] [.mean y]) (.perm (List.Perm.swap _ _ []))

theorem aggregate_rearranged_pair :
    (∃ a b, aggregate [.mean (1 : Binary64), .degenerate, .mean (2 : Nat)] = .ok a ∧
      aggregate [.mean ((2 : Nat) : Binary64), .mean 1] = .ok b ∧
      a.n = b.n ∧ a.min = b.min ∧ a.max = b.max) ∧
    letI := exactArithmetic (K := ℚ) id id id
    ∃ a, aggregate [.mean 9, .degenerate, .mean (11 : ℚ)] = .ok a ∧
      aggregate [.mean 11, .mean (9 : ℚ)] = .ok a := by
  refine ⟨?_, ?_⟩
  · have hpositive : ∀ x : Binary64, .mean x ∈
        [TrialResult.mean 1, .degenerate, .mean ((2 : Nat) : Binary64)] →
          x.isFinite = true ∧ 0 < x := by
      intro x hx
      simp only [List.mem_cons, TrialResult.mean.injEq, reduceCtorEq, List.not_mem_nil, or_false,
        false_or] at hx
      rcases hx with rfl | rfl <;> decide
    have hrounded := aggregate_rearranged.2 Binary64.log Binary64.threeHalves _ _
      (rearranged_pair 1 ((2 : Nat) : Binary64)) hpositive
    exact (hrounded.resolve_left fun h => absurd h.1 (by decide)).2
  · let _ := exactArithmetic (K := ℚ) id id id
    have hexact := aggregate_rearranged.1 ℚ id id id _ _ (rearranged_pair 9 11)
    exact (hexact.resolve_left fun h => absurd h.1 (by decide)).2

end Queueing
