import Queueing.Statistics.Summary

/-!
# What a summary holds

A summary knows how many samples it has taken in, and has extremes as soon as there is one. A
mean can be read from one sample on, a deviation from two on.
-/

namespace Queueing.Summary

variable {α : Type}

section Building

variable [Zero α] [NatCast α] [Add α] [Sub α] [Mul α] [Div α] [Min α] [Max α]

omit [Zero α] in
theorem extend_cons (y : α) (ys : List α) (s : Summary α) :
    s.extend (y :: ys) = (s.add y).extend ys := rfl

omit [Zero α] in
theorem count_extend (ys : List α) : ∀ s : Summary α,
    (s.extend ys).count = s.count + ys.length := by
  induction ys with
  | nil => exact fun s => rfl
  | cons y ys ih =>
      intro s
      rw [extend_cons, ih, List.length_cons]
      show s.count + 1 + ys.length = _
      omega

theorem count_ofList (ys : List α) : (ofList ys).count = ys.length := by
  rw [ofList, count_extend]
  exact Nat.zero_add _

omit [Zero α] in
theorem exists_extremes_extend (ys : List α) : ∀ {s : Summary α},
    (∃ least greatest, s.min = some least ∧ s.max = some greatest) →
      ∃ least greatest, (s.extend ys).min = some least ∧ (s.extend ys).max = some greatest := by
  induction ys with
  | nil => exact fun h => h
  | cons y ys ih =>
      intro s _
      rw [extend_cons]
      exact ih ⟨_, _, rfl, rfl⟩

theorem exists_extremes {ys : List α} (h : ys ≠ []) :
    ∃ least greatest, (ofList ys).min = some least ∧ (ofList ys).max = some greatest := by
  cases ys with
  | nil => exact absurd rfl h
  | cons y ys =>
      rw [ofList, extend_cons]
      exact exists_extremes_extend ys ⟨_, _, rfl, rfl⟩

end Building

section Reading

variable [NatCast α] [Div α] [Roots α]

theorem stdDev?_of_lt {s : Summary α} (h : 1 < s.count) : ∃ stdDev, s.stdDev? = some stdDev := by
  rw [stdDev?, variance?, if_pos h]
  exact ⟨_, rfl⟩

theorem stdDev?_of_not_lt {s : Summary α} (h : ¬ 1 < s.count) : s.stdDev? = none := by
  rw [stdDev?, variance?, if_neg h]
  rfl

end Reading

end Queueing.Summary
