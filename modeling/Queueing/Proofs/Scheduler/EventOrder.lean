import Queueing.Proofs.Scheduler.Orderly

/-!
# The order of events

Events may bear any time, a NaN or a zero of either sign too, and are compared all the same: the
order of events is total, it equates events that share the pattern of their time and their number
and no others, and it never contradicts the numeric order of times. Sorted events are therefore
chronological, with the NaNs at both ends (`chronological_of_sorted`), and the sort of the program
leaves events that coincide in their places (`compare_lawful`).
-/

namespace Queueing.Event

/-! ## Sorting -/

section Lawful

variable {α : Type} [Arithmetic α] [LawfulTime α]

theorem not_precedes_iff {a b : Event α} :
    (!b.precedes a) = true ↔ (a.compare b).isLE = true := by
  rw [precedes, show b.compare a = (a.compare b).swap from Std.OrientedCmp.eq_swap]
  cases a.compare b <;> decide

theorem isLE_trans {a b c : Event α} (hab : (a.compare b).isLE = true)
    (hbc : (b.compare c).isLE = true) : (a.compare c).isLE = true :=
  Std.TransCmp.isLE_trans hab hbc

theorem isLE_total (a b : Event α) : (a.compare b).isLE = true ∨ (b.compare a).isLE = true := by
  by_cases h : (a.compare b).isLE = true
  · exact Or.inl h
  · exact Or.inr (by rw [Std.OrientedCmp.lt_of_not_isLE h]; rfl)

omit [LawfulTime α] in
theorem sort_perm (es : List (Event α)) : (sort es).Perm es := List.mergeSort_perm _ _

theorem not_precedes_trans (a b c : Event α) (hab : (!b.precedes a) = true)
    (hbc : (!c.precedes b) = true) : (!c.precedes a) = true := by
  rw [not_precedes_iff] at *
  exact isLE_trans hab hbc

theorem not_precedes_total (a b : Event α) : ((!b.precedes a) || !a.precedes b) = true := by
  rw [Bool.or_eq_true, not_precedes_iff, not_precedes_iff]
  exact isLE_total a b

theorem sort_sorted (es : List (Event α)) :
    (sort es).Pairwise fun a b => (a.compare b).isLE = true :=
  (List.pairwise_mergeSort not_precedes_trans not_precedes_total es).imp not_precedes_iff.mp

theorem isLE_of_coincides {key a b : Event α} (ha : key.coincides a = true)
    (hb : key.coincides b = true) : (a.compare b).isLE = true := by
  rw [coincides, beq_iff_eq] at ha hb
  refine isLE_trans (b := key) ?_ (by rw [hb]; rfl)
  rw [show a.compare key = (key.compare a).swap from Std.OrientedCmp.eq_swap, ha]
  rfl

/-- **Events that coincide keep their places.** They are sorted already, so the sort has them as a
part in the same order, and it has no others. -/
theorem sort_stable (key : Event α) (es : List (Event α)) :
    (sort es).filter key.coincides = es.filter key.coincides := by
  have hsorted : (es.filter key.coincides).Pairwise fun a b => (!b.precedes a) = true := by
    refine List.pairwise_of_forall_mem_list fun a ha b hb => not_precedes_iff.mpr ?_
    exact isLE_of_coincides (List.mem_filter.mp ha).2 (List.mem_filter.mp hb).2
  have hpart := (List.sublist_mergeSort not_precedes_trans not_precedes_total hsorted
    List.filter_sublist).filter key.coincides
  rw [List.filter_filter, funext fun e => Bool.and_self (key.coincides e)] at hpart
  exact (hpart.eq_of_length ((sort_perm es).filter key.coincides).length_eq.symm).symm

end Lawful

/-! ## Events at binary64 times -/

theorem compare_eq_iff {a b : Event Binary64} :
    a.compare b = .eq ↔ a.time.bits = b.time.bits ∧ a.seq = b.seq := by
  rw [Event.compare, Ordering.then_eq_eq, Nat.compare_eq_eq]
  refine and_congr_left fun _ => ?_
  constructor
  · intro h
    have htime : a.time.compareTotal b.time = .eq := h
    exact congrArg Binary64.bits (Std.LawfulEqCmp.eq_of_compare htime)
  · intro h
    have htime : a.time = b.time := congrArg Binary64.mk h
    rw [htime]
    show b.time.compareTotal b.time = .eq
    exact Std.ReflCmp.compare_self

theorem precedes_of_time_lt {a b : Event Binary64} (h : a.time < b.time) :
    a.precedes b = true := by
  rw [precedes, Event.compare,
    show Arithmetic.compareTotal a.time b.time = .lt from Binary64.compareTotal_of_lt h]
  rfl

theorem rank_le_of_isLE {a b : Event Binary64} (h : (a.compare b).isLE = true) :
    a.time.rank.toNat ≤ b.time.rank.toNat := by
  refine Binary64.isLE_compareTotal_iff.mp ?_
  rw [Event.compare, Ordering.isLE_then_iff_or] at h
  rcases h with h | ⟨h, -⟩
  · exact (congrArg Ordering.isLE h).trans rfl
  · exact (congrArg Ordering.isLE h).trans rfl

/-- Events at negative NaNs, then those at numbers, whose times do not decrease, and then those at
positive NaNs. -/
def Chronological (es : List (Event Binary64)) : Prop :=
  ∃ before timed after, es = before ++ (timed ++ after) ∧
    (∀ e ∈ before, e.time.isNaN = true ∧ e.time.isNegative = true) ∧
    (∀ e ∈ timed, e.time.isNaN = false) ∧ timed.Pairwise (fun a b => a.time ≤ b.time) ∧
    ∀ e ∈ after, e.time.isNaN = true ∧ e.time.isNegative = false

/-- **Sorted events are chronological**, however they were sorted. -/
theorem chronological_of_sorted {es : List (Event Binary64)}
    (h : es.Pairwise fun a b => (a.compare b).isLE = true) : Chronological es := by
  induction es with
  | nil => exact ⟨[], [], [], rfl, by simp, by simp, .nil, by simp⟩
  | cons e es ih =>
      obtain ⟨hfirst, hrest⟩ := List.pairwise_cons.mp h
      have hrank : ∀ x ∈ es, e.time.rank.toNat ≤ x.time.rank.toNat :=
        fun x hx => rank_le_of_isLE (hfirst x hx)
      obtain ⟨before, timed, after, rfl, hbefore, htimed, hpairs, hafter⟩ := ih hrest
      by_cases hlow : e.time.isNaN = true ∧ e.time.isNegative = true
      · exact ⟨e :: before, timed, after, rfl, List.forall_mem_cons.mpr ⟨hlow, hbefore⟩, htimed,
          hpairs, hafter⟩
      -- nothing stands after `e` that must stand before it
      have hnone : before = [] := List.eq_nil_iff_forall_not_mem.mpr fun x hx => by
        obtain ⟨hnan, hneg⟩ := hbefore x hx
        exact hlow (Binary64.negativeNaN_of_rank_le
          (hrank x (List.mem_append_left _ hx)) hnan hneg)
      subst hnone
      cases hnan : e.time.isNaN with
      | false =>
        refine ⟨[], e :: timed, after, rfl, by simp, List.forall_mem_cons.mpr ⟨hnan, htimed⟩,
          List.pairwise_cons.mpr ⟨fun x hx => ?_, hpairs⟩, hafter⟩
        exact Binary64.le_of_rank_le hnan (htimed x hx)
          (hrank x (List.mem_append_right _ (List.mem_append_left _ hx)))
      | true =>
        have hpos : e.time.isNegative = false := by
          rw [← Bool.not_eq_true]
          exact fun hneg => hlow ⟨hnan, hneg⟩
        have hempty : timed = [] := List.eq_nil_iff_forall_not_mem.mpr fun x hx => by
          have hx' := Binary64.positiveNaN_of_rank_le
            (hrank x (List.mem_append_right _ (List.mem_append_left _ hx))) hnan hpos
          exact Bool.false_ne_true ((htimed x hx).symm.trans hx'.1)
        subst hempty
        exact ⟨[], [], e :: after, rfl, by simp, by simp, .nil,
          List.forall_mem_cons.mpr ⟨⟨hnan, hpos⟩, hafter⟩⟩

/-! ## The laws of the order -/

/-- **The order of events is a lawful total order**, whatever the patterns of their times and
whatever their agents: events are equated just when the patterns and the numbers are the same, an
event at a numerically lesser time comes first, events that are sorted by it in any way are
chronological, and the sort of the program leaves events that coincide in their places. -/
theorem compare_lawful (a b c : Event Binary64) (es : List (Event Binary64)) :
    a.compare a = .eq ∧
      b.compare a = (a.compare b).swap ∧
      ((a.compare b).isLE = true → (b.compare a).isLE = true →
        a.time.bits = b.time.bits ∧ a.seq = b.seq) ∧
      ((a.compare b).isLE = true → (b.compare c).isLE = true → (a.compare c).isLE = true) ∧
      ((a.compare b).isLE = true ∨ (b.compare a).isLE = true) ∧
      (a.coincides b = true ↔ a.compare b = .eq) ∧
      (a.compare b = .eq ↔ a.time.bits = b.time.bits ∧ a.seq = b.seq) ∧
      a.comparePartial b = some (a.compare b) ∧
      (a.precedes b = true ↔ a.comparePartial b = some .lt) ∧
      (a.time < b.time → a.precedes b = true) ∧
      (∀ sorted : List (Event Binary64), sorted.Perm es →
        sorted.Pairwise (fun x y => (x.compare y).isLE = true) → Chronological sorted) ∧
      (sort es).Perm es ∧
      (sort es).Pairwise (fun x y => (x.compare y).isLE = true) ∧
      ∀ key : Event Binary64, (sort es).filter key.coincides = es.filter key.coincides := by
  refine ⟨Std.ReflCmp.compare_self, Std.OrientedCmp.eq_swap, fun hab hba => ?_, isLE_trans,
    isLE_total a b, beq_iff_eq, compare_eq_iff, rfl, ?_, precedes_of_time_lt,
    fun sorted _ => chronological_of_sorted, sort_perm es, sort_sorted es,
    fun key => sort_stable key es⟩
  · exact compare_eq_iff.mp (Std.OrientedCmp.isLE_antisymm hab hba)
  · rw [precedes, comparePartial, beq_iff_eq, Option.some.injEq]

theorem compare_lawful_signs :
    letI low : Event Binary64 := ⟨⟨0xFFF8000000000000⟩, 9, ⟨0⟩⟩
    letI a : Event Binary64 := ⟨Binary64.negativeZero, 3, ⟨1⟩⟩
    letI b : Event Binary64 := ⟨1, 0, ⟨1⟩⟩
    letI twin : Event Binary64 := ⟨1, 0, ⟨2⟩⟩
    letI high : Event Binary64 := ⟨Binary64.nan, 0, ⟨0⟩⟩
    (low.compare b).isLE = true ∧ a.precedes b = true ∧ b.time.bits = twin.time.bits ∧
      Chronological [low, a, b, twin, high] := by
  let low : Event Binary64 := ⟨⟨0xFFF8000000000000⟩, 9, ⟨0⟩⟩
  let a : Event Binary64 := ⟨Binary64.negativeZero, 3, ⟨1⟩⟩
  let b : Event Binary64 := ⟨1, 0, ⟨1⟩⟩
  let twin : Event Binary64 := ⟨1, 0, ⟨2⟩⟩
  let high : Event Binary64 := ⟨Binary64.nan, 0, ⟨0⟩⟩
  obtain ⟨-, -, -, htrans, -⟩ := compare_lawful low a b []
  obtain ⟨-, -, -, -, -, -, -, -, -, htime, hsorted, -⟩ :=
    compare_lawful a b b [high, twin, b, a, low]
  obtain ⟨-, -, hantisymm, -⟩ := compare_lawful b twin b []
  exact ⟨htrans (by decide) (by decide), htime (by decide),
    (hantisymm (by decide) (by decide)).1,
    hsorted [low, a, b, twin, high] (by decide) (by decide)⟩

end Queueing.Event
