import Queueing.Proofs.Trial.Outcome

/-!
# What all times of a recursion have in common

A time of the recursion is zero, or the sum of a wait and the later of two other times. So what
zero has, and what the later of two times and a wait keep, all times have (`times_induction`).
In particular they are times or the overflow, so they are times in a trial that does not
overflow, and there nobody leaves before arriving (`Waits.isTime`, `Waits.arrival_le`).
-/

namespace Queueing

variable {α : Type} [Arithmetic α]

theorem IsTime.max_cases [LawfulTime α] {t u : α} (ht : IsTime t) (hu : IsTime u) :
    t ≤ u ∧ max t u = u ∨ u ≤ t ∧ max t u = t := by
  by_cases hle : (Arithmetic.compareTotal t u).isLE = true
  · have h := (ht.isLE_compareTotal_iff hu).mp hle
    exact Or.inl ⟨h, LawfulTime.max_of_le h⟩
  · have hge : (Arithmetic.compareTotal u t).isLE = true := by
      rw [Std.OrientedCmp.lt_of_not_isLE hle]
      rfl
    have h := (hu.isLE_compareTotal_iff ht).mp hge
    exact Or.inr ⟨h, LawfulTime.max_of_ge ht.nonneg hu.nonneg h⟩

namespace TrialConfig

variable {top : α} {c : TrialConfig α}

/-- **What a wait and the later of two times keep, all times have.** -/
theorem times_induction {P W : α → Prop} (zero : P 0) (later : ∀ {t u}, P t → P u → P (max t u))
    (wait : ∀ {t x}, P t → W x → P (t + x)) (interarrival : ∀ i, W (c.interarrival i))
    (serviceTime : ∀ i, W (c.serviceTime i)) (i : Nat) : P (c.arrival i) ∧ P (c.departure i) := by
  induction i with
  | zero => exact ⟨zero, zero⟩
  | succ i ih =>
      have harrival : P (c.arrival (i + 1)) := wait ih.1 (interarrival i)
      exact ⟨harrival, wait (later harrival ih.2) (serviceTime i)⟩

theorem waits_of_validate (c : TrialConfig Binary64) {log : Binary64 → Binary64}
    (threeHalves : Binary64 → Binary64) (hlog : Binary64.LawfulLog log) :
    letI := Binary64.arithmetic log threeHalves
    c.validate = .ok () → c.Waits Binary64.infinity := by
  let _ := Binary64.arithmetic log threeHalves
  intro hvalidate
  obtain ⟨-, harrivals, hservice⟩ := TrialConfig.validate_eq_ok hvalidate
  constructor
  · intro i
    exact Xorshift.isWait_draw threeHalves hlog harrivals _
  · intro i
    exact Xorshift.isWait_draw threeHalves hlog hservice _

theorem isTime_or_top_of_wait [LawfulTime α] (htop : IsOverflow top) {t x : α} (ht : IsTime t)
    (hx : IsWait top x) : IsTime (t + x) ∧ t ≤ t + x ∨ t + x = top := by
  rcases hx.finite_or_eq with hfin | rfl
  · by_cases hsum : Arithmetic.isFinite (t + x) = true
    · exact Or.inl (ht.add hfin hx.nonneg hsum)
    · exact Or.inr (htop.eq_of_add ht.finite hfin ht.zero_le hx.nonneg (Bool.eq_false_iff.mpr hsum))
  · exact Or.inr (htop.add_top ht.finite)

theorem Waits.isTime_or_top [LawfulTime α] (htop : IsOverflow top) (h : c.Waits top) (i : Nat) :
    (IsTime (c.arrival i) ∨ c.arrival i = top) ∧ (IsTime (c.departure i) ∨ c.departure i = top) := by
  refine times_induction (P := fun t => IsTime t ∨ t = top) (Or.inl .zero) ?_ ?_ h.interarrival
    h.serviceTime i
  · rintro t u (ht | rfl) (hu | rfl)
    · rcases ht.max_cases hu with ⟨-, heq⟩ | ⟨-, heq⟩
      · rw [heq]
        exact Or.inl hu
      · rw [heq]
        exact Or.inl ht
    · exact Or.inr (htop.max_top _)
    · exact Or.inr (htop.top_max _)
    · exact Or.inr (htop.top_max _)
  · rintro t x (ht | rfl) hx
    · exact (isTime_or_top_of_wait htop ht hx).imp_left And.left
    · exact Or.inr (htop.top_add hx.finite_or_eq)

theorem Waits.isTime [LawfulTime α] (htop : IsOverflow top) (h : c.Waits top)
    (hover : ¬ c.Overflows top) {i : Nat} (hi : i ≤ c.customers.toNat) :
    IsTime (c.arrival i) ∧ IsTime (c.departure i) := by
  obtain ⟨harrival, hdeparture⟩ := h.isTime_or_top htop i
  refine ⟨harrival.resolve_right ?_, hdeparture.resolve_right ?_⟩
  · exact fun heq => hover ⟨i, hi, Or.inl heq⟩
  · exact fun heq => hover ⟨i, hi, Or.inr heq⟩

variable (c) in
def start (i : Nat) : α := max (c.arrival (i + 1)) (c.departure i)

/-- **Service begins when the customer has arrived and its predecessor has left**, and ends no
earlier than it begins. -/
theorem Waits.start_between [LawfulTime α] (htop : IsOverflow top) (h : c.Waits top)
    (hover : ¬ c.Overflows top) {i : Nat} (hi : i < c.customers.toNat) :
    c.arrival (i + 1) ≤ c.start i ∧ c.departure i ≤ c.start i ∧
      c.start i ≤ c.departure (i + 1) := by
  have harrival := (h.isTime htop hover (Nat.succ_le_of_lt hi)).1
  have hbefore := (h.isTime htop hover hi.le).2
  have hwait : IsTime (c.start i) → c.start i ≤ c.departure (i + 1) := by
    intro ht
    rcases isTime_or_top_of_wait htop ht (h.serviceTime i) with ⟨-, hle⟩ | htopped
    · exact hle
    · exact absurd ⟨i + 1, hi, Or.inr htopped⟩ hover
  rcases harrival.max_cases hbefore with ⟨hle, heq⟩ | ⟨hge, heq⟩
  · have hstart : c.start i = c.departure i := heq
    rw [hstart] at hwait ⊢
    exact ⟨hle, hbefore.le_refl, hwait hbefore⟩
  · have hstart : c.start i = c.arrival (i + 1) := heq
    rw [hstart] at hwait ⊢
    exact ⟨harrival.le_refl, hge, hwait harrival⟩

theorem Waits.arrival_le [LawfulTime α] (htop : IsOverflow top) (h : c.Waits top)
    (hover : ¬ c.Overflows top) {i : Nat} (hi : i < c.customers.toNat) :
    c.arrival (i + 1) ≤ c.departure (i + 1) := by
  obtain ⟨harrival, -, hdeparture⟩ := h.start_between htop hover hi
  exact LawfulTime.le_trans harrival hdeparture

end TrialConfig

end Queueing
