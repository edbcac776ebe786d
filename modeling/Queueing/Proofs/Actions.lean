import Mathlib.Data.List.Forall2

/-!
# Actions that may fail

How the outcome of an action tells the outcomes of its parts: of one action after another, and
of an action on every element of a list.
-/

namespace Queueing

variable {β γ ε : Type}

theorem exists_ok_of_toOption {r : Except ε β} {f : β → γ} {y : γ}
    (h : r.toOption.map f = some y) : ∃ x, r = .ok x ∧ f x = y := by
  cases r with
  | error cause => cases h
  | ok x => exact ⟨x, rfl, Option.some.inj h⟩

theorem toOption_eq_some_iff {r : Except ε β} {x : β} : r.toOption = some x ↔ r = .ok x := by
  cases r with
  | error cause =>
      constructor
      · intro h
        cases h
      · intro h
        cases h
  | ok y =>
      constructor
      · exact fun h => congrArg Except.ok (Option.some.inj h)
      · exact fun h => congrArg some (Except.ok.inj h)

theorem bind_eq_ok_iff {r : Except ε β} {f : β → Except ε γ} {y : γ} :
    r >>= f = .ok y ↔ ∃ x, r = .ok x ∧ f x = .ok y := by
  cases r with
  | error cause =>
      constructor
      · intro h
        cases h
      · rintro ⟨x, h, -⟩
        cases h
  | ok x =>
      constructor
      · exact fun h => ⟨x, rfl, h⟩
      · rintro ⟨x', h, hf⟩
        cases h
        exact hf

theorem bind_eq_error_iff {r : Except ε β} {f : β → Except ε γ} {cause : ε} :
    r >>= f = .error cause ↔ r = .error cause ∨ ∃ x, r = .ok x ∧ f x = .error cause := by
  cases r with
  | error first =>
      constructor
      · intro h
        cases h
        exact Or.inl rfl
      · rintro (h | ⟨x, h, -⟩)
        · cases h
          rfl
        · cases h
  | ok x =>
      constructor
      · exact fun h => Or.inr ⟨x, rfl, h⟩
      · rintro (h | ⟨x', h, hf⟩)
        · cases h
        · cases h
          exact hf

variable {f : β → Except ε γ}

/-- An action on a list succeeds when it succeeds on every element. -/
theorem mapM_eq_ok_iff {xs : List β} : ∀ {ys : List γ},
    xs.mapM f = .ok ys ↔ List.Forall₂ (fun x y => f x = .ok y) xs ys := by
  induction xs with
  | nil =>
      intro ys
      rw [List.mapM_nil, List.forall₂_nil_left_iff]
      exact ⟨fun h => (Except.ok.inj h).symm, fun h => h ▸ rfl⟩
  | cons x xs ih =>
      intro ys
      rw [List.mapM_cons, List.forall₂_cons_left_iff, bind_eq_ok_iff]
      constructor
      · rintro ⟨y, hy, hrest⟩
        obtain ⟨rest, hxs, hys⟩ := bind_eq_ok_iff.mp hrest
        cases hys
        exact ⟨y, rest, hy, ih.mp hxs, rfl⟩
      · rintro ⟨y, rest, hy, hxs, rfl⟩
        exact ⟨y, hy, bind_eq_ok_iff.mpr ⟨rest, ih.mpr hxs, rfl⟩⟩

/-- An action on a list fails where it fails on an element. -/
theorem exists_of_mapM_error {xs : List β} {cause : ε} (h : xs.mapM f = .error cause) :
    ∃ x ∈ xs, f x = .error cause := by
  induction xs with
  | nil => cases h
  | cons x xs ih =>
      rw [List.mapM_cons] at h
      rcases bind_eq_error_iff.mp h with hx | ⟨y, -, hrest⟩
      · exact ⟨x, List.mem_cons_self, hx⟩
      rcases bind_eq_error_iff.mp hrest with hxs | ⟨rest, -, hpure⟩
      · obtain ⟨x', hmem, hx'⟩ := ih hxs
        exact ⟨x', List.mem_cons_of_mem _ hmem, hx'⟩
      · cases hpure

theorem toOption_mapM (xs : List β) :
    (xs.mapM f).toOption = xs.mapM fun x => (f x).toOption := by
  induction xs with
  | nil => rfl
  | cons x xs ih =>
      rw [List.mapM_cons, List.mapM_cons, ← ih]
      cases f x with
      | error cause => rfl
      | ok y => cases xs.mapM f <;> rfl

theorem mapM_congr {f g : β → Option γ} {xs : List β} (h : ∀ x ∈ xs, f x = g x) :
    xs.mapM f = xs.mapM g := by
  induction xs with
  | nil => rfl
  | cons x xs ih =>
      rw [List.mapM_cons, List.mapM_cons, h x List.mem_cons_self,
        ih fun y hy => h y (List.mem_cons_of_mem _ hy)]

theorem mapM_map_option {δ : Type} (f : β → Option γ) (g : γ → δ) (xs : List β) :
    (xs.mapM fun x => (f x).map g) = (xs.mapM f).map (List.map g) := by
  induction xs with
  | nil => rfl
  | cons x xs ih =>
      rw [List.mapM_cons, List.mapM_cons, ih]
      cases f x with
      | none => rfl
      | some y => cases xs.mapM f <;> rfl

theorem mapM_of_mapM_eq_some {f : β → Option γ} {g : γ → Option γ} {xs : List β}
    (h : ∀ x ∈ xs, ∀ y, f x = some y → g y = some y) {ys : List γ} (hys : xs.mapM f = some ys) :
    ys.mapM g = some ys := by
  induction xs generalizing ys with
  | nil =>
      cases hys
      rfl
  | cons x xs ih =>
      rw [List.mapM_cons] at hys
      obtain ⟨y, hy, hrest⟩ := Option.bind_eq_some_iff.mp hys
      obtain ⟨rest, hxs, hpure⟩ := Option.bind_eq_some_iff.mp hrest
      cases hpure
      rw [List.mapM_cons, h x List.mem_cons_self y hy,
        ih (fun x' hx' => h x' (List.mem_cons_of_mem _ hx')) hxs]
      rfl

theorem mapM_eq_some_self_iff {f : β → Option β} {xs : List β} :
    xs.mapM f = some xs ↔ ∀ x ∈ xs, f x = some x := by
  induction xs with
  | nil => simp
  | cons x xs ih => simp [List.mapM_cons, Option.bind_eq_some_iff, ih]

end Queueing
