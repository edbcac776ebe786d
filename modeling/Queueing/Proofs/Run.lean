import Queueing.Proofs.Actions
import Queueing.Simulation.Run

/-!
# Runs as sequences of steps

A bounded run is a sequence of steps that stops where the system rests, fails, or has used
up its bound (`Run.go_ended`). A bound is enough when every step consumes some of a measure
that it exceeds (`Run.of_finished`), and then the run ends where its steps end.
-/

namespace Queueing

variable {α σ ε : Type} {step : σ → Step α σ ε}

/-- The steps from a state to another, with the events they dispatched. -/
inductive Steps (step : σ → Step α σ ε) : σ → List (Event α) → σ → Prop where
  | refl {s : σ} : Steps step s [] s
  | head {s t u : σ} {e : Event α} {es : List (Event α)} (h : step s = .moved e t)
      (rest : Steps step t es u) : Steps step s (e :: es) u

namespace Steps

/-- What every step keeps, every sequence of steps keeps. -/
theorem preserves {P : σ → Prop} (hP : ∀ {s e t}, P s → step s = .moved e t → P t)
    {s t : σ} {es : List (Event α)} (h : Steps step s es t) (hs : P s) : P t := by
  induction h with
  | refl => exact hs
  | head hstep _ ih => exact ih (hP hs hstep)

end Steps

namespace Run

/-- How a run of at most `bound` events from `s` after the events in `trace` may end. -/
inductive Ended (step : σ → Step α σ ε) (bound : Nat) (trace : List (Event α)) (s : σ) :
    Run α σ ε → Prop where
  | rested {t : σ} {es : List (Event α)} (steps : Steps step s es t) (h : step t = .rest) :
      Ended step bound trace s ⟨t, es.reverse ++ trace, .rested⟩
  | failed {t u : σ} {es : List (Event α)} {e : Option (Event α)} {cause : ε}
      (steps : Steps step s es t) (h : step t = .failed e cause u) :
      Ended step bound trace s ⟨u, e.toList ++ (es.reverse ++ trace), .failed cause⟩
  | unfinished {t u : σ} {es : List (Event α)} {e : Event α} (steps : Steps step s es t)
      (h : step t = .moved e u) (hbound : es.length = bound) :
      Ended step bound trace s ⟨t, es.reverse ++ trace, .unfinished⟩

theorem Ended.head {bound : Nat} {trace : List (Event α)} {s t : σ} {e : Event α}
    (hstep : step s = .moved e t) {r : Run α σ ε} (h : Ended step bound (e :: trace) t r) :
    Ended step (bound + 1) trace s r := by
  have happ : ∀ es : List (Event α), es.reverse ++ e :: trace = (e :: es).reverse ++ trace := by
    simp
  cases h with
  | rested steps h =>
      rw [happ]
      exact .rested (.head hstep steps) h
  | failed steps h =>
      rw [happ]
      exact .failed (.head hstep steps) h
  | unfinished steps h hbound =>
      rw [happ]
      exact .unfinished (.head hstep steps) h (congrArg Nat.succ hbound)

variable (step) in
/-- **A run is a sequence of steps**, and ends for one of three reasons. -/
theorem go_ended (bound : Nat) : ∀ (trace : List (Event α)) (s : σ),
    Ended step bound trace s (Run.go step bound trace s) := by
  induction bound with
  | zero =>
      intro trace s
      rw [go]
      cases h : step s with
      | rest => exact .rested .refl h
      | moved e t => exact .unfinished .refl h rfl
      | failed e cause u => exact .failed .refl h
  | succ bound ih =>
      intro trace s
      rw [go]
      cases h : step s with
      | rest => exact .rested .refl h
      | moved e t => exact (ih (e :: trace) t).head h
      | failed e cause u => exact .failed .refl h

theorem steps_of_go {bound : Nat} {trace : List (Event α)} {s : σ}
    (h : ∀ cause, (Run.go step bound trace s).ending ≠ .failed cause) :
    ∃ es, Steps step s es (Run.go step bound trace s).state := by
  have hended := go_ended step bound trace s
  generalize Run.go step bound trace s = r at h hended ⊢
  cases hended with
  | rested steps _ => exact ⟨_, steps⟩
  | unfinished steps _ _ => exact ⟨_, steps⟩
  | failed _ _ => exact absurd rfl (h _)

theorem failed_of_go {P : σ → Prop} (hP : ∀ {s e t}, P s → step s = .moved e t → P t)
    {bound : Nat} {trace : List (Event α)} {s : σ} {cause : ε} (hs : P s)
    (hend : (Run.go step bound trace s).ending = .failed cause) :
    ∃ t e u, P t ∧ step t = .failed e cause u := by
  have hended := go_ended step bound trace s
  generalize Run.go step bound trace s = r at hend hended
  cases hended with
  | rested _ _ => cases hend
  | unfinished _ _ _ => cases hend
  | failed steps hstep =>
      cases hend
      exact ⟨_, _, _, steps.preserves hP hs, hstep⟩

/-- The states in which a run of at most `bound` events dispatches, with these events. -/
def visits (step : σ → Step α σ ε) : Nat → σ → List (σ × Event α)
  | 0, _ => []
  | bound + 1, s =>
    match step s with
    | .moved e t => (s, e) :: visits step bound t
    | .rest | .failed _ _ _ => []

/-- **What is gathered along a run.** What holds of a state and of the list of what the events
before it brought about, and is kept by every step, holds where a run rests. -/
theorem go_gathered {γ : Type} {P : List γ → σ → Prop} {pick : σ → Event α → Option γ}
    (hP : ∀ {xs s e t}, P xs s → step s = .moved e t → P (xs ++ (pick s e).toList) t) :
    ∀ {bound : Nat} {trace : List (Event α)} {xs : List γ} {s : σ}, P xs s →
      (Run.go step bound trace s).ending = .rested →
        P (xs ++ (visits step bound s).filterMap fun x => pick x.1 x.2)
            (Run.go step bound trace s).state ∧
          step (Run.go step bound trace s).state = .rest := by
  intro bound
  -- the trace of the run does not matter, and what was gathered before stands in front
  induction bound with
  | zero =>
      intro trace xs s hs hrest
      rw [go] at hrest ⊢
      cases hstep : step s with
      | rest => exact ⟨by rwa [visits, List.filterMap_nil, List.append_nil], hstep⟩
      | moved e t =>
          rw [hstep] at hrest
          cases hrest
      | failed e cause t =>
          rw [hstep] at hrest
          cases hrest
  | succ bound ih =>
      intro trace xs s hs hrest
      rw [go] at hrest ⊢
      rw [visits]
      cases hstep : step s with
      | rest => exact ⟨by rwa [List.filterMap_nil, List.append_nil], hstep⟩
      | failed e cause t =>
          rw [hstep] at hrest
          cases hrest
      | moved e t =>
          rw [hstep] at hrest
          have hsplit : xs ++ ((s, e) :: visits step bound t).filterMap (fun x => pick x.1 x.2) =
              (xs ++ (pick s e).toList) ++
                (visits step bound t).filterMap fun x => pick x.1 x.2 := by
            rw [List.filterMap_cons, List.append_assoc]
            cases pick s e <;> rfl
          rw [hsplit]
          exact ih (hP hs hstep) hrest

theorem length_le_of_steps {P : σ → Prop} {w : σ → Nat}
    (hP : ∀ {s e t}, P s → step s = .moved e t → P t ∧ w t < w s) {s t : σ}
    {es : List (Event α)} (h : Steps step s es t) (hs : P s) : es.length + w t ≤ w s := by
  induction h with
  | refl => exact Nat.le_of_eq (Nat.zero_add _)
  | head hstep _ ih =>
      obtain ⟨ht, hlt⟩ := hP hs hstep
      have := ih ht
      rw [List.length_cons]
      omega

/-- **A bound is enough when every step lowers a measure that starts within it.** -/
theorem of_finished {P : σ → Prop} {w : σ → Nat}
    (hP : ∀ {s e t}, P s → step s = .moved e t → P t ∧ w t < w s) {bound : Nat} {s : σ}
    (hs : P s) (hbound : w s ≤ bound) : (Run.of step bound s).ending ≠ .unfinished := by
  have h := go_ended step bound [] s
  rw [of]
  generalize hr : go step bound [] s = r at h ⊢
  cases h with
  | rested =>
      intro hend
      cases hend
  | failed =>
      intro hend
      cases hend
  | unfinished steps h hlen =>
      -- one more step would lower the measure once more, and there is nothing left of it
      have ht := steps.preserves (fun hs hstep => (hP hs hstep).1) hs
      have := length_le_of_steps hP steps hs
      have := (hP ht h).2
      omega

/-- A run dispatches no more events than it has of the measure, and one that fails counts the
event at which it does. -/
theorem length_trace_le {P : σ → Prop} {w : σ → Nat}
    (hP : ∀ {s e t}, P s → step s = .moved e t → P t ∧ w t < w s)
    (hfailed : ∀ {s e cause t}, P s → step s = .failed e cause t → e.toList.length ≤ w s)
    {bound : Nat} {s : σ} (hs : P s) : (Run.of step bound s).trace.length ≤ w s := by
  have h := go_ended step bound [] s
  rw [of]
  generalize go step bound [] s = r at h ⊢
  cases h with
  | @rested t es steps h =>
      have := length_le_of_steps hP steps hs
      rw [List.append_nil, List.length_reverse]
      omega
  | @unfinished t u es e steps h hlen =>
      have := length_le_of_steps hP steps hs
      rw [List.append_nil, List.length_reverse]
      omega
  | @failed t u es e cause steps h =>
      have := length_le_of_steps hP steps hs
      have := hfailed (steps.preserves (fun hs hstep => (hP hs hstep).1) hs) h
      rw [List.append_nil, List.length_append, List.length_reverse]
      omega

theorem go_of_rest {s : σ} (h : step s = .rest) (bound : Nat) (trace : List (Event α)) :
    go step bound trace s = ⟨s, trace, .rested⟩ := by
  cases bound <;> rw [go, h]

theorem go_of_failed {s t : σ} {e : Option (Event α)} {cause : ε}
    (h : step s = .failed e cause t) (bound : Nat) (trace : List (Event α)) :
    go step bound trace s = ⟨t, e.toList ++ trace, .failed cause⟩ := by
  cases bound <;> rw [go, h]

/-- **A larger bound does not change a run that ended.** -/
theorem go_of_le {bound : Nat} : ∀ {larger : Nat} {trace : List (Event α)} {s : σ},
    bound ≤ larger → (go step bound trace s).ending ≠ .unfinished →
      go step larger trace s = go step bound trace s := by
  induction bound with
  | zero =>
      intro larger trace s _ hend
      cases hstep : step s with
      | rest => rw [go_of_rest hstep, go_of_rest hstep]
      | failed e cause t => rw [go_of_failed hstep, go_of_failed hstep]
      | moved e t =>
          rw [go, hstep] at hend
          exact absurd rfl hend
  | succ bound ih =>
      intro larger trace s hle hend
      obtain ⟨larger, rfl⟩ := Nat.exists_eq_add_of_lt hle
      rw [go] at hend ⊢
      rw [go]
      cases hstep : step s with
      | rest => rfl
      | failed e cause t => rfl
      | moved e t =>
          rw [hstep] at hend
          exact ih (Nat.le_add_right bound larger) hend

theorem count_state {c : σ → Nat} (hmoved : ∀ {s e t}, step s = .moved e t → c t = c s + 1)
    (hfailed : ∀ {s e cause t}, step s = .failed e cause t → c t = c s + e.toList.length)
    (bound : Nat) (s : σ) :
    c (Run.of step bound s).state = c s + (Run.of step bound s).trace.length := by
  have hsteps : ∀ {s t : σ} {es : List (Event α)}, Steps step s es t →
      c t = c s + es.length := by
    intro s t es h
    induction h with
    | refl => rfl
    | head hstep _ ih =>
        rw [ih, hmoved hstep, List.length_cons]
        omega
  have h := go_ended step bound [] s
  rw [of]
  generalize go step bound [] s = r at h ⊢
  cases h with
  | rested steps _ => rw [hsteps steps, List.append_nil, List.length_reverse]
  | unfinished steps _ _ => rw [hsteps steps, List.append_nil, List.length_reverse]
  | failed steps h =>
      rw [hfailed h, hsteps steps, List.append_nil, List.length_append, List.length_reverse]
      omega

end Run

end Queueing
