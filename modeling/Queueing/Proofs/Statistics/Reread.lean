import Queueing.Forms.Statistics
import Queueing.Proofs.Json.Reread

/-!
# Statistics that are read back

Summaries, results and aggregates are read part by part (`Summary.rereads`, `TrialResult.rereads`,
`Aggregate.mapM_parts`). Each is read as it was if and only if its counts fit into 64 bits and its
reals are finite and read as they were.
-/

namespace Queueing

open Json

/-! ## Summaries -/

namespace Summary

def reread? (s : Summary Binary64) : Option (Summary Binary64) := do
  pure ⟨← rereadCount? s.count, rereadOptional s.min, rereadOptional s.max, ← rereadReal? s.m1,
    ← rereadReal? s.m2, ← rereadReal? s.m3, ← rereadReal? s.m4⟩

theorem rereads {f : Field} (hs : f.shape = shapeOf (Summary Binary64)) (hn : f.nullable = false)
    (s : Summary Binary64) : Rereads f 1 s s.reread? := by
  have hcount : Rereads (.required "count" (shapeOf Nat)) 0 s.count (rereadCount? s.count) :=
    rereads_count rfl rfl s.count
  have hextreme (name : String) (x : Option Binary64) :
      Rereads (.optional name (shapeOf Binary64)) 0 x (some (rereadOptional x)) :=
    rereads_optional_real rfl rfl x
  have hmoment (name : String) (x : Binary64) :
      Rereads (.required name (shapeOf Binary64)) 0 x (rereadReal? x) := rereads_real rfl rfl x
  refine rereads_record
    [hcount.part, (hextreme "min" s.min).part, (hextreme "max" s.max).part,
      (hmoment "m1" s.m1).part, (hmoment "m2" s.m2).part, (hmoment "m3" s.m3).part,
      (hmoment "m4" s.m4).part] hs hn rfl rfl (by decide) ?_ ?_
  · simp [Part.reread?_part, reread?, Option.map_bind, Form.write, Field.name,
      Field.required, Field.optional, Option.bind_map, Option.bind_assoc]
  · intro z hz
    simp only [reread?, Option.bind_eq_bind, Option.bind_eq_some_iff, Option.pure_def,
      Option.some.injEq] at hz
    obtain ⟨count, -, m1, h1, m2, h2, m3, h3, m4, h4, rfl⟩ := hz
    simp [Form.ofValue?, field?, Form.write, Value.member?, List.lookup, nat?_ofNat,
      option?_rereadOptional, real?_ofReal_of_rereadReal? h1, real?_ofReal_of_rereadReal? h2,
      real?_ofReal_of_rereadReal? h3, real?_ofReal_of_rereadReal? h4]

def numbers (s : Summary Binary64) : List Binary64 :=
  [s.m1, s.m2, s.m3, s.m4] ++ s.min.toList ++ s.max.toList

theorem reread?_eq_self_iff {s : Summary Binary64} :
    s.reread? = some s ↔ s.count < Decimal.wordLimit ∧ ∀ x ∈ s.numbers, Kept x := by
  obtain ⟨count, least, greatest, m1, m2, m3, m4⟩ := s
  simp [reread?, numbers, Option.bind_eq_some_iff, rereadCount?_eq_self_iff,
    rereadReal?_eq_self_iff, rereadOptional_eq_self_iff, or_imp, forall_and]

end Summary

/-! ## Results -/

namespace TrialResult

def reread? : TrialResult Binary64 → Option (TrialResult Binary64)
  | .mean value => (rereadReal? value).map .mean
  | .degenerate => some .degenerate

theorem rereads {f : Field} (hs : f.shape = shapeOf (TrialResult Binary64))
    (hn : f.nullable = false) (result : TrialResult Binary64) :
    Rereads f 1 result result.reread? := by
  cases result with
  | mean value =>
      refine rereads_variant hs hn rfl (rereads_real rfl rfl value) rfl ?_ ?_
      · rw [reread?, Option.map_map]
        rfl
      · intro z hz
        obtain ⟨reread, hreread, rfl⟩ := Option.map_eq_some_iff.mp hz
        simp [Form.ofValue?, field?, Form.write, Value.member?, List.lookup,
          real?_ofReal_of_rereadReal? hreread]
  | degenerate => exact rereads_name hs hn rfl rfl rfl

def numbers (result : TrialResult Binary64) : List Binary64 := result.value?.toList

theorem reread?_eq_self_iff {result : TrialResult Binary64} :
    result.reread? = some result ↔ ∀ x ∈ result.numbers, Kept x := by
  cases result <;> simp [reread?, numbers, value?, rereadReal?_eq_self_iff]

end TrialResult

/-! ## Aggregates -/

namespace Aggregate

def reread? (a : Aggregate Binary64) : Option (Aggregate Binary64) := do
  pure ⟨← rereadCount? a.n, ← rereadReal? a.mean, ← rereadReal? a.stdDev, ← rereadReal? a.stdError,
    ← rereadReal? a.lower, ← rereadReal? a.upper, ← rereadReal? a.min, ← rereadReal? a.max⟩

def parts (a : Aggregate Binary64) : List (Part 0) :=
  have hreal (name : String) (x : Binary64) :
      Rereads (.required name (shapeOf Binary64)) 0 x (rereadReal? x) := rereads_real rfl rfl x
  [(rereads_count (f := .required "n" sizeShape) rfl rfl a.n).part,
    (hreal "mean" a.mean).part, (hreal "std_dev" a.stdDev).part,
    (hreal "std_error" a.stdError).part, (hreal "ci_lower" a.lower).part,
    (hreal "ci_upper" a.upper).part, (hreal "min" a.min).part, (hreal "max" a.max).part]

theorem mapM_parts (a : Aggregate Binary64) :
    a.parts.mapM Part.reread? = a.reread?.map members := by
  simp [parts, members, Part.reread?_part, reread?, Function.comp_def, Option.map_bind, Form.write,
    Field.name, Field.required, Option.bind_map, Option.bind_assoc]

/-- Each part may be looked at before it is known what it is for. -/
theorem exists_check_any_parts {a : Aggregate Binary64} (hfit : a.n < Decimal.wordLimit)
    (depth : ℕ) : ∀ p ∈ a.parts, ∃ v, check depth .any (Reading.ofValue p.value) = .ok v := by
  have hreal := exists_check_any_ofReal depth
  simp only [parts, List.forall_mem_cons, List.not_mem_nil, false_implies, implies_true, and_true]
  exact ⟨exists_check_any_ofNat depth hfit, hreal _, hreal _, hreal _, hreal _, hreal _, hreal _,
    hreal _⟩

theorem ofValue?_members {a b : Aggregate Binary64} (h : a.reread? = some b) (kind : Value) :
    Form.ofValue? (.object (("kind", kind) :: b.members)) = some b := by
  simp only [reread?, Option.bind_eq_bind, Option.bind_eq_some_iff, Option.pure_def,
    Option.some.injEq] at h
  obtain ⟨n, -, mean, h1, stdDev, h2, stdError, h3, lower, h4, upper, h5, least, h6, greatest, h7,
    rfl⟩ := h
  simp [Form.ofValue?, field?, members, Form.write, Value.member?, List.lookup, nat?_ofNat,
    real?_ofReal_of_rereadReal? h1, real?_ofReal_of_rereadReal? h2,
    real?_ofReal_of_rereadReal? h3, real?_ofReal_of_rereadReal? h4,
    real?_ofReal_of_rereadReal? h5, real?_ofReal_of_rereadReal? h6,
    real?_ofReal_of_rereadReal? h7]

def numbers (a : Aggregate Binary64) : List Binary64 :=
  [a.mean, a.stdDev, a.stdError, a.lower, a.upper, a.min, a.max]

theorem reread?_eq_self_iff {a : Aggregate Binary64} :
    a.reread? = some a ↔ a.n < Decimal.wordLimit ∧ ∀ x ∈ a.numbers, Kept x := by
  obtain ⟨n, mean, stdDev, stdError, lower, upper, least, greatest⟩ := a
  simp [reread?, numbers, Option.bind_eq_some_iff, rereadCount?_eq_self_iff,
    rereadReal?_eq_self_iff]

end Aggregate

end Queueing
