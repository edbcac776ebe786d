import Queueing.Proofs.Statistics.Moments

/-!
# Summaries that are put together from parts

A sample may be split into parts, which are summarized apart and then merged. An assembly is any
way of doing so: samples are added to what was assembled before, and assemblies are merged, in any
order and grouping. In exact arithmetic every assembly of the same samples is the same summary
(`merge_exact`), whatever its parts, so merging is commutative and associative on all summaries
that can be assembled.
-/

namespace Queueing.Summary

/-- A way to put a summary together. -/
inductive Assembly (α : Type) where
  | empty
  | add (whole : Assembly α) (y : α)
  | extend (whole : Assembly α) (ys : List α)
  | merge (left right : Assembly α)

namespace Assembly

/-- The samples of an assembly, the earliest first. -/
def samples {α : Type} : Assembly α → List α
  | empty => []
  | add whole y => whole.samples ++ [y]
  | extend whole ys => whole.samples ++ ys
  | merge left right => left.samples ++ right.samples

def summary {α : Type} [Zero α] [NatCast α] [Add α] [Sub α] [Mul α] [Div α] [Min α] [Max α] :
    Assembly α → Summary α
  | empty => Summary.empty
  | add whole y => whole.summary.add y
  | extend whole ys => whole.summary.extend ys
  | merge left right => left.summary.merge right.summary

variable {K : Type} [Field K] [LinearOrder K] [IsStrictOrderedRing K]

/-- **An assembly describes its samples.** -/
theorem describes (p : Assembly K) : p.summary.Describes p.samples := by
  induction p with
  | empty => exact describes_empty
  | add whole y ih => exact ih.add y
  | extend whole ys ih => exact ih.extend ys
  | merge left right ihl ihr => exact ihl.merge ihr

theorem summary_eq {p q : Assembly K} (h : p.samples.Perm q.samples) : p.summary = q.summary :=
  p.describes.unique q.describes h

theorem summary_merge_comm (p q : Assembly K) :
    p.summary.merge q.summary = q.summary.merge p.summary :=
  summary_eq (p := .merge p q) (q := .merge q p) List.perm_append_comm

theorem summary_merge_assoc (p q r : Assembly K) :
    (p.summary.merge q.summary).merge r.summary = p.summary.merge (q.summary.merge r.summary) := by
  refine summary_eq (p := .merge (.merge p q) r) (q := .merge p (.merge q r)) ?_
  simp only [samples, List.append_assoc, List.Perm.refl]

end Assembly

variable {K : Type} [Field K] [LinearOrder K] [IsStrictOrderedRing K]

/-- **Merging summaries gives the summary of all samples**, in exact arithmetic. So the way in
which a sample is split into parts does not matter, and summaries form a commutative monoid. -/
theorem merge_exact :
    (∀ xs ys : List K, (ofList xs).merge (ofList ys) = ofList (xs ++ ys)) ∧
      (∀ p : Assembly K, p.summary = ofList p.samples) ∧
      (∀ p q : Assembly K, p.samples.Perm q.samples → p.summary = q.summary) ∧
      (∀ p q : Assembly K, p.summary.merge q.summary = q.summary.merge p.summary) ∧
      (∀ p q r : Assembly K, (p.summary.merge q.summary).merge r.summary =
        p.summary.merge (q.summary.merge r.summary)) ∧
      ∀ p : Assembly K, p.summary.merge empty = p.summary ∧ empty.merge p.summary = p.summary := by
  refine ⟨?_, ?_, fun p q => Assembly.summary_eq, Assembly.summary_merge_comm,
    Assembly.summary_merge_assoc, ?_⟩
  · intro xs ys
    exact ((describes_ofList xs).merge (describes_ofList ys)).unique (describes_ofList _) (.refl _)
  · intro p
    exact p.describes.unique (describes_ofList _) (.refl _)
  · intro p
    have hright : p.summary.merge empty = p.summary :=
      Assembly.summary_eq (p := .merge p .empty) (q := p) (by simp [Assembly.samples])
    exact ⟨hright, (Assembly.summary_merge_comm .empty p).trans hright⟩

theorem merge_exact_lopsided :
    letI p : Assembly ℚ := .merge (.extend .empty [9, 2]) (.add (.merge .empty .empty) 1)
    letI q : Assembly ℚ := .merge .empty (.add (.merge (.add .empty 1) (.add .empty 9)) 2)
    p.samples.Perm q.samples ∧ p.summary = q.summary ∧
      p.summary = ⟨3, some 1, some 9, 4, 38, 90, 722⟩ := by
  let p : Assembly ℚ := .merge (.extend .empty [9, 2]) (.add (.merge .empty .empty) 1)
  let q : Assembly ℚ := .merge .empty (.add (.merge (.add .empty 1) (.add .empty 9)) 2)
  have hperm : p.samples.Perm q.samples := by decide
  exact ⟨hperm, (merge_exact (K := ℚ)).2.2.1 p q hperm, by decide +kernel⟩

end Queueing.Summary
