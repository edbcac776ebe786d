import Queueing.Experiment.Config
import Queueing.Proofs.Digest.Collisions
import Queueing.Proofs.Json.Canonical
import Queueing.Proofs.Json.Reread

/-!
# What the digest of a document tells

The digest of a document is that of the compact text of its canonical form. Different values have
different compact texts, down to the numbers in them: an integer is not written like a real, nor a
zero like the zero with a sign. So documents with the same text are the same up to the order of
members, and documents with the same digest are too unless their texts collide
(`digest_eq_iff_sameUpToOrder`).
-/

namespace Queueing

open Json

namespace Json.Value

/-- A document: all its numbers have numerals, and none of its objects repeats a key. -/
structure WellFormed (v : Value) : Prop where
  finite : v.Finite
  distinct : v.Distinct

mutual

theorem finite_canonical : (v : Value) → v.Finite → v.canonical.Finite
  | .null, _ | .bool _, _ | .string _, _ => trivial
  | .number _, h => h
  | .array items, h => finite_canonicalItems items h
  | .object members, h => finiteMembers_iff.mpr fun m hm =>
    finiteMembers_iff.mp (finite_canonicalMembers members h) m (mem_of_mem_sortMembers hm)

theorem finite_canonicalItems :
    (items : List Value) → FiniteItems items → FiniteItems (canonicalItems items)
  | [], _ => trivial
  | v :: rest, ⟨hv, hrest⟩ => ⟨finite_canonical v hv, finite_canonicalItems rest hrest⟩

theorem finite_canonicalMembers : (members : List (String × Value)) →
    FiniteMembers members → FiniteMembers (canonicalMembers members)
  | [], _ => trivial
  | (_, v) :: rest, ⟨hv, hrest⟩ => ⟨finite_canonical v hv, finite_canonicalMembers rest hrest⟩

end

/-- **Documents have the same canonical text** just when they are the same up to order. -/
theorem compact_canonical_eq_iff {v w : Value} (hv : v.WellFormed) (hw : w.WellFormed) :
    v.canonical.compact = w.canonical.compact ↔ SameUpToOrder v w := by
  rw [← canonical_eq_iff hv.distinct hw.distinct]
  constructor
  · intro h
    exact Reading.compact_injective (finite_canonical v hv.finite) (finite_canonical w hw.finite) h
  · intro h
    rw [h]

/-! ## Configurations -/

theorem wellFormed_ofReal (x : Binary64) : (ofReal x).WellFormed where
  finite := finite_ofReal x
  distinct := by
    rw [ofReal]
    split_ifs <;> trivial

theorem wellFormed_object {members : List (String × Value)} (hkeys : (members.map Prod.fst).Nodup)
    (hvalues : ∀ m ∈ members, m.2.WellFormed) : (object members).WellFormed where
  finite := finiteMembers_iff.mpr fun m hm => (hvalues m hm).finite
  distinct := ⟨hkeys, distinctMembers_iff.mpr fun m hm => (hvalues m hm).distinct⟩

end Json.Value

open Value

theorem TrialConfig.wellFormed_write (c : TrialConfig Binary64) : (Form.write c).WellFormed := by
  refine wellFormed_object (by decide : ["customers", "arrival_rate", "service_rate",
    "rng_seed"].Nodup) ?_
  simp only [List.forall_mem_cons]
  exact ⟨⟨trivial, trivial⟩, wellFormed_ofReal _, wellFormed_ofReal _, ⟨trivial, trivial⟩,
    List.forall_mem_nil _⟩

theorem ExperimentConfig.wellFormed_write (c : ExperimentConfig Binary64) :
    (Form.write c).WellFormed := by
  refine wellFormed_object (by decide : ["customers", "arrival_rate", "service_rate", "trials",
    "rng_seed", "workers"].Nodup) ?_
  simp only [List.forall_mem_cons]
  refine ⟨⟨trivial, trivial⟩, wellFormed_ofReal _, wellFormed_ofReal _, ⟨trivial, trivial⟩,
    ⟨trivial, trivial⟩, ?_, List.forall_mem_nil _⟩
  cases c.workers with
  | none => exact ⟨trivial, trivial⟩
  | some workers => exact ⟨trivial, trivial⟩

/-! ## Digests -/

/-- **The digest of a document does not depend on the order of members, and on nothing less.** The
text that is digested is the same for values that are the same up to order and, among documents,
for no others; items of arrays count in their order. The digests of what is written for two things
of any types, such as configurations, are therefore the same just when the documents are the same
up to order, unless the two texts collide. -/
theorem digest_eq_iff_sameUpToOrder :
    (∀ v w : Value, v.Distinct → SameUpToOrder v w →
        v.canonical.compact = w.canonical.compact) ∧
      (∀ v : Value, v.canonical.canonical = v.canonical) ∧
      (∀ v w : Value, v.WellFormed → w.WellFormed →
        (v.canonical.compact = w.canonical.compact ↔ SameUpToOrder v w)) ∧
      (∀ items items' : List Value,
        (Value.array items).WellFormed → (Value.array items').WellFormed →
          ((Value.array items).canonical.compact = (Value.array items').canonical.compact ↔
            items.Forall₂ SameUpToOrder items')) ∧
      (∀ (σ τ : Type) [Form σ] [Form τ] (x : σ) (y : τ),
        (Form.write x).WellFormed → (Form.write y).WellFormed →
          (Json.digest x = Json.digest y ↔ SameUpToOrder (Form.write x) (Form.write y) ∨
            Sha256.Collide 32 (Form.write x).canonical.compact.toUTF8.data.toList
              (Form.write y).canonical.compact.toUTF8.data.toList)) ∧
      (∀ c : TrialConfig Binary64, (Form.write c).WellFormed) ∧
      ∀ c : ExperimentConfig Binary64, (Form.write c).WellFormed := by
  refine ⟨?_, canonical_canonical, fun v w => compact_canonical_eq_iff, ?_, ?_,
    TrialConfig.wellFormed_write, ExperimentConfig.wellFormed_write⟩
  · intro v w hv h
    rw [h.canonical_eq hv]
  · intro items items' h h'
    rw [compact_canonical_eq_iff h h', sameUpToOrder_array_iff h.distinct h'.distinct]
  · intro σ τ _ _ x y hx hy
    rw [← compact_canonical_eq_iff hx hy]
    exact Sha256.hexOfText_eq_iff _ _

theorem digest_eq_iff_sameUpToOrder_nested :
    letI inner : Value := .object [("d", Value.ofNat 1), ("c", .string "\"")]
    letI inner' : Value := .object [("c", .string "\""), ("d", Value.ofNat 1)]
    letI v : Value := .object [("b", .null), ("a", .array [inner, .null])]
    letI w : Value := .object [("a", .array [inner', .null]), ("b", .null)]
    v.WellFormed ∧ w.WellFormed ∧ v.digest = w.digest ∧
      (Value.array [v, .null]).canonical.compact = (Value.array [w, .null]).canonical.compact := by
  let inner : Value := .object [("d", Value.ofNat 1), ("c", .string "\"")]
  let inner' : Value := .object [("c", .string "\""), ("d", Value.ofNat 1)]
  let v : Value := .object [("b", .null), ("a", .array [inner, .null])]
  let w : Value := .object [("a", .array [inner', .null]), ("b", .null)]
  have hv : v.WellFormed := ⟨by simp [v, inner, Value.Finite, FiniteMembers, FiniteItems,
    Value.ofNat, Number.Finite], by simp [v, inner, Distinct, DistinctMembers, DistinctItems,
    Value.ofNat]⟩
  have hw : w.WellFormed := ⟨by simp [w, inner', Value.Finite, FiniteMembers, FiniteItems,
    Value.ofNat, Number.Finite], by simp [w, inner', Distinct, DistinctMembers, DistinctItems,
    Value.ofNat]⟩
  have houter : Reorders v (.object [("a", .array [inner, .null]), ("b", .null)]) :=
    .members (.swap _ _ _)
  have hinner : Reorders (.array [inner, .null]) (.array [inner', .null]) :=
    @Reorders.item [] [.null] inner inner' (.members (.swap _ _ _))
  have hsame : SameUpToOrder v w :=
    .tail (.single houter) (@Reorders.member [] [("b", .null)] "a" _ _ hinner)
  obtain ⟨-, -, -, hitems, hdigest, -, -⟩ := digest_eq_iff_sameUpToOrder
  refine ⟨hv, hw, (hdigest Value Value v w hv hw).mpr (Or.inl hsame), ?_⟩
  exact (hitems [v, .null] [w, .null]
    ⟨⟨hv.finite, trivial, trivial⟩, ⟨hv.distinct, trivial, trivial⟩⟩
    ⟨⟨hw.finite, trivial, trivial⟩, ⟨hw.distinct, trivial, trivial⟩⟩).mpr
    (.cons hsame (.cons .refl .nil))

end Queueing
