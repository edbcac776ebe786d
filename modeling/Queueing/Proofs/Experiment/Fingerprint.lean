import Queueing.Proofs.Digest.Collisions
import Queueing.Proofs.Experiment.Settings

/-!
# What a fingerprint tells

The text of a fingerprint is the compact document of the settings, sorted by their names
(`fingerprintText_eq`). Compact documents are read back, so equal texts belong to equal documents.
Two configurations thus have the same text just when they have the same settings, and the same
fingerprint unless digests collide (`fingerprint_eq_iff`).
-/

namespace Queueing

open Json

namespace ExperimentConfig

/-- The settings that have an influence on results are the same. -/
structure SameSettings (c c' : ExperimentConfig Binary64) : Prop where
  customers : c.customers = c'.customers
  arrivalRate : c.arrivalRate = c'.arrivalRate
  serviceRate : c.serviceRate = c'.serviceRate
  trials : c.trials = c'.trials
  seed : c.seed = c'.seed

theorem canonical_ofReal (x : Binary64) : (Value.ofReal x).canonical = Value.ofReal x := by
  rw [Value.ofReal]
  split_ifs <;> rfl

/-- The members of the document without the number of workers. -/
def members (c : ExperimentConfig Binary64) : List (String × Value) :=
  [("customers", Value.ofNat c.customers.toNat), ("arrival_rate", Value.ofReal c.arrivalRate),
    ("service_rate", Value.ofReal c.serviceRate), ("trials", Value.ofNat c.trials.toNat),
    ("rng_seed", Value.ofNat c.seed.toNat), ("workers", .null)]

theorem canonicalMembers_members (c : ExperimentConfig Binary64) :
    Value.canonicalMembers c.members = c.members := by
  simp only [members, Value.canonicalMembers, canonical_ofReal]
  rfl

def sortedMembers (c : ExperimentConfig Binary64) : List (String × Value) :=
  [("arrival_rate", Value.ofReal c.arrivalRate), ("customers", Value.ofNat c.customers.toNat),
    ("rng_seed", Value.ofNat c.seed.toNat), ("service_rate", Value.ofReal c.serviceRate),
    ("trials", Value.ofNat c.trials.toNat), ("workers", .null)]

theorem sortMembers_members (c : ExperimentConfig Binary64) :
    Value.sortMembers c.members = c.sortedMembers := by
  have hseed : "rng_seed" < "workers" := by decide
  have htrials : ¬ "trials" < "rng_seed" ∧ "trials" < "workers" := by decide
  have hservice : ¬ "service_rate" < "rng_seed" ∧ "service_rate" < "trials" := by decide
  have harrival : "arrival_rate" < "rng_seed" := by decide
  have hcustomers : ¬ "customers" < "arrival_rate" ∧ "customers" < "rng_seed" := by decide
  simp only [members, sortedMembers, Value.sortMembers, List.foldr_cons, List.foldr_nil,
    Value.insertMember, hseed, htrials, hservice, harrival, hcustomers, if_true, if_false,
    String.reduceEq]

def settings (c : ExperimentConfig Binary64) : Value := .object c.sortedMembers

/-- **The text of a fingerprint is that of the settings**, sorted by their names. -/
theorem fingerprintText_eq [Arithmetic Binary64] (c : ExperimentConfig Binary64) :
    c.fingerprintText = c.settings.compact := by
  have hsorted : (Value.object c.members).canonical = c.settings := by
    rw [Value.canonical, canonicalMembers_members, sortMembers_members, settings]
  rw [← hsorted]
  rfl

/-! ## Equal texts -/

theorem finite_settings (c : ExperimentConfig Binary64) : c.settings.Finite :=
  ⟨finite_ofReal _, trivial, trivial, finite_ofReal _, trivial, trivial, trivial⟩

theorem eq_of_ofNat {m n : UInt64} (h : Value.ofNat m.toNat = Value.ofNat n.toNat) : m = n := by
  rw [Value.ofNat, Value.ofNat, Value.number.injEq, Number.integer.injEq] at h
  exact UInt64.toNat_inj.mp (Int.ofNat_inj.mp h)

theorem eq_of_ofReal {x y : Binary64} (hx : x.isFinite = true) (hy : y.isFinite = true)
    (h : Value.ofReal x = Value.ofReal y) : x = y := by
  rw [Value.ofReal, Value.ofReal, if_pos hx, if_pos hy, Value.number.injEq,
    Number.real.injEq] at h
  exact h

theorem SameSettings.of_ofValue {c c' : ExperimentConfig Binary64}
    (hfinite : ∀ rate ∈ c.numbers, rate.isFinite = true)
    (hfinite' : ∀ rate ∈ c'.numbers, rate.isFinite = true)
    (h : Reading.ofValue c.settings = Reading.ofValue c'.settings) : c.SameSettings c' := by
  have hsettings := Reading.ofValue_injective _ _ c.finite_settings c'.finite_settings h
  simp only [numbers, List.forall_mem_cons] at hfinite hfinite'
  simp only [settings, sortedMembers, Value.object.injEq, List.cons.injEq, Prod.mk.injEq,
    true_and, and_true] at hsettings
  obtain ⟨harrival, hcustomers, hseed, hservice, htrials⟩ := hsettings
  exact {
    customers := eq_of_ofNat hcustomers
    arrivalRate := eq_of_ofReal hfinite.1 hfinite'.1 harrival
    serviceRate := eq_of_ofReal hfinite.2.1 hfinite'.2.1 hservice
    trials := eq_of_ofNat htrials
    seed := eq_of_ofNat hseed }

theorem SameSettings.settings_eq {c c' : ExperimentConfig Binary64} (h : c.SameSettings c') :
    c.settings = c'.settings := by
  rw [settings, settings, sortedMembers, sortedMembers, h.customers, h.arrivalRate,
    h.serviceRate, h.trials, h.seed]

end ExperimentConfig

/-! ## Fingerprints -/

namespace ExperimentConfig

/-- **A fingerprint tells the settings that have an influence on results**, and nothing else. Of
two configurations in order, the texts that are digested are the same if and only if these
settings are, whatever the numbers of workers; and so are the fingerprints, unless the digests of
two different texts collide. -/
theorem fingerprint_eq_iff (log threeHalves : Binary64 → Binary64) :
    letI := Binary64.arithmetic log threeHalves
    ∀ c c' : ExperimentConfig Binary64, c.validate = .ok () → c'.validate = .ok () →
      (c.fingerprintText = c'.fingerprintText ↔ c.SameSettings c') ∧
      ((Sha256.digest c.fingerprintText.toUTF8.data.toList =
          Sha256.digest c'.fingerprintText.toUTF8.data.toList →
            c.fingerprintText = c'.fingerprintText) →
        (c.fingerprint = c'.fingerprint ↔ c.SameSettings c')) := by
  let _ := Binary64.arithmetic log threeHalves
  intro c c' h h'
  have htext : c.fingerprintText = c'.fingerprintText ↔ c.SameSettings c' := by
    rw [fingerprintText_eq, fingerprintText_eq]
    constructor
    · intro heq
      have hread := Reading.ofText_compact c.finite_settings
      rw [heq, Reading.ofText_compact c'.finite_settings] at hread
      exact .of_ofValue (isFinite_of_validate log threeHalves h)
        (isFinite_of_validate log threeHalves h') (Prod.mk.inj hread).1.symm
    · intro hsame
      rw [hsame.settings_eq]
  refine ⟨htext, fun hcollision => ?_⟩
  constructor
  · intro heq
    exact htext.mp (hcollision (Sha256.hex_injective heq))
  · intro hsame
    rw [fingerprint, fingerprint, htext.mpr hsame]

theorem fingerprint_eq_iff_halfLoaded :
    halfLoaded.fingerprint = { halfLoaded with workers := none }.fingerprint ∧
      halfLoaded.fingerprint ≠ { halfLoaded with trials := 4 }.fingerprint := by
  have hiff := fingerprint_eq_iff Binary64.log Binary64.threeHalves halfLoaded
  have hvalid : halfLoaded.validate = .ok () := by decide +kernel
  refine ⟨?_, ?_⟩
  · have hpair := hiff { halfLoaded with workers := none } hvalid (by decide +kernel)
    have hsame : halfLoaded.SameSettings { halfLoaded with workers := none } :=
      ⟨rfl, rfl, rfl, rfl, rfl⟩
    exact (hpair.2 fun _ => hpair.1.mpr hsame).mpr hsame
  · have hpair := hiff { halfLoaded with trials := 4 } hvalid (by decide +kernel)
    have hdigests : Sha256.digest halfLoaded.fingerprintText.toUTF8.data.toList ≠
        Sha256.digest { halfLoaded with trials := 4 }.fingerprintText.toUTF8.data.toList := by
      decide +kernel
    intro heq
    have hsame := (hpair.2 fun hcollision => absurd hcollision hdigests).mp heq
    exact absurd hsame.trials (by decide)

end ExperimentConfig

end Queueing
