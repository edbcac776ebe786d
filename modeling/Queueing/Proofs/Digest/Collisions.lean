import Mathlib.Data.List.Basic
import Queueing.Digest.Sha256

/-!
# What a digest tells

Nothing is lost between a text and its bytes, nor between a digest and its hexadecimal digits. So
two texts with the same digest are the same, unless two different messages collide
(`hexOfText_eq_iff`). Which messages collide is not known; a collision is therefore not excluded
but named, as `Collide`.
-/

namespace Queueing.Sha256

/-! ## Hexadecimal digits -/

def hexValue (c : Char) : ℕ :=
  if c.toNat < 'a'.toNat then c.toNat - '0'.toNat else c.toNat - 'a'.toNat + 10

theorem hexValue_hexDigit : ∀ n < 16, hexValue (hexDigit n) = n := by
  decide

theorem hexDigit_injective {m n : ℕ} (hm : m < 16) (hn : n < 16) (h : hexDigit m = hexDigit n) :
    m = n := by
  rw [← hexValue_hexDigit m hm, h, hexValue_hexDigit n hn]

/-- **Different bytes have different hexadecimal digits.** -/
theorem hex_injective {bytes bytes' : List UInt8} (h : hex bytes = hex bytes') :
    bytes = bytes' := by
  replace h := String.ofList_injective h
  induction bytes generalizing bytes' with
  | nil =>
      cases bytes' with
      | nil => rfl
      | cons b' bytes' => cases h
  | cons b bytes ih =>
      cases bytes' with
      | nil => cases h
      | cons b' bytes' =>
          simp only [List.flatMap_cons, List.cons_append, List.nil_append, List.cons.injEq] at h
          obtain ⟨hhigh, hlow, hrest⟩ := h
          have hb := b.toNat_lt
          have hb' := b'.toNat_lt
          have hdiv := hexDigit_injective (by omega) (by omega) hhigh
          have hmod := hexDigit_injective (by omega) (by omega) hlow
          have hbyte : b = b' := UInt8.toNat_inj.mp (by omega)
          rw [hbyte, ih hrest]

/-! ## The bytes of a text -/

theorem utf8_injective {s t : String} (h : s.toUTF8.data.toList = t.toUTF8.data.toList) :
    s = t := by
  rw [String.toUTF8_eq_toByteArray, String.toUTF8_eq_toByteArray] at h
  exact String.toByteArray_inj.mp (ByteArray.ext (Array.toList_inj.mp h))

/-! ## Collisions -/

theorem length_digest (message : List UInt8) : (digest message).length = 32 := rfl

/-- Two different messages collide in the first `n` bytes of their digests. -/
structure Collide (n : ℕ) (message message' : List UInt8) : Prop where
  ne : message ≠ message'
  same : (digest message).take n = (digest message').take n

/-- The first bytes of two digests are the same for the same message and by a collision only. -/
theorem take_digest_eq_iff (n : ℕ) (message message' : List UInt8) :
    (digest message).take n = (digest message').take n ↔
      message = message' ∨ Collide n message message' := by
  constructor
  · intro h
    by_cases hm : message = message'
    · exact Or.inl hm
    · exact Or.inr ⟨hm, h⟩
  · rintro (rfl | h)
    · rfl
    · exact h.same

/-- **The digests of two texts are the same** for the same text and by a collision only. -/
theorem hexOfText_eq_iff (s t : String) : hexOfText s = hexOfText t ↔
    s = t ∨ Collide 32 s.toUTF8.data.toList t.toUTF8.data.toList := by
  have hwhole : ∀ message, (digest message).take 32 = digest message :=
    fun message => List.take_of_length_le (Nat.le_of_eq (length_digest message))
  have htake := take_digest_eq_iff 32 s.toUTF8.data.toList t.toUTF8.data.toList
  rw [hwhole, hwhole] at htake
  constructor
  · intro h
    exact (htake.mp (hex_injective h)).imp_left utf8_injective
  · rintro (rfl | h)
    · rfl
    · exact congrArg hex (htake.mpr (Or.inr h))

end Queueing.Sha256
