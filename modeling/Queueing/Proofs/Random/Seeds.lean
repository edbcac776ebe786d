import Mathlib.Data.Nat.Digits.Lemmas
import Queueing.Proofs.Digest.Collisions
import Queueing.Random.Xorshift

/-!
# Seeds of different streams

A message that is digested to a seed is one word, a label and one more word, with the length of
the label before it. All but the label take up a fixed number of bytes, so a message belongs to
one parent, label and index (`seedMessage_eq_iff`). The eight bytes that are kept of a digest are
the digits of the seed in base 256 (`toNat_wordOfBytes`), so they are told by it; different
streams therefore share a seed only where their messages collide (`deriveSeed_eq_iff`).
-/

namespace Queueing

/-! ## Words and bytes -/

/-- The number whose digits in base 256 are some bytes, lowest first. -/
def bytesValue (bytes : List UInt8) : ℕ := Nat.ofDigits 256 (bytes.map UInt8.toNat)

theorem digit_lt (bytes : List UInt8) : ∀ d ∈ bytes.map UInt8.toNat, d < 256 := by
  intro d hd
  obtain ⟨b, -, rfl⟩ := List.mem_map.mp hd
  exact b.toNat_lt

theorem bytesValue_lt (bytes : List UInt8) : bytesValue bytes < 256 ^ bytes.length := by
  have hlt := Nat.ofDigits_lt_base_pow_length (by decide : 1 < 256) (digit_lt bytes)
  rwa [List.length_map] at hlt

theorem bytesValue_injective {bytes bytes' : List UInt8} (hlength : bytes.length = bytes'.length)
    (h : bytesValue bytes = bytesValue bytes') : bytes = bytes' := by
  have hdigits := Nat.ofDigits_inj_of_len_eq (by decide : 1 < 256) (by simpa using hlength)
    (digit_lt bytes) (digit_lt bytes') h
  exact List.map_injective_iff.mpr (fun b b' => UInt8.toNat_inj.mp) hdigits

/-- **At most eight bytes are the digits of their word.** -/
theorem toNat_wordOfBytes {bytes : List UInt8} (h : bytes.length ≤ 8) :
    (wordOfBytes bytes).toNat = bytesValue bytes := by
  induction bytes with
  | nil => rfl
  | cons b bytes ih =>
      have hlength : bytes.length ≤ 7 := Nat.le_of_succ_le_succ h
      have hrest : bytesValue bytes < 2 ^ 56 := calc
        bytesValue bytes < 256 ^ bytes.length := bytesValue_lt bytes
        _ ≤ 256 ^ 7 := Nat.pow_le_pow_right (by decide) hlength
        _ = 2 ^ 56 := by decide
      have hb : b.toUInt64.toNat < 2 ^ 8 := b.toNat_lt
      have hshift : (wordOfBytes bytes <<< 8).toNat = 2 ^ 8 * bytesValue bytes := by
        rw [UInt64.toNat_shiftLeft, ih (by omega), Nat.shiftLeft_eq]
        show bytesValue bytes * 2 ^ 8 % 2 ^ 64 = _
        omega
      calc (wordOfBytes (b :: bytes)).toNat
          = (wordOfBytes bytes <<< 8).toNat ||| b.toUInt64.toNat := UInt64.toNat_or _ _
        _ = 2 ^ 8 * bytesValue bytes + b.toUInt64.toNat := by
            rw [hshift, Nat.two_pow_add_eq_or_of_lt hb]
        _ = b.toNat + 256 * bytesValue bytes := Nat.add_comm _ _
        _ = bytesValue (b :: bytes) := Nat.ofDigits_cons.symm

theorem wordOfBytes_injective {bytes bytes' : List UInt8} (hbytes : bytes.length = 8)
    (hbytes' : bytes'.length = 8) (h : wordOfBytes bytes = wordOfBytes bytes') :
    bytes = bytes' := by
  refine bytesValue_injective (hbytes.trans hbytes'.symm) ?_
  rw [← toNat_wordOfBytes (by omega), ← toNat_wordOfBytes (by omega), h]

theorem bytesValue_wordBytes (w : UInt64) : bytesValue (wordBytes w) = w.toNat := by
  have hw := w.toNat_lt
  simp [bytesValue, wordBytes, Nat.ofDigits_cons, Nat.shiftRight_eq_div_pow]
  omega

theorem wordBytes_injective {v w : UInt64} (h : wordBytes v = wordBytes w) : v = w := by
  rw [← UInt64.toNat_inj, ← bytesValue_wordBytes, h, bytesValue_wordBytes]

/-! ## Messages -/

/-- **A message belongs to one parent, label and index.** Messages of the same length have labels
of the same length, whatever is written of this length before the label. -/
theorem seedMessage_eq_iff {parent parent' : UInt64} {label label' : String}
    {index index' : UInt64} :
    seedMessage parent label index = seedMessage parent' label' index' ↔
      parent = parent' ∧ label = label' ∧ index = index' := by
  constructor
  · intro h
    obtain ⟨hfront, hindex⟩ := List.append_inj' h rfl
    obtain ⟨hhead, hlabel⟩ := List.append_inj hfront rfl
    obtain ⟨hparent, -⟩ := List.append_inj hhead rfl
    exact ⟨wordBytes_injective hparent, Sha256.utf8_injective hlabel,
      wordBytes_injective hindex⟩
  · rintro ⟨rfl, rfl, rfl⟩
    rfl

/-- **Different streams have different messages**, for any two parents, labels and indices, so
that they share a seed only if the digests of their messages begin with the same eight bytes. -/
theorem deriveSeed_eq_iff (parent parent' : UInt64) (label label' : String)
    (index index' : UInt64) :
    (seedMessage parent label index = seedMessage parent' label' index' ↔
        parent = parent' ∧ label = label' ∧ index = index') ∧
      (deriveSeed parent label index = deriveSeed parent' label' index' ↔
        (parent = parent' ∧ label = label' ∧ index = index') ∨
          Sha256.Collide 8 (seedMessage parent label index)
            (seedMessage parent' label' index')) := by
  refine ⟨seedMessage_eq_iff, ?_⟩
  rw [← seedMessage_eq_iff, ← Sha256.take_digest_eq_iff]
  have hlength : ∀ message, ((Sha256.digest message).take 8).length = 8 := fun _ => rfl
  constructor
  · intro h
    exact wordOfBytes_injective (hlength _) (hlength _) h
  · intro h
    exact congrArg wordOfBytes h

end Queueing
