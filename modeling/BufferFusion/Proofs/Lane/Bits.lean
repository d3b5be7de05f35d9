import Mathlib
import BufferFusion.Lane

/-!
# Lanes and their bits

A lane is determined by its bits, and has the bits that it is made of, but for those of no number:
they all make the same lane.
-/
namespace BufferFusion.Lane

open Float.Model UnpackedFloat

variable {x y : Float} {n : Nat} {b : BitVec Format.binary64.numBits}

theorem bits_injective (h : bits x = bits y) : x = y :=
  Float.toBits_inj.1 (UInt64.toNat_inj.1 h)

theorem bits_lt (x : Float) : bits x < 2 ^ 64 := x.toBits.toNat_lt

theorem ofBits_bits (x : Float) : ofBits (bits x) = x := by
  rw [ofBits, bits, UInt64.ofNat_toNat, Float.ofBits_toBits]

theorem toNat_unpackExponent (b : BitVec Format.binary64.numBits) :
    (unpackExponent b).toNat = b.toNat / 2 ^ 52 % 2048 := by
  simp [unpackExponent, Nat.shiftRight_eq_div_pow]

theorem toNat_unpackMantissa (b : BitVec Format.binary64.numBits) :
    (unpackMantissa b).toNat = b.toNat % 2 ^ 52 := by
  simp [unpackMantissa]

/-- The words that are no number, by their fields. -/
theorem isNaNBits_iff :
    isNaNBits b = true ↔ b.toNat / 2 ^ 52 % 2048 = 2047 ∧ b.toNat % 2 ^ 52 ≠ 0 := by
  rw [isNaNBits, decide_eq_true_iff, ← toNat_unpackExponent, ← toNat_unpackMantissa]
  exact and_congr (BitVec.toNat_inj (x := unpackExponent b) (y := -1#11)).symm
    (BitVec.toNat_inj (x := unpackMantissa b) (y := 0#52)).not.symm

/-- The bits of the lane that is no number. -/
def nanBits : Nat := 0x7ff8000000000000

theorem bits_ofBits_eq (hn : n < 2 ^ 64) : bits (ofBits n) =
    if n / 2 ^ 52 % 2048 = 2047 ∧ n % 2 ^ 52 ≠ 0 then nanBits else n := by
  have hword : (UInt64.ofNat n).toBitVec.toNat = n := UInt64.toNat_ofNat_of_lt' hn
  have hpack := congrArg BitVec.toNat (@pack_unpack .binary64 (UInt64.ofNat n).toBitVec (by decide))
  have hnan := @isNaNBits_iff (UInt64.ofNat n).toBitVec
  rw [hword] at hnan
  refine hpack.trans ?_
  split
  · next h => rw [if_pos (hnan.1 h)]; rfl
  · next h => rw [if_neg (mt hnan.2 h), hword]

/-- Bits that are a number are those of the lane that they make. -/
theorem bits_ofBits (hn : n < 2 ^ 64) (h : n / 2 ^ 52 % 2048 = 2047 → n % 2 ^ 52 = 0) :
    bits (ofBits n) = n := by
  rw [bits_ofBits_eq hn, if_neg (by tauto)]

/-- All bits that are no number make the same lane. -/
theorem bits_ofBits_nan (hn : n < 2 ^ 64) (h : n / 2 ^ 52 % 2048 = 2047) (h' : n % 2 ^ 52 ≠ 0) :
    bits (ofBits n) = nanBits := by
  rw [bits_ofBits_eq hn, if_pos ⟨h, h'⟩]

theorem bits_of_isNaN (h : isNaN x = true) : bits x = nanBits := by
  simp only [isNaN, Bool.and_eq_true, beq_iff_eq, bne_iff_ne] at h
  obtain ⟨he, hf⟩ := h
  rw [exponentField, Nat.shiftRight_eq_div_pow] at he
  rw [← ofBits_bits x]
  exact bits_ofBits_nan (bits_lt x) he hf

/-- There is one lane that is no number. -/
theorem eq_of_isNaN (hx : isNaN x = true) (hy : isNaN y = true) : x = y :=
  bits_injective ((bits_of_isNaN hx).trans (bits_of_isNaN hy).symm)

end BufferFusion.Lane
