import BufferFusion.Proofs.Lane.Bits
import BufferFusion.Proofs.Result
import BufferFusion.Tensor

/-!
# Conversions

A lane that a conversion has made is left alone by it, and so is every lane that holds an element of
the type.
-/
namespace BufferFusion

namespace Lane

variable {x : Float} {n s e f : Nat}

theorem exponentField_eq (x : Float) : exponentField x = bits x / 2 ^ 52 % 2048 := by
  rw [exponentField, Nat.shiftRight_eq_div_pow]

theorem fraction_eq (x : Float) : fraction x = bits x % 2 ^ 52 := rfl

theorem signBit_eq (x : Float) : signBit x = bits x / 2 ^ 63 := by
  rw [signBit, Nat.shiftRight_eq_div_pow]

theorem isNaN_iff : isNaN x = true ↔ exponentField x = 2047 ∧ fraction x ≠ 0 := by
  simp [isNaN]

theorem isInfinite_iff : isInfinite x = true ↔ exponentField x = 2047 ∧ fraction x = 0 := by
  simp [isInfinite]

/-! ### Whole numbers -/

/-- The lane is a zero, or has no bits below those of the integer part. -/
def IsWhole (x : Float) : Prop :=
  bits x % 2 ^ 63 = 0 ∨ 1023 ≤ exponentField x ∧ 2 ^ (1075 - exponentField x) ∣ bits x

theorem truncate_of_isWhole (h : IsWhole x) : truncate x = x := by
  have hlt := bits_lt x
  have he := exponentField_eq x
  rw [truncate]
  obtain hzero | ⟨hlo, hdvd⟩ := h
  · have hsign : signBit x <<< 63 = bits x := by
      rw [signBit_eq, Nat.shiftLeft_eq]
      omega
    simp only []
    rw [if_pos (by omega), hsign, ofBits_bits]
  · simp only []
    rw [if_neg (by omega)]
    split
    · rfl
    · rw [Nat.shiftRight_eq_div_pow, Nat.shiftLeft_eq, Nat.div_mul_cancel hdvd, ofBits_bits]

theorem isWhole_truncate (x : Float) : IsWhole (truncate x) := by
  have hlt := bits_lt x
  have he := exponentField_eq x
  rw [truncate]
  simp only []
  split
  · have hsign : signBit x < 2 := by
      rw [signBit_eq]
      omega
    left
    rw [Nat.shiftLeft_eq, bits_ofBits (by omega) (by omega)]
    omega
  split
  · next hlo hhi =>
    right
    rw [Nat.sub_eq_zero_of_le hhi]
    exact ⟨by omega, Nat.one_dvd _⟩
  · next hlo hhi =>
    generalize hd : 1075 - exponentField x = d
    have hle : d ≤ 52 := by omega
    -- dropping bits of the fraction changes no other field
    have hhigh : bits x / 2 ^ d * 2 ^ d / 2 ^ 52 = bits x / 2 ^ 52 := by
      rw [← Nat.sub_add_cancel hle, Nat.pow_add, Nat.mul_div_mul_right _ _ (Nat.two_pow_pos d),
        Nat.mul_comm (2 ^ (52 - d)), ← Nat.div_div_eq_div_mul]
    have hword : bits (ofBits (bits x >>> d <<< d)) = bits x / 2 ^ d * 2 ^ d := by
      rw [Nat.shiftRight_eq_div_pow, Nat.shiftLeft_eq]
      refine bits_ofBits (Nat.lt_of_le_of_lt (Nat.div_mul_le_self ..) hlt) fun h => ?_
      omega
    have hfield : exponentField (ofBits (bits x >>> d <<< d)) = exponentField x := by
      rw [exponentField_eq, hword, hhigh, he]
    right
    rw [hfield, hd, hword]
    exact ⟨by omega, Nat.dvd_mul_left ..⟩

theorem truncate_truncate (x : Float) : truncate (truncate x) = truncate x :=
  truncate_of_isWhole (isWhole_truncate x)

/-- A number is shifted up until it has as many bits as a mantissa. -/
theorem shifted_bounds (hn : n ≠ 0) (h : n.log2 ≤ 52) :
    2 ^ 52 ≤ n * 2 ^ (52 - n.log2) ∧ n * 2 ^ (52 - n.log2) < 2 ^ 53 := by
  have hlo := Nat.log2_self_le hn
  have hhi := @Nat.lt_log2_self n
  have hpow : 2 ^ n.log2 * 2 ^ (52 - n.log2) = 2 ^ 52 := by
    rw [← Nat.pow_add, Nat.add_sub_cancel' h]
  constructor
  · rw [← hpow]
    exact Nat.mul_le_mul_right _ hlo
  · have hdouble : 2 ^ (n.log2 + 1) * 2 ^ (52 - n.log2) = 2 ^ 53 := by
      rw [← Nat.pow_add, show n.log2 + 1 + (52 - n.log2) = 53 by omega]
    rw [← hdouble]
    exact Nat.mul_lt_mul_of_pos_right hhi (Nat.two_pow_pos _)

theorem natBits_eq (hn : n ≠ 0) (h : n.log2 ≤ 52) :
    natBits n = (n.log2 + 1022) * 2 ^ 52 + n * 2 ^ (52 - n.log2) := by
  rw [natBits, if_neg hn]
  simp only []
  rw [if_pos h, Nat.shiftLeft_eq, Nat.shiftLeft_eq]

/-- The bits of a signed number whose magnitude has as many bits as the mantissa, or fewer. -/
theorem bits_natBits (hs : s < 2) (hn : n ≠ 0) (h : n.log2 ≤ 52) :
    bits (ofBits (s * 2 ^ 63 + natBits n)) = s * 2 ^ 63 + natBits n := by
  obtain ⟨hlo, hhi⟩ := shifted_bounds hn h
  rw [natBits_eq hn h]
  exact bits_ofBits (by omega) (by omega)

theorem exponentField_natBits (hs : s < 2) (hn : n ≠ 0) (h : n.log2 ≤ 52) :
    exponentField (ofBits (s * 2 ^ 63 + natBits n)) = n.log2 + 1023 := by
  obtain ⟨hlo, hhi⟩ := shifted_bounds hn h
  rw [exponentField_eq, bits_natBits hs hn h, natBits_eq hn h]
  omega

theorem isWhole_ofBits (hs : s < 2) (hn : n ≠ 0) (h : n.log2 ≤ 52) :
    IsWhole (ofBits (s * 2 ^ 63 + natBits n)) := by
  have hfield := exponentField_natBits hs hn h
  refine .inr ⟨by omega, ?_⟩
  rw [hfield, bits_natBits hs hn h, natBits_eq hn h,
    show 1075 - (n.log2 + 1023) = 52 - n.log2 by omega]
  have hdvd : ∀ k, 52 - n.log2 ≤ k → 2 ^ (52 - n.log2) ∣ 2 ^ k := fun k hk => Nat.pow_dvd_pow 2 hk
  exact Nat.dvd_add (Nat.dvd_mul_left_of_dvd (hdvd 63 (by omega)) _)
    (Nat.dvd_add (Nat.dvd_mul_left_of_dvd (hdvd 52 (by omega)) _) (Nat.dvd_mul_left ..))

/-- The sign bit of an integer. -/
def signOf (n : Int) : Nat := if n < 0 then 1 else 0

theorem signOf_lt (n : Int) : signOf n < 2 := by
  rw [signOf]
  split <;> decide

/-- Between zero and the limits an integer has no more bits than a mantissa. -/
theorem ofInt_cases {n : Int} (h : n.natAbs ≤ exactLimit) :
    n = 0 ∨ n = exactLimit ∨ n = -exactLimit ∨ n.natAbs ≠ 0 ∧ n.natAbs.log2 ≤ 52 ∧
      ofInt n = ofBits (signOf n * 2 ^ 63 + natBits n.natAbs) := by
  by_cases hzero : n = 0
  · exact .inl hzero
  by_cases hlimit : n.natAbs = exactLimit
  · exact .inr ((Int.natAbs_eq_iff.1 hlimit).imp id .inl)
  have hlt : n.natAbs < 2 ^ 53 := Nat.lt_of_le_of_ne h hlimit
  have hne : n.natAbs ≠ 0 := Int.natAbs_ne_zero.2 hzero
  have hsign : (if n < 0 then 1 <<< 63 else 0 : Nat) = signOf n * 2 ^ 63 := by
    rw [signOf]
    split <;> rfl
  exact .inr (.inr (.inr ⟨hne, Nat.lt_succ_iff.1 ((Nat.log2_lt hne).2 hlt), by rw [ofInt, hsign]⟩))

theorem isWhole_ofInt {n : Int} (h : n.natAbs ≤ exactLimit) : IsWhole (ofInt n) := by
  obtain rfl | rfl | rfl | ⟨hne, hlog, hbits⟩ := ofInt_cases h
  · exact .inl (by decide +kernel)
  · exact .inr (by decide +kernel)
  · exact .inr (by decide +kernel)
  · rw [hbits]
    exact isWhole_ofBits (signOf_lt n) hne hlog

/-! ### Single precision -/

theorem roundShift_mul (n k : Nat) : roundShift (n * 2 ^ k) k = n := by
  have hpos := Nat.two_pow_pos k
  rw [roundShift]
  simp only [Nat.shiftRight_eq_div_pow, Nat.shiftLeft_eq, Nat.one_mul, Nat.mul_mod_left,
    Nat.mul_div_cancel _ hpos]
  rw [if_pos (by omega)]

/-- The mantissa of a single-precision number given by its bits. -/
def singleMantissa (n : Nat) : Nat :=
  if n / 2 ^ 23 % 256 = 0 then n % 2 ^ 23 else n % 2 ^ 23 + 2 ^ 23

theorem ofSingleBits_eq (n : Nat) : ofSingleBits n =
    if n / 2 ^ 23 % 256 = 255 then ofBits (n / 2 ^ 31 * 2 ^ 63 + 2047 * 2 ^ 52 + n % 2 ^ 23 * 2 ^ 29)
    else if singleMantissa n = 0 then ofBits (n / 2 ^ 31 * 2 ^ 63)
    else ofBits (n / 2 ^ 31 * 2 ^ 63 +
      ((singleMantissa n).log2 + max (n / 2 ^ 23 % 256) 1 + 872) * 2 ^ 52 +
        singleMantissa n * 2 ^ (52 - (singleMantissa n).log2)) := by
  simp only [ofSingleBits, singleMantissa, Nat.shiftRight_eq_div_pow, Nat.shiftLeft_eq, Nat.one_mul]
  rfl

theorem log2_singleMantissa_le (h : singleMantissa n ≠ 0) : (singleMantissa n).log2 ≤ 23 := by
  refine Nat.lt_succ_iff.1 ((Nat.log2_lt h).2 ?_)
  rw [singleMantissa]
  split <;> omega

/-- The fields of the lane that a finite single-precision number other than zero is widened to. -/
theorem fields_ofSingleBits (hn : n < 2 ^ 32) (hfield : n / 2 ^ 23 % 256 ≠ 255)
    (hne : singleMantissa n ≠ 0) : signBit (ofSingleBits n) = n / 2 ^ 31 ∧
      exponentField (ofSingleBits n) = (singleMantissa n).log2 + max (n / 2 ^ 23 % 256) 1 + 873 ∧
        mantissa (ofSingleBits n) = singleMantissa n * 2 ^ (52 - (singleMantissa n).log2) := by
  have hlog := log2_singleMantissa_le hne
  obtain ⟨hlo, hhi⟩ := shifted_bounds hne (by omega)
  have hbits := @bits_ofBits (n / 2 ^ 31 * 2 ^ 63 +
    ((singleMantissa n).log2 + max (n / 2 ^ 23 % 256) 1 + 872) * 2 ^ 52 +
      singleMantissa n * 2 ^ (52 - (singleMantissa n).log2)) (by omega) (by omega)
  have hexponent : exponentField (ofSingleBits n) =
      (singleMantissa n).log2 + max (n / 2 ^ 23 % 256) 1 + 873 := by
    rw [exponentField_eq, ofSingleBits_eq, if_neg hfield, if_neg hne, hbits]
    omega
  refine ⟨?_, hexponent, ?_⟩
  · rw [signBit_eq, ofSingleBits_eq, if_neg hfield, if_neg hne, hbits]
    omega
  · rw [mantissa, hexponent, if_neg (by omega), fraction_eq, ofSingleBits_eq, if_neg hfield,
      if_neg hne, hbits, Nat.shiftLeft_eq]
    omega

theorem isNaN_eq_false (h : exponentField x ≠ 2047) : isNaN x = false := by
  simp [isNaN, h]

theorem isInfinite_eq_false (h : exponentField x ≠ 2047) : isInfinite x = false := by
  simp [isInfinite, h]

/-- What a finite lane is rounded to. -/
theorem toSingleBits_eq (h : exponentField x ≠ 2047) {lift : Nat}
    (hlift : scale x + (mantissa x).log2 - 949 = lift) : toSingleBits x = signBit x * 2 ^ 31 +
      min (lift * 2 ^ 23 + roundShift (mantissa x) (lift + 926 - scale x)) 0x7f800000 := by
  simp only [toSingleBits, isNaN_eq_false h, isInfinite_eq_false h, Bool.false_eq_true, if_false,
    hlift, Nat.shiftLeft_eq]

/-- A finite single-precision number other than zero is rounded to itself. -/
theorem toSingleBits_of_mantissa (hn : n < 2 ^ 32) (hfield : n / 2 ^ 23 % 256 ≠ 255)
    (hne : singleMantissa n ≠ 0) : toSingleBits (ofSingleBits n) = n := by
  obtain ⟨hsign, hexponent, hmantissa⟩ := fields_ofSingleBits hn hfield hne
  have hlog := log2_singleMantissa_le hne
  obtain ⟨hlo, hhi⟩ := shifted_bounds hne (by omega)
  have htop : (mantissa (ofSingleBits n)).log2 = 52 := by
    rw [hmantissa]
    exact (Nat.log2_eq_iff (by omega)).2 ⟨hlo, hhi⟩
  have hscale : scale (ofSingleBits n) =
      (singleMantissa n).log2 + max (n / 2 ^ 23 % 256) 1 + 873 := by
    rw [scale, hexponent]
    omega
  by_cases hzero : n / 2 ^ 23 % 256 = 0
  · have hm : singleMantissa n = n % 2 ^ 23 := by rw [singleMantissa, if_pos hzero]
    have hfew : (singleMantissa n).log2 < 23 := (Nat.log2_lt hne).2 (by omega)
    have hlift : scale (ofSingleBits n) + 52 - 949 = 0 := by omega
    have hshift : 926 - scale (ofSingleBits n) = 52 - (singleMantissa n).log2 := by omega
    rw [toSingleBits_eq (by omega) (htop ▸ hlift), hsign, hmantissa, Nat.zero_add, hshift,
      roundShift_mul]
    omega
  · have hm : singleMantissa n = n % 2 ^ 23 + 2 ^ 23 := by rw [singleMantissa, if_neg hzero]
    have hlog : (singleMantissa n).log2 = 23 := (Nat.log2_eq_iff hne).2 ⟨by omega, by omega⟩
    have hlift : scale (ofSingleBits n) + 52 - 949 = n / 2 ^ 23 % 256 - 1 := by omega
    have hshift : n / 2 ^ 23 % 256 - 1 + 926 - scale (ofSingleBits n) =
        52 - (singleMantissa n).log2 := by omega
    have hcode : (n / 2 ^ 23 % 256 - 1) * 2 ^ 23 + singleMantissa n = n % 2 ^ 31 := by
      rw [hm]
      omega
    rw [toSingleBits_eq (by omega) (htop ▸ hlift), hsign, hmantissa, hshift, roundShift_mul, hcode,
      Nat.min_eq_left (by omega)]
    exact Nat.div_add_mod' n _

/-- A single-precision number is rounded to itself. -/
theorem toSingleBits_ofSingleBits (hn : n < 2 ^ 32)
    (h : n / 2 ^ 23 % 256 = 255 → n % 2 ^ 23 = 0) : toSingleBits (ofSingleBits n) = n := by
  by_cases hfield : n / 2 ^ 23 % 256 = 255
  · have hbits : bits (ofSingleBits n) = n / 2 ^ 31 * 2 ^ 63 + 2047 * 2 ^ 52 := by
      rw [ofSingleBits_eq, if_pos hfield, h hfield, Nat.zero_mul, Nat.add_zero]
      exact bits_ofBits (by omega) (by omega)
    have hinf : isInfinite (ofSingleBits n) = true := by
      rw [isInfinite_iff, exponentField_eq, fraction_eq, hbits]
      omega
    have hnan : isNaN (ofSingleBits n) = false := by
      rw [Bool.eq_false_iff, Ne, isNaN_iff, exponentField_eq, fraction_eq, hbits]
      omega
    have hsign : signBit (ofSingleBits n) = n / 2 ^ 31 := by
      rw [signBit_eq, hbits]
      omega
    have := h hfield
    simp only [toSingleBits, hnan, hinf, hsign, Bool.false_eq_true, if_false, if_true,
      Nat.shiftLeft_eq]
    omega
  by_cases hne : singleMantissa n = 0
  · have hbits : bits (ofSingleBits n) = n / 2 ^ 31 * 2 ^ 63 := by
      rw [ofSingleBits_eq, if_neg hfield, if_pos hne]
      exact bits_ofBits (by omega) (by omega)
    have hexponent : exponentField (ofSingleBits n) = 0 := by
      rw [exponentField_eq, hbits]
      omega
    have hmantissa : mantissa (ofSingleBits n) = 0 := by
      rw [mantissa, if_pos hexponent, fraction_eq, hbits]
      omega
    have hscale : scale (ofSingleBits n) = 1 := by rw [scale, hexponent]; rfl
    have hround : roundShift 0 925 = 0 := by decide +kernel
    have hzero : n / 2 ^ 23 % 256 = 0 ∧ n % 2 ^ 23 = 0 := by
      rw [singleMantissa] at hne
      split at hne <;> omega
    rw [toSingleBits_eq (by omega) rfl, hscale, hmantissa, signBit_eq, hbits, Nat.log2_zero]
    simp only [hround]
    omega
  · exact toSingleBits_of_mantissa hn hfield hne

theorem toSingleBits_lt (x : Float) : toSingleBits x < 2 ^ 32 := by
  have hsign : signBit x < 2 := by
    rw [signBit_eq]
    have := bits_lt x
    omega
  simp only [toSingleBits, Nat.shiftLeft_eq]
  split
  · omega
  split
  · omega
  · omega

theorem isNaN_ofSingleBits (hn : n < 2 ^ 32) (h : n / 2 ^ 23 % 256 = 255) (h' : n % 2 ^ 23 ≠ 0) :
    isNaN (ofSingleBits n) = true := by
  rw [isNaN_iff, exponentField_eq, fraction_eq, ofSingleBits_eq, if_pos h,
    bits_ofBits_nan (by omega) (by omega) (by omega)]
  decide

theorem isNaN_roundToSingle (h : isNaN x = true) : isNaN (roundToSingle x) = true := by
  have hx : x = ofBits nanBits := by rw [← bits_of_isNaN h, ofBits_bits]
  subst hx
  decide +kernel

theorem roundToSingle_ofSingleBits (hn : n < 2 ^ 32) :
    roundToSingle (ofSingleBits n) = ofSingleBits n := by
  by_cases h : n / 2 ^ 23 % 256 = 255 → n % 2 ^ 23 = 0
  · rw [roundToSingle, toSingleBits_ofSingleBits hn h]
  · obtain ⟨hfield, hfraction⟩ := Classical.not_imp.1 h
    have hnan := isNaN_ofSingleBits hn hfield hfraction
    exact eq_of_isNaN (isNaN_roundToSingle hnan) hnan

theorem roundToSingle_roundToSingle (x : Float) : roundToSingle (roundToSingle x) = roundToSingle x :=
  roundToSingle_ofSingleBits (toSingleBits_lt x)

end Lane

namespace ElementType

variable {x : Float} {n : Int} {e : ElementType} {bytes : List UInt8}

theorem clampByte_zero : clampByte 0 = 0 := by decide +kernel

theorem clampByte_255 : clampByte 255 = 255 := by decide +kernel

/-- A conversion leaves what it has made. -/
theorem convert_convert (e : ElementType) (x : Float) : e.convert (e.convert x) = e.convert x := by
  cases e with
  | f32 => exact Lane.roundToSingle_roundToSingle x
  | f16 => rfl
  | i64 | i32 => exact Lane.truncate_truncate x
  | u8 =>
    have hzero : Lane.truncate 0 = 0 := by decide +kernel
    have htop : Lane.truncate 255 = 255 := by decide +kernel
    have hwhole := Lane.truncate_truncate x
    simp only [convert]
    generalize Lane.truncate x = y at hwhole
    by_cases hlow : y < 0
    · rw [show clampByte y = 0 from if_pos hlow, hzero, clampByte_zero]
    by_cases hhigh : 255 < y
    · rw [show clampByte y = 255 by rw [clampByte, if_neg hlow, if_pos hhigh], htop, clampByte_255]
    · have hkeep : clampByte y = y := by rw [clampByte, if_neg hlow, if_neg hhigh]
      rw [hkeep, hwhole, hkeep]

/-! ### Elements of tensors -/

theorem natOfBytes_lt (bytes : List UInt8) : natOfBytes bytes < 256 ^ bytes.length := by
  induction bytes with
  | nil => exact Nat.one_pos
  | cons b bytes ih =>
    have := b.toNat_lt
    rw [natOfBytes, List.length_cons, Nat.pow_succ]
    omega

theorem natOfBytes_lt_of_length (h : bytes.length ≤ e.size) : natOfBytes bytes < 256 ^ e.size :=
  Nat.lt_of_lt_of_le (natOfBytes_lt bytes) (Nat.pow_le_pow_right (by decide) h)

theorem decode_of_unsigned (h : e.isSigned = false) : e.decode bytes = natOfBytes bytes := by
  simp [decode, h]

theorem natAbs_decode_le (h : bytes.length ≤ e.size) : (e.decode bytes).natAbs ≤ 256 ^ e.size := by
  have hpow : 1 <<< (8 * bytes.length) = 256 ^ bytes.length := by
    rw [Nat.one_shiftLeft, Nat.pow_mul]
  have hle : 256 ^ bytes.length ≤ 256 ^ e.size := Nat.pow_le_pow_right (by decide) h
  have hlt := natOfBytes_lt bytes
  simp only [decode, hpow]
  split <;> omega

theorem truncate_ofInt (h : n.natAbs ≤ Lane.exactLimit) : Lane.truncate (Lane.ofInt n) = Lane.ofInt n :=
  Lane.truncate_of_isWhole (Lane.isWhole_ofInt h)

theorem clampByte_ofInt : ∀ n : Fin 256, clampByte (Lane.ofInt n.val) = Lane.ofInt n.val := by
  decide +kernel

/-- An element of the type is carried in a lane that its conversion leaves as it is. -/
theorem convert_of_toLane? (hbytes : bytes.length ≤ e.size)
    (h : e.toLane? (e.decode bytes) = some x) : e.convert x = x := by
  have hlt := natOfBytes_lt_of_length hbytes
  cases e with
  | f32 =>
    obtain rfl := Option.some.inj h
    rw [decode_of_unsigned rfl]
    exact Lane.roundToSingle_ofSingleBits hlt
  | f16 => rfl
  | i64 =>
    rw [toLane?] at h
    split at h
    · next hexact =>
      obtain rfl := Option.some.inj h
      exact truncate_ofInt hexact
    · cases h
  | i32 =>
    obtain rfl := Option.some.inj h
    exact truncate_ofInt (Nat.le_trans (natAbs_decode_le hbytes) (by decide))
  | u8 =>
    obtain rfl := Option.some.inj h
    have hexact : Lane.truncate (Lane.ofInt (decode u8 bytes)) = Lane.ofInt (decode u8 bytes) :=
      truncate_ofInt (Nat.le_trans (natAbs_decode_le hbytes) (by decide))
    rw [convert, hexact, decode_of_unsigned rfl]
    exact clampByte_ofInt ⟨natOfBytes bytes, hlt⟩

end ElementType

namespace Tensor

variable {t : Tensor} {xs : List Float}

theorem length_le_of_mem_pieces {α : Type} {size count : Nat} {xs piece : List α}
    (h : piece ∈ pieces size count xs) : piece.length ≤ size := by
  induction count generalizing xs with
  | zero => cases h
  | succ count ih =>
    rw [pieces, List.mem_cons] at h
    obtain rfl | h := h
    · exact List.length_take_le ..
    · exact ih h

/-- The lanes of a tensor hold values of its element type. -/
theorem convert_of_mem_lanes (h : t.lanes = .ok xs) {lane : Float} (hx : lane ∈ xs) :
    t.element.convert lane = lane := by
  rw [lanes] at h
  split at h
  · cases h
  obtain ⟨n, hn, hlane⟩ := Result.exists_of_mem_mapM h hx
  obtain ⟨piece, hpiece, rfl⟩ := List.mem_map.1 hn
  rw [laneOf] at hlane
  split at hlane
  · next hto =>
    obtain rfl := Except.ok.inj hlane
    exact ElementType.convert_of_toLane? (length_le_of_mem_pieces hpiece) hto
  · cases hlane

end Tensor
end BufferFusion
