import BufferFusion.Proofs.Lane.Convert
import BufferFusion.Proofs.Execution.Supplied

/-!
# Elements of integer types

An element of an integer type comes back from its bytes, which are its digits to the base of 256, and
from its lane, if it has one: every integer up to the exact limit is a lane of its own. So tensors of
integers come back from their bytes and lanes.
-/
namespace BufferFusion

namespace Lane

variable {x : Float} {n s : Nat}

theorem signBit_natBits (hs : s < 2) (hn : n ≠ 0) (h : n.log2 ≤ 52) :
    signBit (ofBits (s * 2 ^ 63 + natBits n)) = s := by
  obtain ⟨hlo, hhi⟩ := shifted_bounds hn h
  rw [signBit_eq, bits_natBits hs hn h, natBits_eq hn h]
  omega

theorem mantissa_natBits (hs : s < 2) (hn : n ≠ 0) (h : n.log2 ≤ 52) :
    mantissa (ofBits (s * 2 ^ 63 + natBits n)) = n * 2 ^ (52 - n.log2) := by
  obtain ⟨hlo, hhi⟩ := shifted_bounds hn h
  have hfield := exponentField_natBits hs hn h
  rw [mantissa, if_neg (by omega), fraction_eq, bits_natBits hs hn h, natBits_eq hn h]
  omega

/-- The magnitude of a number, without what is behind the point. -/
def whole (x : Float) : Nat :=
  if 1075 ≤ scale x then mantissa x <<< (scale x - 1075) else mantissa x >>> (1075 - scale x)

theorem toIntIn_eq {lo hi : Int} (h : isNaN x = false) :
    toIntIn lo hi x = max lo (min hi (if signBit x = 0 then (whole x : Int) else -whole x)) := by
  rw [toIntIn, h]
  rfl

theorem whole_natBits (hs : s < 2) (hn : n ≠ 0) (h : n.log2 ≤ 52) :
    whole (ofBits (s * 2 ^ 63 + natBits n)) = n := by
  have hscale : scale (ofBits (s * 2 ^ 63 + natBits n)) = n.log2 + 1023 := by
    rw [scale, exponentField_natBits hs hn h]
    omega
  rw [whole, hscale, mantissa_natBits hs hn h]
  split
  · obtain hlog : n.log2 = 52 := by omega
    rw [hlog]
    exact Nat.mul_one n
  · rw [show 1075 - (n.log2 + 1023) = 52 - n.log2 by omega, Nat.shiftRight_eq_div_pow]
    exact Nat.mul_div_cancel n (Nat.two_pow_pos _)

/-- The lane of an integer is its sign and its magnitude. -/
theorem fields_ofInt {n : Int} (h : n.natAbs ≤ exactLimit) :
    isNaN (ofInt n) = false ∧ signBit (ofInt n) = signOf n ∧ whole (ofInt n) = n.natAbs := by
  obtain rfl | rfl | rfl | ⟨hne, hlog, hbits⟩ := ofInt_cases h
  · decide +kernel
  · decide +kernel
  · decide +kernel
  · rw [hbits]
    have hfield := exponentField_natBits (signOf_lt n) hne hlog
    exact ⟨isNaN_eq_false (by omega), signBit_natBits (signOf_lt n) hne hlog,
      whole_natBits (signOf_lt n) hne hlog⟩

/-- An integer comes back from its lane. -/
theorem toIntIn_ofInt {lo hi n : Int} (h : n.natAbs ≤ exactLimit) (hlo : lo ≤ n) (hhi : n ≤ hi) :
    toIntIn lo hi (ofInt n) = n := by
  obtain ⟨hnan, hsign, hwhole⟩ := fields_ofInt h
  have hsigned : (if signBit (ofInt n) = 0 then (whole (ofInt n) : Int) else -whole (ofInt n)) = n := by
    rw [hsign, hwhole, signOf]
    by_cases hneg : n < 0
    · rw [if_pos hneg, if_neg Nat.one_ne_zero]
      omega
    · rw [if_neg hneg, if_pos rfl]
      omega
  rw [toIntIn_eq hnan, hsigned, min_eq_right hhi, max_eq_right hlo]

end Lane

namespace ElementType

variable {e : ElementType} {n : Int}

/-- The integers that are elements of a type, in two's complement where it is signed. -/
def Holds (e : ElementType) (n : Int) : Prop :=
  if e.isSigned then -2 ^ (8 * e.size - 1) ≤ n ∧ n < 2 ^ (8 * e.size - 1)
  else 0 ≤ n ∧ n < 2 ^ (8 * e.size)

/-- The last digit of a remainder, and the digits before it. -/
theorem emod_256_mul (n m : Int) : n % (256 * m) = n % 256 + 256 * (n / 256 % m) := by
  rw [Int.emod_def n (256 * m), Int.emod_def (n / 256), ← Int.ediv_ediv_of_nonneg (by decide),
    Int.mul_assoc]
  omega

/-- Bytes keep what fits them of an integer. -/
theorem natOfBytes_bytesOf (width : Nat) (n : Int) :
    (natOfBytes (bytesOf width n) : Int) = n % 256 ^ width := by
  induction width generalizing n with
  | zero => simp [bytesOf, natOfBytes]
  | succ width ih =>
    have hlow : (n % 256).toNat < UInt8.size := by
      rw [UInt8.size]
      omega
    rw [bytesOf, natOfBytes, UInt8.toNat_ofNat_of_lt' hlow]
    push_cast
    rw [ih, pow_succ', Int.toNat_of_nonneg (by omega), emod_256_mul]

/-- An element comes back from its bytes. -/
theorem decode_encode (h : e.Holds n) : e.decode (e.encode n) = n := by
  have hbytes := natOfBytes_bytesOf e.size n
  rw [decode, length_encode, Nat.one_shiftLeft, encode]
  simp only [Bool.and_eq_true, decide_eq_true_eq]
  cases e with
  | i64 | i32 =>
    -- the upper half of the words stands for the negative numbers
    simp only [Holds, isSigned, size, if_true, true_and] at h hbytes ⊢
    split <;> omega
  | f32 | f16 | u8 =>
    simp only [Holds, isSigned, size, Bool.false_eq_true, false_and, if_false] at h hbytes ⊢
    omega

theorem ne_f16 (hint : e.isFloat = false) : e ≠ .f16 := by
  rintro rfl
  cases hint

/-- Of the integers only those beyond the exact limit have no lane. -/
theorem toLane?_eq_none (hint : e.isFloat = false) :
    e.toLane? n = none ↔ e = .i64 ∧ 2 ^ 53 < n.natAbs := by
  have hlimit : Lane.exactLimit = 2 ^ 53 := rfl
  cases e <;> simp_all [isFloat, toLane?]

/-- An element comes back from its lane. -/
theorem ofLane_of_toLane? (hint : e.isFloat = false) (h : e.Holds n) {x : Float}
    (hx : e.toLane? n = some x) : e.ofLane x = n := by
  have hlimit : Lane.exactLimit = 2 ^ 53 := rfl
  cases e with
  | f32 | f16 => cases hint
  | i64 =>
    rw [toLane?] at hx
    split at hx
    · next hexact =>
      obtain rfl := Option.some.inj hx
      exact Lane.toIntIn_ofInt hexact h.1 (Int.le_of_lt_add_one h.2)
    · cases hx
  | i32 =>
    obtain rfl := Option.some.inj hx
    simp only [Holds, isSigned, size, if_true] at h
    exact Lane.toIntIn_ofInt (by omega) h.1 (Int.le_of_lt_add_one h.2)
  | u8 =>
    obtain rfl := Option.some.inj hx
    simp only [Holds, isSigned, size, Bool.false_eq_true, if_false] at h
    exact Lane.toIntIn_ofInt (by omega) h.1 (Int.le_of_lt_add_one h.2)

end ElementType

theorem pieces_flatMap {α β : Type} {size : Nat} {f : α → List β} {xs : List α}
    (hlen : ∀ x ∈ xs, (f x).length = size) : pieces size xs.length (xs.flatMap f) = xs.map f := by
  induction xs with
  | nil => rfl
  | cons x xs ih =>
    rw [List.forall_mem_cons] at hlen
    rw [List.length_cons, List.flatMap_cons, pieces, List.take_left' hlen.1, List.drop_left' hlen.1,
      ih hlen.2, List.map_cons]

/-- The sizes of a shape can be multiplied where a list fills it, unless the list is empty. -/
theorem Size.product_of_fits {α : Type} {xs : List α} {shape : List Nat} (hlen : shape.prod = xs.length)
    (hword : xs.length < limit) (hfits : xs = [] → product shape ≠ .error (.fault .overflow)) :
    product shape = .ok xs.length := by
  by_cases hempty : xs = []
  · obtain ⟨n, hn⟩ := (product_onlyOverflow shape).eq_ok (hfits hempty)
    rw [hn, ← hlen, prod_of_product hn]
  · have hne : shape.prod ≠ 0 := by
      rw [hlen]
      exact fun h => hempty (List.length_eq_zero_iff.1 h)
    rw [product_of_prod_ne_zero hne (hlen ▸ hword), hlen]

namespace Tensor

variable {element : ElementType} {ns : List Int} {shape : List Nat} {lanes : List Float}

/-- Elements come back from their bytes. -/
theorem elements_of_encode (h : ∀ n ∈ ns, element.Holds n) :
    elements ⟨shape, element, ns.flatMap element.encode⟩ = ns := by
  have hpieces : pieces element.size ns.length (ns.flatMap element.encode) = ns.map element.encode :=
    pieces_flatMap fun n _ => element.length_encode n
  have hback : ∀ n ∈ ns, (element.decode ∘ element.encode) n = id n := fun n hn =>
    ElementType.decode_encode (h n hn)
  have hlen := length_flatMap_encode element id ns
  simp only [id] at hlen
  simp only [elements, hlen, Nat.mul_div_cancel _ element.size_pos, hpieces, List.map_map]
  rw [List.map_congr_left hback, List.map_id]

theorem laneOf_eq_ok {n : Int} {x : Float} :
    laneOf element n = .ok x ↔ element.toLane? n = some x := by
  rw [laneOf]
  split <;> simp_all

/-- Lanes are stored as the elements they were read from. -/
theorem map_ofLane (hint : element.isFloat = false) (hheld : ∀ n ∈ ns, element.Holds n)
    (h : ns.mapM (laneOf element) = .ok lanes) : lanes.map element.ofLane = ns := by
  have hall : List.Forall₂ (fun n x => element.Holds n ∧ laneOf element n = .ok x) ns lanes :=
    (List.forall₂_and_left ..).2 ⟨hheld, Result.mapM_eq_ok.1 h⟩
  refine (List.forall₂_eq_eq_eq ▸ List.forall₂_map_right_iff.2 (hall.imp ?_) : ns = _).symm
  rintro n x ⟨hn, hx⟩
  exact (ElementType.ofLane_of_toLane? hint hn (laneOf_eq_ok.1 hx)).symm

/-- One element without a lane fails them all. -/
theorem exists_mapM_laneOf_eq_error (hint : element.isFloat = false) :
    (∃ e, ns.mapM (laneOf element) = .error e) ↔ element = .i64 ∧ ∃ n ∈ ns, 2 ^ 53 < n.natAbs := by
  constructor
  · rintro ⟨e, he⟩
    by_contra hnone
    have hlane : ∀ n ∈ ns, ∃ x, laneOf element n = .ok x := by
      intro n hn
      have hsome : element.toLane? n ≠ none := fun h =>
        have ⟨hi64, hfar⟩ := (ElementType.toLane?_eq_none hint).1 h
        hnone ⟨hi64, n, hn, hfar⟩
      obtain ⟨x, hx⟩ := Option.ne_none_iff_exists'.1 hsome
      exact ⟨x, laneOf_eq_ok.2 hx⟩
    obtain ⟨xs, hxs⟩ := Result.exists_mapM hlane
    cases he.symm.trans hxs
  · rintro ⟨hi64, n, hn, hfar⟩
    have hnone := (ElementType.toLane?_eq_none hint).2 ⟨hi64, hfar⟩
    cases hx : ns.mapM (laneOf element) with
    | error e => exact ⟨e, rfl⟩
    | ok xs =>
      obtain ⟨i, hi, rfl⟩ := List.mem_iff_getElem.1 hn
      have hall := Result.mapM_eq_ok.1 hx
      have hlane := laneOf_eq_ok.1 (hall.get hi (hall.length_eq ▸ hi))
      simp [hnone] at hlane

/-- A list whose length is that of a shape fills it, unless it is empty and the sizes overflow. -/
theorem ofElements_eq_ok (hlen : shape.prod = ns.length) (hword : ns.length < Size.limit)
    (hfits : ns = [] → Size.product shape ≠ .error (.fault .overflow)) :
    ofElements element ns shape = .ok ⟨shape, element, ns.flatMap element.encode⟩ := by
  rw [ofElements, Size.product_of_fits hlen hword hfits]
  exact if_pos rfl

/-- Lanes of integers that were read from a shape are stored in it as the same bytes. -/
theorem ofLanes_eq_ok (hint : element.isFloat = false) (hback : lanes.map element.ofLane = ns)
    (hproduct : Size.product shape = .ok ns.length) :
    ofLanes lanes shape element = .ok ⟨shape, element, ns.flatMap element.encode⟩ := by
  obtain rfl := hback
  rw [List.length_map] at hproduct
  rw [ofLanes, hproduct, List.flatMap_map]
  exact (if_neg (not_not.2 rfl)).trans (if_neg (ElementType.ne_f16 hint))

/-- Integers come back from the bytes of their tensor, and from its lanes where all of them have one. -/
theorem integers_back (hint : element.isFloat = false) (hheld : ∀ n ∈ ns, element.Holds n)
    (hlen : shape.prod = ns.length) (hword : ns.length < Size.limit)
    (hfits : ns = [] → Size.product shape ≠ .error (.fault .overflow)) :
    ∃ t, ofElements element ns shape = .ok t ∧ t.elementsAs element = .ok ns ∧
      t.bytes.length = ns.length * element.size ∧
      ((∃ e, t.lanes = .error e) ↔ element = .i64 ∧ ∃ n ∈ ns, 2 ^ 53 < n.natAbs) ∧
      ∀ lanes, t.lanes = .ok lanes → ofLanes lanes shape element = .ok t := by
  have hproduct := Size.product_of_fits hlen hword hfits
  have helements : elements ⟨shape, element, ns.flatMap element.encode⟩ = ns :=
    elements_of_encode hheld
  have hlanes : lanes ⟨shape, element, ns.flatMap element.encode⟩ = ns.mapM (laneOf element) := by
    rw [lanes, if_neg (ElementType.ne_f16 hint), helements]
  refine ⟨_, ofElements_eq_ok hlen hword hfits, ?_, length_flatMap_encode element id ns, ?_, ?_⟩
  · rw [elementsAs, if_pos rfl, helements]
  · rw [hlanes]
    exact exists_mapM_laneOf_eq_error hint
  · intro lanes h
    exact ofLanes_eq_ok hint (map_ofLane hint hheld (hlanes ▸ h)) hproduct

theorem integers_back_exactLimit : ElementType.i64.isFloat = false ∧
    (∀ n ∈ [2 ^ 53, -2 ^ 53, -1], ElementType.i64.Holds n) ∧ [3, 1].prod = 3 ∧
    ∃ t, ofElements .i64 [2 ^ 53, -2 ^ 53, -1] [3, 1] = .ok t ∧
      t.elementsAs .i64 = .ok [2 ^ 53, -2 ^ 53, -1] ∧ t.bytes.length = 3 * 8 ∧
      ((∃ e, t.lanes = .error e) ↔
        ElementType.i64 = .i64 ∧ ∃ n ∈ [2 ^ 53, -2 ^ 53, -1], 2 ^ 53 < n.natAbs) ∧
      ∀ lanes, t.lanes = .ok lanes → ofLanes lanes [3, 1] .i64 = .ok t :=
  have hheld : ∀ n ∈ [2 ^ 53, -2 ^ 53, -1], ElementType.i64.Holds n := by
    simp [ElementType.Holds, ElementType.isSigned, ElementType.size]
  ⟨rfl, hheld, rfl, integers_back rfl hheld rfl (by decide) (by simp)⟩

/-- An empty list does not fill a shape whose sizes overflow before the zero. -/
theorem not_integers_back_vast : [2 ^ 32, 2 ^ 32, 0].prod = ([] : List Int).length ∧
    ¬∃ t, ofElements .i64 [] [2 ^ 32, 2 ^ 32, 0] = .ok t := by
  have hfault : ofElements .i64 [] [2 ^ 32, 2 ^ 32, 0] = .error (.fault .overflow) := by
    decide +kernel
  rw [hfault]
  exact ⟨rfl, fun ⟨_, h⟩ => by cases h⟩

end Tensor
end BufferFusion
