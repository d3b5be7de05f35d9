import BufferFusion.Proofs.Kernel.Split
import BufferFusion.Proofs.Kernel.Unmoved

/-!
# Where values are moved to

A kernel that moves data answers one value for each index of its output: a permute the one at the
index with its coordinates put back in their places, a crop the one that lies behind by the offsets
of its window, a concatenation that of the one part that the coordinate on the axis falls into.
-/
namespace BufferFusion

open Addressing

theorem Size.reserve_eq_error {bytes count : Nat} (h : capacity bytes < count) :
    reserve bytes count = .error (.fault .capacity) :=
  if_neg (Nat.not_le.2 h)

/-- Every index of the window, moved by its offsets, is inside a box of the given sizes. -/
structure Window.Inside (w : Window) (dims : List Nat) : Prop where
  rank : w.offsets.length = w.sizes.length
  ends : List.Forall₂ (· ≤ ·) (List.zipWith (· + ·) w.offsets w.sizes) dims

theorem Window.Inside.shifted_lt {w : Window} {dims index : List Nat} (h : w.Inside dims)
    (hi : List.Forall₂ (· < ·) index w.sizes) :
    List.Forall₂ (· < ·) (List.zipWith (· + ·) index w.offsets) dims := by
  have hdims := h.ends.length_eq
  have hrank := h.rank
  have hindex := hi.length_eq
  rw [List.length_zipWith] at hdims
  refine List.forall₂_of_length_eq_of_get ?_ fun j hj hj' => ?_
  · rw [List.length_zipWith]
    omega
  · have hends := h.ends.get (by rw [List.length_zipWith]; omega) hj'
    have hlt := hi.get (show j < index.length by omega) (show j < w.sizes.length by omega)
    simp only [List.get_eq_getElem, List.getElem_zipWith] at hends hlt ⊢
    omega

namespace Kernel

variable {xs : List Float} {dims sizes order index index' es : List Nat} {axis c i count : Nat}
  {answer : Result (List Float)} {IsValue : List Nat → Float → Prop} {parts : List Logical}

/-- The answer puts down a value for each index of a box, in row-major order. It is out of room where
there are more of them than one allocation can have. -/
def Tabulates (answer : Result (List Float)) (sizes : List Nat) (IsValue : List Nat → Float → Prop) :
    Prop :=
  ∀ count, Size.product sizes = .ok count →
    (Size.capacity 8 < count → answer = .error (.fault .capacity)) ∧
      (count ≤ Size.capacity 8 → ∃ ys, answer = .ok ys ∧ ys.length = count ∧
        ∀ index, List.Forall₂ (· < ·) index sizes →
          ∃ y, Logical.fetch ⟨ys.toArray, sizes⟩ index = .ok y ∧ IsValue index y)

/-- The entries of a list at some axes, in the order of the axes. -/
def Gathers (order whole gathered : List Nat) : Prop :=
  List.Forall₂ (fun axis n => whole[axis]? = some n) order gathered

/-- The extents before a part, summed up, do not reach beyond a coordinate, and with its own extent
they do. -/
def Slot (es : List Nat) (c i : Nat) : Prop := (es.take i).sum ≤ c ∧ c < (es.take (i + 1)).sum

theorem build_eq_error {α : Type} {f : List Nat → Result α} (hcount : Size.product sizes = .ok count)
    (h : Size.capacity 8 < count) : build sizes f = .error (.fault .capacity) := by
  simp only [build, hcount, Size.reserve_eq_error h, bind, Except.bind]

/-- A table has at each index what its function has there. -/
theorem tabulates_build {f : List Nat → Result Float}
    (h : ∀ index, List.Forall₂ (· < ·) index sizes → ∃ y, f index = .ok y ∧ IsValue index y) :
    Tabulates (build sizes f) sizes IsValue := by
  refine fun count hcount => ⟨build_eq_error hcount, fun hroom => ?_⟩
  obtain ⟨ys, hys⟩ := build_ok hcount (Size.reserve_eq_ok.2 hroom) fun index hi =>
    (h index hi).imp fun y hy => hy.1
  have hlen := (build_eq_ok.1 hys).1
  refine ⟨ys, hys, Except.ok.inj (hlen.symm.trans hcount), fun index hi => ?_⟩
  obtain ⟨y, hy, hvalue⟩ := h index hi
  obtain ⟨z, hz, hf⟩ := entry_of_build hys hi
  obtain rfl := Except.ok.inj (hy.symm.trans hf)
  exact ⟨y, (Logical.fetch_eq_ok hi.length_eq).2 hz, hvalue⟩

/-! ### Permutes -/

theorem gathers_scatter (hn : order.Nodup) (ho : ∀ a ∈ order, a < dims.length)
    (hlen : order.length = index.length) :
    Gathers order (scatter dims.length order index) index := by
  refine List.forall₂_of_length_eq_of_get hlen fun j hj hj' => ?_
  have hget := getElem?_scatter hn ho hlen (List.getElem?_eq_getElem hj)
  rwa [List.getElem?_eq_getElem hj'] at hget

/-- All axes together determine the index. -/
theorem Gathers.unique (hmem : ∀ a, a < dims.length → a ∈ order) (h : Gathers order index sizes)
    (h' : Gathers order index' sizes) (hlen : index.length = dims.length)
    (hlen' : index'.length = dims.length) : index = index' := by
  refine List.ext_getElem? fun a => ?_
  obtain ha | ha := Nat.lt_or_ge a dims.length
  · obtain ⟨j, hj⟩ := List.mem_iff_getElem?.1 (hmem a ha)
    have hlt : j < sizes.length := h.length_eq ▸ (List.getElem?_eq_some_iff.1 hj).1
    have hn := List.getElem?_eq_getElem hlt
    rw [forall₂_getElem? h hj hn, forall₂_getElem? h' hj hn]
  · rw [List.getElem?_eq_none (hlen ▸ ha), List.getElem?_eq_none (hlen' ▸ ha)]

theorem isPermutation_of_perm {rank : Nat} (h : order.Perm (List.range rank)) :
    Infer.isPermutation order = true := by
  have hlen : order.length = rank := by simpa using h.length_eq
  simp only [Infer.isPermutation, Bool.and_eq_true, List.all_eq_true, decide_eq_true_eq]
  exact ⟨fun a ha => hlen ▸ List.mem_range.1 (h.mem_iff.1 ha), h.nodup_iff.2 List.nodup_range⟩

theorem tabulates_permute (hx : xs.length = dims.prod) (hp : order.Perm (List.range dims.length)) :
    ∃ sizes, Gathers order dims sizes ∧
      Tabulates (permute ⟨xs.toArray, dims⟩ order) sizes fun o y => ∃ i,
        (∀ j, j.length = dims.length → (Gathers order j o ↔ j = i)) ∧
          Logical.fetch ⟨xs.toArray, dims⟩ i = .ok y := by
  have hlen : order.length = dims.length := by simpa using hp.length_eq
  have hbij := isPermutation_of_perm hp
  have hbelow := lt_of_isPermutation hbij hlen
  have hsizes := forall₂_getD hbelow
  refine ⟨_, hsizes, ?_⟩
  rw [permute_eq_build hbelow]
  refine tabulates_build fun o hi => ?_
  have hlt := scatter_lt hbij hlen hsizes hi
  have hposition : position (scatter dims.length order o) dims < xs.length := hx ▸ position_lt hlt
  have hfetch := (Logical.fetch_eq_ok hlt.length_eq).2 (List.getElem?_eq_getElem hposition)
  have hgathers := gathers_scatter (hp.nodup_iff.2 List.nodup_range) hbelow
    (hsizes.length_eq.trans hi.length_eq.symm)
  refine ⟨_, hfetch, _, fun j hj => ⟨fun h => ?_, fun h => h ▸ hgathers⟩, hfetch⟩
  exact h.unique (fun a ha => hp.mem_iff.2 (List.mem_range.2 ha)) hgathers hj hlt.length_eq

/-! ### Crops -/

theorem tabulates_crop {w : Window} (hx : xs.length = dims.prod) (hword : xs.length < Size.limit)
    (h : w.Inside dims) :
    Tabulates (crop ⟨xs.toArray, dims⟩ w.offsets w.sizes) w.sizes fun o y =>
      Logical.fetch ⟨xs.toArray, dims⟩ (List.zipWith (· + ·) o w.offsets) = .ok y :=
  tabulates_build fun _ hi =>
    exists_shifted hx (hx ▸ hword) (hi.length_eq.trans h.rank.symm) (h.shifted_lt hi)

/-! ### Concatenations -/

theorem slot_iff : Slot es c i ↔
    ∃ e, es[i]? = some e ∧ (es.take i).sum ≤ c ∧ c < (es.take i).sum + e := by
  rw [Slot]
  cases he : es[i]? with
  | none =>
    have hall := List.getElem?_eq_none_iff.1 he
    rw [List.take_of_length_le hall, List.take_of_length_le (Nat.le_succ_of_le hall)]
    simp only [reduceCtorEq, false_and, exists_false, iff_false]
    omega
  | some e =>
    obtain ⟨hlt, rfl⟩ := List.getElem?_eq_some_iff.1 he
    rw [List.take_succ_eq_append_getElem hlt, List.sum_append, List.sum_singleton]
    simp

theorem Slot.unique (h : Slot es c i) {j : Nat} (hj : Slot es c j) : j = i := by
  obtain ⟨e, he, hlo, hhi⟩ := slot_iff.1 h
  obtain ⟨e', he', hlo', hhi'⟩ := slot_iff.1 hj
  exact Window.slot_unique he he' hlo hhi hlo' hhi'

theorem tabulates_concatenate (hparts : List.Forall₂ (IsPart axis sizes) parts es)
    (hsum : sizes[axis]? = some es.sum) :
    Tabulates (concatenate parts axis sizes) sizes fun o y => ∃ c i part, o[axis]? = some c ∧
      (∀ j, Slot es c j ↔ j = i) ∧ parts[i]? = some part ∧
        part.fetch (o.set axis (c - (es.take i).sum)) = .ok y := by
  refine fun count hcount => ⟨fun hroom => ?_, fun hroom => ?_⟩
  · rw [concatenate, build_eq_error hcount hroom]
    rfl
  obtain ⟨ys, hys, hlen⟩ := concatenate_ok hparts hsum hcount (Size.reserve_eq_ok.2 hroom)
  refine ⟨ys, hys, hlen, fun o hi => ?_⟩
  have haxis : axis < o.length := hi.length_eq ▸ (List.getElem?_eq_some_iff.1 hsum).1
  have hc := List.getElem?_eq_getElem haxis
  -- the part that the coordinate falls into, and the index in it
  obtain ⟨i, e, he, hlo, hhi⟩ := exists_slot (forall₂_getElem? hi hc hsum)
  have hlt : i < parts.length := hparts.length_eq ▸ (List.getElem?_eq_some_iff.1 he).1
  have hpart := List.getElem?_eq_getElem hlt
  obtain ⟨xs, dims, hp, hx, hrank, hentry, hoff⟩ : IsPart axis sizes parts[i] e :=
    forall₂_getElem? hparts hpart he
  have hbelow := (@slice_index _ _ _ _ _ _ _ 0 hi hrank hoff hentry hc hlo hhi).1
  have hvalue := getElem?_concatenate (forall₂_entry hparts) hsum hys hi hc (hp ▸ hpart) hrank he
    hlo hhi
  have hposition : position (o.set axis (o[axis] - (es.take i).sum)) dims < xs.length :=
    hx ▸ position_lt hbelow
  have hy := List.getElem?_eq_getElem hposition
  refine ⟨_, (Logical.fetch_eq_ok hi.length_eq).2 (hvalue.trans hy), _, i, _, hc,
    fun j => ⟨fun hj => ?_, ?_⟩, hpart, ?_⟩
  · exact Slot.unique (slot_iff.2 ⟨e, he, hlo, hhi⟩) hj
  · rintro rfl
    exact slot_iff.2 ⟨e, he, hlo, hhi⟩
  · rw [hp]
    exact (Logical.fetch_eq_ok hbelow.length_eq).2 hy

/-- Three kernels put the values of their inputs at other indices. For as many values as the dims of an
input have indices, of any rank and also where there is none: a permute answers at `o` the value at
the one index whose coordinates, in the order of the axes, are `o`; a crop, whose window is inside the
input, the value at `o` moved by the offsets; and a concatenation the value of the one part that the
coordinate of `o` on the axis falls into, counted from where the part begins. Each answers one value
for each index of its output. -/
theorem moved_values :
    (∀ (xs : List Float) (dims order : List Nat), xs.length = dims.prod →
      order.Perm (List.range dims.length) → ∃ sizes, Gathers order dims sizes ∧
        Tabulates (permute ⟨xs.toArray, dims⟩ order) sizes fun o y => ∃ i,
          (∀ j, j.length = dims.length → (Gathers order j o ↔ j = i)) ∧
            Logical.fetch ⟨xs.toArray, dims⟩ i = .ok y) ∧
    (∀ (xs : List Float) (dims : List Nat) (w : Window), xs.length = dims.prod →
      xs.length < Size.limit → w.Inside dims →
        Tabulates (crop ⟨xs.toArray, dims⟩ w.offsets w.sizes) w.sizes fun o y =>
          Logical.fetch ⟨xs.toArray, dims⟩ (List.zipWith (· + ·) o w.offsets) = .ok y) ∧
    ∀ (parts : List Logical) (es sizes : List Nat) (axis : Nat),
      List.Forall₂ (IsPart axis sizes) parts es → sizes[axis]? = some es.sum →
        Tabulates (concatenate parts axis sizes) sizes fun o y => ∃ c i part, o[axis]? = some c ∧
          (∀ j, Slot es c j ↔ j = i) ∧ parts[i]? = some part ∧
            part.fetch (o.set axis (c - (es.take i).sum)) = .ok y :=
  ⟨fun _ _ _ => tabulates_permute, fun _ _ _ => tabulates_crop,
    fun _ _ _ _ => tabulates_concatenate⟩

/-- Two rows of three turned around, cut after the first row and column, and made of a column and the
other two. -/
theorem moved_values_rows :
    (∃ ys, permute ⟨#[0, 1, 2, 3, 4, 5], [2, 3]⟩ [1, 0] = .ok ys ∧ ys.length = 6 ∧
      Logical.fetch ⟨ys.toArray, [3, 2]⟩ [2, 1] = .ok 5) ∧
    (∃ ys, crop ⟨#[0, 1, 2, 3, 4, 5], [2, 3]⟩ [1, 1] [1, 2] = .ok ys ∧ ys.length = 2 ∧
      Logical.fetch ⟨ys.toArray, [1, 2]⟩ [0, 1] = .ok 5) ∧
    ∃ ys, concatenate [⟨#[0, 3], [2, 1]⟩, ⟨#[1, 2, 4, 5], [2, 2]⟩] 1 [2, 3] = .ok ys ∧
      ys.length = 6 ∧ Logical.fetch ⟨ys.toArray, [2, 3]⟩ [1, 2] = .ok 5 := by
  obtain ⟨hpermute, hcrop, hconcatenate⟩ := moved_values
  refine ⟨?_, ?_, ?_⟩
  · obtain ⟨sizes, hsizes, h⟩ := hpermute [0, 1, 2, 3, 4, 5] [2, 3] [1, 0] rfl (by decide)
    obtain rfl : sizes = [3, 2] := by
      obtain _ | ⟨hrow, _ | ⟨hcolumn, ⟨⟩⟩⟩ := hsizes
      rw [← Option.some.inj hrow, ← Option.some.inj hcolumn]
    obtain ⟨ys, hys, hlen, hall⟩ := (h 6 rfl).2 (by decide)
    obtain ⟨y, hy, i, hi, hvalue⟩ := hall [2, 1] (by decide)
    obtain rfl : [1, 2] = i := (hi [1, 2] rfl).1 (.cons rfl (.cons rfl .nil))
    exact ⟨ys, hys, hlen, hy.trans hvalue.symm⟩
  · have hinside : (⟨[1, 1], [1, 2]⟩ : Window).Inside [2, 3] := ⟨rfl, by decide⟩
    obtain ⟨ys, hys, hlen, hall⟩ := (hcrop [0, 1, 2, 3, 4, 5] [2, 3] ⟨[1, 1], [1, 2]⟩ rfl (by decide)
      hinside 2 rfl).2 (by decide)
    obtain ⟨y, hy, hvalue⟩ := hall [0, 1] (by decide)
    exact ⟨ys, hys, hlen, hy.trans hvalue.symm⟩
  · have hcolumn : IsPart 1 [2, 3] ⟨#[0, 3], [2, 1]⟩ 1 :=
      @isPart_set [0, 3] [2, 3] 1 1 (by decide) rfl
    have hrest : IsPart 1 [2, 3] ⟨#[1, 2, 4, 5], [2, 2]⟩ 2 :=
      @isPart_set [1, 2, 4, 5] [2, 3] 1 2 (by decide) rfl
    obtain ⟨ys, hys, hlen, hall⟩ := (hconcatenate _ [1, 2] [2, 3] 1
      (.cons hcolumn (.cons hrest .nil)) rfl 6 rfl).2 (by decide)
    obtain ⟨y, hy, c, i, part, hc, hslot, hpart, hvalue⟩ := hall [1, 2] (by decide)
    obtain rfl : 2 = c := Option.some.inj hc
    obtain rfl : 1 = i := (hslot 1).1 ⟨by decide, by decide⟩
    obtain rfl := Option.some.inj hpart
    exact ⟨ys, hys, hlen, hy.trans hvalue.symm⟩

end Kernel
end BufferFusion
