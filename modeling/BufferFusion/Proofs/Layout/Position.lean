import Mathlib.Algebra.BigOperators.Group.List.Lemmas
import BufferFusion.Proofs.Layout.Addressing

/-!
# Positions

Offsets as positions in a box. Blocks are counted in row-major order, then the elements inside a
block. So an element of the layout lies inside its buffer, and two coordinates in buffers of the
same dims have the same offset only if they are the same.
-/
namespace BufferFusion

theorem forall₂_modify {α β : Type} {R : α → β → Prop} {as : List α} {bs : List β}
    {f : α → α} {g : β → β} (h : List.Forall₂ R as bs) (hfg : ∀ a b, R a b → R (f a) (g b))
    (k : Nat) : List.Forall₂ R (as.modify k f) (bs.modify k g) := by
  induction h generalizing k with
  | nil => cases k <;> exact .nil
  | cons hab hrest ih =>
    cases k with
    | zero => exact .cons (hfg _ _ hab) hrest
    | succ k => exact .cons hab (ih k)

namespace Addressing

/-- The row-major position of coordinates in a box. -/
def position : List Nat → List Nat → Nat
  | c :: coords, _ :: dims => c * dims.prod + position coords dims
  | _, _ => 0

variable {coords coords' dims : List Nat} {block : Option (Nat × Nat)} {axis inner size : Nat}

theorem position_lt (h : List.Forall₂ (· < ·) coords dims) : position coords dims < dims.prod := by
  induction h with
  | nil => exact Nat.one_pos
  | @cons c d coords dims hlt _ ih =>
    have hrow : (c + 1) * dims.prod ≤ d * dims.prod := Nat.mul_le_mul_right _ hlt
    rw [Nat.succ_mul] at hrow
    rw [position, List.prod_cons]
    omega

/-- Different coordinates in a box have different positions. -/
theorem position_injective (h : List.Forall₂ (· < ·) coords dims)
    (h' : List.Forall₂ (· < ·) coords' dims)
    (he : position coords dims = position coords' dims) : coords = coords' := by
  induction h generalizing coords' with
  | nil =>
    cases h'
    rfl
  | @cons c d coords dims _ hrest ih =>
    cases h' with
    | @cons c' _ coords' _ _ hrest' =>
      have hlt := position_lt hrest
      have hlt' := position_lt hrest'
      have hpos : 0 < dims.prod := by omega
      simp only [position] at he
      have hrow : c = c' := by
        have := congrArg (· / dims.prod) he
        simpa only [Nat.mul_comm _ dims.prod, Nat.mul_add_div hpos, Nat.div_eq_of_lt hlt,
          Nat.div_eq_of_lt hlt', Nat.add_zero] using this
      subst hrow
      rw [ih hrest' (by omega)]

theorem cell_plain (axis inner : Nat) (coords dims : List Nat) :
    cell none axis coords (strideList inner dims) = inner * position coords dims := by
  induction coords generalizing axis dims with
  | nil => cases dims <;> rfl
  | cons c coords ih =>
    cases dims with
    | nil => rfl
    | cons d dims =>
      simp only [strideList, cell, part, position, ih]
      rw [Nat.mul_add, Nat.mul_left_comm]

/-- Behind the blocked axis coordinates count as on a plain one. -/
theorem cell_behind {b : Nat} (h : b < axis) (ss : List Nat) :
    cell (some (b, size)) axis coords ss = cell none axis coords ss := by
  induction coords generalizing axis ss with
  | nil => rfl
  | cons c coords ih =>
    cases ss with
    | nil => rfl
    | cons s ss =>
      simp only [cell, part]
      rw [if_neg (by omega), ih (by omega)]

theorem cell_blocked {k : Nat} (hk : k < coords.length) (hlen : coords.length = dims.length) :
    cell (some (axis + k, size)) axis coords (strideList inner dims) =
      inner * position (coords.modify k (· / size)) dims + coords[k] % size := by
  induction coords generalizing axis k dims with
  | nil => simp at hk
  | cons c coords ih =>
    cases dims with
    | nil => simp at hlen
    | cons d dims =>
      cases k with
      | zero =>
        simp only [Nat.add_zero, strideList, cell, part, if_pos]
        rw [cell_behind (Nat.lt_succ_self axis), cell_plain, List.modify_zero_cons]
        simp only [position, List.getElem_cons_zero]
        rw [Nat.mul_add, Nat.mul_left_comm]
        omega
      | succ k =>
        have hk' : k < coords.length := by simpa using hk
        have haxis : axis + (k + 1) = axis + 1 + k := by omega
        simp only [strideList, cell, part]
        rw [if_neg (by omega), haxis, ih hk' (by simpa using hlen), List.modify_succ_cons]
        simp only [position, List.getElem_cons_succ]
        rw [Nat.mul_add, Nat.mul_left_comm]
        omega

/-- Where in its block an element lies. -/
def blockElement (block : Option (Nat × Nat)) (coords : List Nat) : Nat :=
  match block with
  | some (axis, size) => coords[axis]?.getD 0 % size
  | none => 0

/-- The blocked axis is one of the axes, and blocks are not empty. -/
def Fits (block : Option (Nat × Nat)) (rank : Nat) : Prop :=
  ∀ axis size, block = some (axis, size) → axis < rank ∧ 0 < size

theorem blockElement_lt (hb : Fits block coords.length) :
    blockElement block coords < Layout.blockSize block := by
  cases block with
  | none => exact Nat.one_pos
  | some b => exact Nat.mod_lt _ (hb b.1 b.2 rfl).2

theorem cell_eq (hb : Fits block coords.length) (hlen : coords.length = dims.length) :
    cell block 0 coords (strideList (Layout.blockSize block) dims) =
      Layout.blockSize block * position (Layout.outerDims block coords) dims +
        blockElement block coords := by
  cases block with
  | none => exact cell_plain ..
  | some b =>
    obtain ⟨axis, size⟩ := b
    have hlt := (hb axis size rfl).1
    have := @cell_blocked coords dims 0 size size axis hlt hlen
    rw [Nat.zero_add] at this
    rw [Layout.blockSize, this, Layout.outerDims, blockElement, List.getElem?_eq_getElem hlt,
      Option.getD_some]

theorem cell_lt (hb : Fits block coords.length)
    (h : List.Forall₂ (· < ·) (Layout.outerDims block coords) dims) :
    cell block 0 coords (strideList (Layout.blockSize block) dims) <
      Layout.blockSize block * dims.prod := by
  have hlen : coords.length = dims.length := by simpa using h.length_eq
  have hrow := Nat.mul_le_mul_left (Layout.blockSize block) (position_lt h)
  have hrest := blockElement_lt hb
  rw [Nat.mul_succ] at hrow
  rw [cell_eq hb hlen]
  omega

/-- Different coordinates have different offsets. -/
theorem cell_injective (hb : Fits block dims.length)
    (h : List.Forall₂ (· < ·) (Layout.outerDims block coords) dims)
    (h' : List.Forall₂ (· < ·) (Layout.outerDims block coords') dims)
    (he : cell block 0 coords (strideList (Layout.blockSize block) dims) =
      cell block 0 coords' (strideList (Layout.blockSize block) dims)) : coords = coords' := by
  have hlen : coords.length = dims.length := by simpa using h.length_eq
  have hlen' : coords'.length = dims.length := by simpa using h'.length_eq
  have hlt := blockElement_lt (hlen ▸ hb : Fits block coords.length)
  have hlt' := blockElement_lt (hlen' ▸ hb : Fits block coords'.length)
  rw [cell_eq (hlen ▸ hb) hlen, cell_eq (hlen' ▸ hb) hlen'] at he
  have hpos : 0 < Layout.blockSize block := by omega
  have hposition : position (Layout.outerDims block coords) dims =
      position (Layout.outerDims block coords') dims := by
    have := congrArg (· / Layout.blockSize block) he
    simpa [Nat.mul_add_div hpos, Nat.div_eq_of_lt hlt, Nat.div_eq_of_lt hlt'] using this
  have houter := position_injective h h' hposition
  have helement : blockElement block coords = blockElement block coords' := by
    rw [hposition] at he
    omega
  cases block with
  | none => exact houter
  | some b =>
    obtain ⟨axis, size⟩ := b
    have haxis := (hb axis size rfl).1
    refine List.ext_getElem (hlen.trans hlen'.symm) fun i hi hi' => ?_
    have hget := congrArg (·[i]?) houter
    simp only [Layout.outerDims, List.getElem?_modify, List.getElem?_eq_getElem hi,
      List.getElem?_eq_getElem hi'] at hget
    by_cases hax : axis = i
    · subst hax
      simp only [blockElement, List.getElem?_eq_getElem hi, List.getElem?_eq_getElem hi',
        Option.getD_some] at helement
      have hdiv : coords[axis] / size = coords'[axis] / size := by simpa using hget
      rw [← Nat.div_add_mod coords[axis] size, ← Nat.div_add_mod coords'[axis] size, hdiv, helement]
    · simpa [hax] using hget

end Addressing

namespace Layout

variable {l : Layout} {index sizes stored coords dims : List Nat} {block : Option (Nat × Nat)}

/-- The logical indices of a layout. -/
def HasIndex (l : Layout) (index : List Nat) : Prop :=
  ∃ sizes, l.shape.sizes? = some sizes ∧ List.Forall₂ (· < ·) index sizes

theorem fits_block (hv : l.isValid = true) : Addressing.Fits l.format.block? l.rank := by
  intro axis size hb
  obtain ⟨hf, rfl, rfl⟩ := Format.block?_eq_some.1 hb
  have hrank := (isValid_iff.1 hv).1
  rw [hf] at hrank
  have : l.rank = 4 := by simpa [Format.holdsRank, Format.maxRank] using hrank
  omega

/-- An index lies inside the padding. -/
theorem coords_lt (hi : List.Forall₂ (· < ·) index sizes) {axes : List AxisPadding}
    (hlen : sizes.length ≤ axes.length) :
    List.Forall₂ (· < ·) (List.zipWith (· + ·) index (axes.map (·.lower)))
      (paddedSizes sizes axes) := by
  induction hi generalizing axes with
  | nil => exact .nil
  | cons hlt _ ih =>
    cases axes with
    | nil => simp at hlen
    | cons b axes =>
      refine .cons ?_ (ih (by simpa using hlen))
      dsimp only
      omega

theorem lt_wholeBlocks (h : List.Forall₂ (· < ·) coords dims)
    (hb : Addressing.Fits block dims.length) :
    List.Forall₂ (· < ·) coords (wholeBlocks block dims) := by
  cases block with
  | none => exact h
  | some b =>
    obtain ⟨axis, size⟩ := b
    have hpos := (hb axis size rfl).2
    rw [wholeBlocks, ← List.modify_id axis coords]
    refine forall₂_modify h (fun c n hlt => ?_) axis
    have hround := Nat.div_add_mod (n + size - 1) size
    have hmod := Nat.mod_lt (n + size - 1) hpos
    rw [Nat.mul_comm]
    simp only [id]
    omega

/-- Whole blocks before a coordinate are fewer than those of its axis. -/
theorem outerDims_lt (h : List.Forall₂ (· < ·) coords dims)
    (hb : Addressing.Fits block dims.length) :
    List.Forall₂ (· < ·) (outerDims block coords) (outerDims block (wholeBlocks block dims)) := by
  cases block with
  | none => exact h
  | some b =>
    obtain ⟨axis, size⟩ := b
    have hpos := (hb axis size rfl).2
    rw [outerDims, outerDims, wholeBlocks, List.modify_modify_eq]
    refine forall₂_modify h (fun c n hlt => ?_) axis
    simp only [Function.comp]
    rw [Nat.mul_div_cancel _ hpos, Nat.div_lt_iff_lt_mul hpos]
    have hround := Nat.div_add_mod (n + size - 1) size
    have hmod := Nat.mod_lt (n + size - 1) hpos
    rw [Nat.mul_comm]
    omega

theorem prod_modify {f g : Nat → Nat} {c k : Nat} (hk : k < dims.length)
    (h : ∀ n, f n = c * g n) : (dims.modify k f).prod = c * (dims.modify k g).prod := by
  induction dims generalizing k with
  | nil => simp at hk
  | cons d dims ih =>
    cases k with
    | zero => simp only [List.modify_zero_cons, List.prod_cons, h, Nat.mul_assoc]
    | succ k =>
      simp only [List.modify_succ_cons, List.prod_cons]
      rw [ih (by simpa using hk), Nat.mul_left_comm]

/-- A buffer is made of whole blocks. -/
theorem prod_wholeBlocks (hb : Addressing.Fits block dims.length) :
    (wholeBlocks block dims).prod =
      blockSize block * (outerDims block (wholeBlocks block dims)).prod := by
  cases block with
  | none => exact (Nat.one_mul _).symm
  | some b =>
    obtain ⟨axis, size⟩ := b
    obtain ⟨haxis, hpos⟩ := hb axis size rfl
    rw [outerDims, wholeBlocks, List.modify_modify_eq]
    refine prod_modify haxis fun n => ?_
    simp only [Function.comp, blockSize]
    rw [Nat.mul_div_cancel _ hpos, Nat.mul_comm]

/-- Nothing overflows on the way to strides of a box that is not empty and fits. -/
theorem stridesOf_of_fits {inner : Nat} (hpos : ∀ d ∈ dims, 0 < d)
    (hfits : inner * dims.prod < Size.limit) :
    Addressing.stridesOf inner dims = .ok (Addressing.strideList inner dims, inner * dims.prod) := by
  induction dims with
  | nil => simp [Addressing.stridesOf, Addressing.strideList]
  | cons d dims ih =>
    rw [List.forall_mem_cons] at hpos
    rw [List.prod_cons, Nat.mul_left_comm] at hfits
    have hrest : inner * dims.prod ≤ d * (inner * dims.prod) := Nat.le_mul_of_pos_left _ hpos.1
    simp only [Addressing.stridesOf, ih hpos.2 (by omega), Addressing.strideList, Result.bind_eq_ok]
    refine ⟨_, rfl, _, Size.mul_eq_ok.2 ⟨rfl, ?_⟩, ?_⟩
    · rwa [Nat.mul_comm]
    · rw [List.prod_cons, Nat.mul_left_comm, Nat.mul_comm d]
      rfl

theorem pos_of_lt (h : List.Forall₂ (· < ·) coords dims) : ∀ d ∈ dims, 0 < d := by
  induction h with
  | nil => simp
  | cons hlt _ ih =>
    rw [List.forall_mem_cons]
    exact ⟨by omega, ih⟩

/-- What a footprint and an index of a layout say about its addresses. -/
theorem addressing_of_hasIndex (hv : l.isValid = true) {n : Nat} (hf : l.footprint = .ok n)
    (hi : l.HasIndex index) : ∃ sizes stored a, l.addressing = .ok a ∧ Addressed l sizes stored a ∧
      n = stored.prod ∧ n < Size.limit ∧ List.Forall₂ (· < ·) (a.coords index) stored ∧
      List.Forall₂ (· < ·) (outerDims l.format.block? (a.coords index))
        (outerDims l.format.block? stored) := by
  obtain ⟨sizes, hs, hlt⟩ := hi
  obtain ⟨stored, hst, hprod⟩ := Result.bind_eq_ok.1 hf
  obtain ⟨sizes', hs', hd, hlen, rfl⟩ := storedDims_eq_ok hst
  obtain rfl := Option.some.inj (hs.symm.trans hs')
  have hlimit := Size.lt_of_product hprod
  obtain rfl := Size.prod_of_product hprod
  have hrank : (paddedSizes sizes l.padding.axes).length = l.rank := by
    have := length_stored hv hs
    rwa [length_wholeBlocks] at this
  have hb : Addressing.Fits l.format.block? (paddedSizes sizes l.padding.axes).length :=
    hrank ▸ fits_block hv
  have hcoords := coords_lt hlt hlen
  have houter := outerDims_lt hcoords hb
  have hfits := hlimit
  rw [prod_wholeBlocks hb] at hfits
  have hstrides := stridesOf_of_fits (pos_of_lt houter) hfits
  refine ⟨sizes, _, ⟨l.padding.lower, _, l.format.block?⟩, ?_, ⟨hs, hd, rfl, rfl, rfl, rfl,
    fun _ => hfits⟩, rfl, hlimit, lt_wholeBlocks hcoords hb, houter⟩
  refine Result.bind_eq_ok.2 ⟨_, hst, ?_⟩
  simp only [block_filter hv (length_stored hv hs)]
  cases hblock : l.format.block? with
  | none =>
    rw [hblock] at hstrides
    exact Result.bind_eq_ok.2 ⟨_, hstrides, rfl⟩
  | some b =>
    rw [hblock] at hstrides
    exact Result.bind_eq_ok.2 ⟨_, hstrides, rfl⟩

/-- The element at a logical index has an offset inside the buffer. -/
theorem offset_lt (hv : l.isValid = true) {n : Nat} (hf : l.footprint = .ok n)
    (hi : l.HasIndex index) : ∃ o, l.offset index = .ok o ∧ o < n := by
  obtain ⟨sizes, stored, a, ha, k, rfl, hlimit, hcoords, houter⟩ := addressing_of_hasIndex hv hf hi
  have hrank : stored.length = l.rank := by rw [k.stored_eq, length_stored hv k.sizes_eq]
  have hindex : index.length = l.rank := by
    obtain ⟨sizes', hs', hlt⟩ := hi
    rw [hlt.length_eq, length_sizes hs', Layout.rank]
  have hlower := k.length_lower hv
  have hstrides := k.length_strides hv
  have hb : Addressing.Fits l.format.block? (a.coords index).length := by
    rw [hcoords.length_eq, hrank]
    exact fits_block hv
  have hlt := Addressing.cell_lt hb houter
  have hprod : blockSize l.format.block? * (outerDims l.format.block? stored).prod =
      stored.prod := by
    have hpadded : Addressing.Fits l.format.block? (paddedSizes sizes l.padding.axes).length := by
      have := length_stored hv k.sizes_eq
      rw [length_wholeBlocks] at this
      exact this ▸ fits_block hv
    rw [k.stored_eq]
    exact (prod_wholeBlocks hpadded).symm
  rw [hprod] at hlt
  have hsmall : ∀ c ∈ a.coords index, c < Size.limit := by
    intro c hc
    obtain ⟨i, hi, rfl⟩ := List.mem_iff_getElem.1 hc
    have hi' : i < stored.length := hcoords.length_eq ▸ hi
    have hdim := hcoords.get hi hi'
    have hmem : stored[i] ∣ stored.prod := List.dvd_prod (List.getElem_mem hi')
    have hpos : 0 < stored.prod := by omega
    have := Nat.le_of_dvd hpos hmem
    simp only [List.get_eq_getElem] at hdim
    omega
  refine ⟨_, ?_, hlt⟩
  have hoffset := @Addressing.offsetFrom_of_lt a 0 0 index (by omega) (by omega) hsmall ?_
  · rw [Nat.zero_add, k.block, k.strides] at hoffset
    exact Result.bind_eq_ok.2 ⟨a, ha, hoffset⟩
  · rw [Nat.zero_add, k.block, k.strides]
    exact Nat.lt_trans hlt hlimit

end Layout
end BufferFusion
