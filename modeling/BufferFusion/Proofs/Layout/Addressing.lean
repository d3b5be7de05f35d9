import BufferFusion.Layout.Addressing
import BufferFusion.Proofs.Layout.Dims

/-!
# Addresses

The closed form of addressing. An index is shifted by the lower padding to coordinates in the
buffer, and the offset is the sum of what each coordinate counts. It grows with the coordinates as
long as those on a blocked axis lie on block boundaries.
-/
namespace BufferFusion

theorem Format.block?_eq_some {f : Format} {axis size : Nat} :
    f.block? = some (axis, size) ↔ f = .blocked16 ∧ axis = 1 ∧ size = 16 := by
  cases f <;> simp [block?, eq_comm]

theorem Padding.isDynamic_of_settled {p : Padding} (h : p.hasDynamic = false) (axis : Nat) :
    p.isDynamic axis = false := by
  rw [hasDynamic, List.any_eq_false] at h
  rw [isDynamic]
  cases hi : p.axes[axis]? with
  | none => rfl
  | some a => simpa using h a (List.mem_of_getElem? hi)

/-- With known padding only the blocked axis can be wrong. -/
theorem Layout.isAllocatable_iff {l : Layout} (h : l.padding.hasDynamic = false) :
    l.isAllocatable = true ↔ l.isValid = true ∧
      (l.format = .blocked16 → (l.padding.lower[1]?.getD 0) % 16 = 0) := by
  rw [isAllocatable, Bool.and_eq_true]
  refine and_congr_right fun _ => ?_
  cases hf : l.format <;> simp [Format.block?, Padding.isDynamic_of_settled h]

theorem Layout.isValid_of_isAllocatable {l : Layout} (h : l.isAllocatable = true) :
    l.isValid = true := (Bool.and_eq_true_iff.1 h).1

theorem Layout.isAllocatable_of_unpadded {l : Layout} (hp : l.padding = .zero l.rank)
    (hv : l.isValid = true) : l.isAllocatable = true := by
  refine (isAllocatable_iff (by rw [hp, Padding.hasDynamic_zero])).2 ⟨hv, fun _ => ?_⟩
  rw [hp, Padding.zero, Padding.lower, List.map_replicate, List.getElem?_replicate]
  split <;> rfl

namespace Addressing

/-- Row-major strides over cells of `inner` elements. -/
def strideList (inner : Nat) : List Nat → List Nat
  | [] => []
  | _ :: ds => inner * ds.prod :: strideList inner ds

@[simp] theorem length_strideList (inner : Nat) (ds : List Nat) :
    (strideList inner ds).length = ds.length := by
  induction ds with
  | nil => rfl
  | cons d ds ih => simp [strideList, ih]

theorem stridesOf_eq_ok {inner : Nat} {ds ss : List Nat} {n : Nat}
    (h : stridesOf inner ds = .ok (ss, n)) :
    ss = strideList inner ds ∧ n = inner * ds.prod ∧ (ds ≠ [] → n < Size.limit) := by
  induction ds generalizing ss n with
  | nil =>
    obtain ⟨rfl, rfl⟩ := Prod.mk.inj (Except.ok.inj h)
    simp [strideList]
  | cons d ds ih =>
    obtain ⟨⟨rest, size⟩, hrest, h⟩ := Result.bind_eq_ok.1 h
    obtain ⟨m, hm, h⟩ := Result.bind_eq_ok.1 h
    obtain ⟨rfl, rfl⟩ := Prod.mk.inj (Except.ok.inj h)
    obtain ⟨rfl, rfl, -⟩ := ih hrest
    obtain ⟨rfl, hfits⟩ := Size.mul_eq_ok.1 hm
    refine ⟨rfl, ?_, fun _ => hfits⟩
    rw [List.prod_cons, Nat.mul_comm d, Nat.mul_assoc]

theorem stridesOf_onlyOverflow (inner : Nat) (ds : List Nat) :
    (stridesOf inner ds).OnlyOverflow := by
  induction ds with
  | nil => exact Result.onlyOverflow_ok _
  | cons d ds ih =>
    refine ih.bind fun r _ => (Size.mul_onlyOverflow _ _).bind fun _ _ => ?_
    exact Result.onlyOverflow_pure _

/-- What a coordinate on one axis counts. -/
def part (block : Option (Nat × Nat)) (axis coord stride : Nat) : Nat :=
  match block with
  | some (blocked, size) =>
    if blocked = axis then coord / size * stride + coord % size else coord * stride
  | none => coord * stride

/-- What the coordinates from `axis` on count together. -/
def cell (block : Option (Nat × Nat)) : Nat → List Nat → List Nat → Nat
  | axis, c :: coords, s :: strides => part block axis c s + cell block (axis + 1) coords strides
  | _, _, _ => 0

/-- An index shifted into the buffer. -/
def coords (a : Addressing) (index : List Nat) : List Nat := List.zipWith (· + ·) index a.lower

variable {a : Addressing} {axis acc coord stride n : Nat} {index : List Nat}

theorem axisOffset_eq_ok (h : a.axisOffset axis coord stride = .ok n) :
    n = part a.block axis coord stride := by
  cases hb : a.block with
  | none =>
    simp only [axisOffset, part, hb] at h ⊢
    exact (Size.mul_eq_ok.1 h).1.symm
  | some b =>
    simp only [axisOffset, part, hb] at h ⊢
    by_cases hax : b.1 = axis
    · rw [if_pos hax] at h ⊢
      obtain ⟨m, hm, h⟩ := Result.bind_eq_ok.1 h
      obtain ⟨rfl, -⟩ := Size.mul_eq_ok.1 hm
      exact (Size.add_eq_ok.1 h).1.symm
    · rw [if_neg hax] at h ⊢
      exact (Size.mul_eq_ok.1 h).1.symm

theorem axisOffset_onlyOverflow : (a.axisOffset axis coord stride).OnlyOverflow := by
  simp only [axisOffset]
  split
  · split
    · exact (Size.mul_onlyOverflow _ _).bind fun _ _ => Size.add_onlyOverflow _ _
    · exact Size.mul_onlyOverflow _ _
  · exact Size.mul_onlyOverflow _ _

theorem axisOffset_of_lt (h : part a.block axis coord stride < Size.limit) :
    a.axisOffset axis coord stride = .ok (part a.block axis coord stride) := by
  simp only [part] at h
  simp only [axisOffset, part]
  split
  · next hb =>
    simp only [hb] at h ⊢
    split
    · next hax =>
      rw [if_pos hax] at h
      refine Result.bind_eq_ok.2 ⟨_, Size.mul_eq_ok.2 ⟨rfl, by omega⟩, ?_⟩
      exact Size.add_eq_ok.2 ⟨rfl, h⟩
    · next hax =>
      rw [if_neg hax] at h
      exact Size.mul_eq_ok.2 ⟨rfl, h⟩
  · next hb =>
    simp only [hb] at h ⊢
    exact Size.mul_eq_ok.2 ⟨rfl, h⟩

theorem offsetFrom_eq_ok (h : a.offsetFrom axis acc index = .ok n) :
    n = acc + cell a.block axis (List.zipWith (· + ·) index (a.lower.drop axis))
      (a.strides.drop axis) := by
  induction index generalizing axis acc with
  | nil =>
    obtain rfl := Except.ok.inj h
    simp [cell]
  | cons i index ih =>
    simp only [offsetFrom, Result.bind_eq_ok, Result.entry_eq_ok] at h
    obtain ⟨l, hl, coord, hcoord, s, hs, m, hm, next, hnext, h⟩ := h
    obtain ⟨rfl, -⟩ := Size.add_eq_ok.1 hcoord
    obtain rfl := axisOffset_eq_ok hm
    obtain ⟨rfl, -⟩ := Size.add_eq_ok.1 hnext
    obtain ⟨hlt, rfl⟩ := List.getElem?_eq_some_iff.1 hl
    obtain ⟨hlt', rfl⟩ := List.getElem?_eq_some_iff.1 hs
    rw [ih h, List.drop_eq_getElem_cons hlt, List.drop_eq_getElem_cons hlt',
      List.zipWith_cons_cons, cell, Nat.add_assoc]

theorem offsetFrom_onlyOverflow (hl : axis + index.length ≤ a.lower.length)
    (hs : axis + index.length ≤ a.strides.length) : (a.offsetFrom axis acc index).OnlyOverflow := by
  induction index generalizing axis acc with
  | nil => exact Result.onlyOverflow_ok _
  | cons i index ih =>
    rw [List.length_cons] at hl hs
    simp only [offsetFrom, List.getElem?_eq_getElem (show axis < a.lower.length by omega),
      List.getElem?_eq_getElem (show axis < a.strides.length by omega)]
    refine (Result.onlyOverflow_ok _).bind fun _ _ => (Size.add_onlyOverflow _ _).bind fun _ _ => ?_
    refine (Result.onlyOverflow_ok _).bind fun _ _ => axisOffset_onlyOverflow.bind fun _ _ => ?_
    exact (Size.add_onlyOverflow _ _).bind fun _ _ => ih (by omega) (by omega)

/-- An offset that fits is found. -/
theorem offsetFrom_of_lt (hl : axis + index.length ≤ a.lower.length)
    (hs : axis + index.length ≤ a.strides.length)
    (hcoords : ∀ c ∈ List.zipWith (· + ·) index (a.lower.drop axis), c < Size.limit)
    (hfits : acc + cell a.block axis (List.zipWith (· + ·) index (a.lower.drop axis))
      (a.strides.drop axis) < Size.limit) :
    a.offsetFrom axis acc index = .ok (acc +
      cell a.block axis (List.zipWith (· + ·) index (a.lower.drop axis)) (a.strides.drop axis)) := by
  induction index generalizing axis acc with
  | nil => simp [offsetFrom, cell]
  | cons i index ih =>
    rw [List.length_cons] at hl hs
    have hlt : axis < a.lower.length := by omega
    have hlt' : axis < a.strides.length := by omega
    rw [List.drop_eq_getElem_cons hlt, List.drop_eq_getElem_cons hlt', List.zipWith_cons_cons,
      cell] at hfits ⊢
    rw [List.drop_eq_getElem_cons hlt, List.zipWith_cons_cons, List.forall_mem_cons] at hcoords
    simp only [offsetFrom, Result.bind_eq_ok, Result.entry_eq_ok]
    refine ⟨_, List.getElem?_eq_getElem hlt, _, Size.add_eq_ok.2 ⟨rfl, hcoords.1⟩, _,
      List.getElem?_eq_getElem hlt', _, axisOffset_of_lt (by omega), _,
      Size.add_eq_ok.2 ⟨rfl, by omega⟩, ?_⟩
    rw [ih (by omega) (by omega) hcoords.2 (by omega), Nat.add_assoc]

/-- A coordinate on the blocked axis has to begin a block. -/
def Aligned (block : Option (Nat × Nat)) (axis coord : Nat) : Prop :=
  ∀ size, block = some (axis, size) → coord % size = 0

theorem part_le {block : Option (Nat × Nat)} {c c' : Nat} (hc : c ≤ c')
    (h : Aligned block axis c) : part block axis c stride ≤ part block axis c' stride := by
  simp only [part]
  split
  · next blocked size =>
    split
    · next hb =>
      subst hb
      rw [h size rfl]
      exact Nat.le_trans (Nat.mul_le_mul_right _ (Nat.div_le_div_right hc)) (Nat.le_add_right ..)
    · exact Nat.mul_le_mul_right _ hc
  · exact Nat.mul_le_mul_right _ hc

theorem cell_le {block : Option (Nat × Nat)} {cs cs' ss : List Nat}
    (hc : List.Forall₂ (· ≤ ·) cs cs')
    (h : ∀ i c, cs[i]? = some c → Aligned block (axis + i) c) :
    cell block axis cs ss ≤ cell block axis cs' ss := by
  induction hc generalizing axis ss with
  | nil => exact Nat.le_refl _
  | cons hle _ ih =>
    obtain _ | ⟨s, ss⟩ := ss
    · exact Nat.le_refl _
    refine Nat.add_le_add (part_le hle (h 0 _ rfl)) (ih fun i c hi => ?_)
    rw [Nat.add_assoc, Nat.add_comm 1 i]
    exact h (i + 1) c hi

end Addressing

namespace Layout

/-- The dims with their padding. -/
def paddedSizes (sizes : List Nat) (axes : List AxisPadding) : List Nat :=
  List.zipWith (fun n a => n + a.lower + a.upper) sizes axes

/-- The dims with the blocked axis rounded up to whole blocks. -/
def wholeBlocks (block : Option (Nat × Nat)) (dims : List Nat) : List Nat :=
  match block with
  | some (axis, size) => dims.modify axis fun n => (n + size - 1) / size * size
  | none => dims

@[simp] theorem length_wholeBlocks (block : Option (Nat × Nat)) (dims : List Nat) :
    (wholeBlocks block dims).length = dims.length := by
  simp only [wholeBlocks]
  split <;> simp

variable {l : Layout} {index sizes stored : List Nat} {a : Addressing}

theorem surround_eq_ok {sizes out : List Nat} {axes : List AxisPadding}
    (h : surround sizes axes = .ok out) :
    sizes.length ≤ axes.length ∧ out = paddedSizes sizes axes := by
  induction sizes generalizing axes out with
  | nil =>
    obtain rfl := Except.ok.inj h
    simp [paddedSizes]
  | cons n sizes ih =>
    obtain _ | ⟨a, axes⟩ := axes
    · cases h
    obtain ⟨m, hm, h⟩ := Result.bind_eq_ok.1 h
    obtain ⟨m', hm', h⟩ := Result.bind_eq_ok.1 h
    obtain ⟨rest, hrest, h⟩ := Result.bind_eq_ok.1 h
    obtain rfl := Except.ok.inj h
    obtain ⟨rfl, -⟩ := Size.add_eq_ok.1 hm
    obtain ⟨rfl, -⟩ := Size.add_eq_ok.1 hm'
    obtain ⟨hlen, rfl⟩ := ih hrest
    exact ⟨by simpa using hlen, rfl⟩

theorem surround_onlyOverflow {sizes : List Nat} {axes : List AxisPadding}
    (h : sizes.length ≤ axes.length) : (surround sizes axes).OnlyOverflow := by
  induction sizes generalizing axes with
  | nil => exact Result.onlyOverflow_ok _
  | cons n sizes ih =>
    obtain _ | ⟨a, axes⟩ := axes
    · simp at h
    refine (Size.add_onlyOverflow _ _).bind fun _ _ => (Size.add_onlyOverflow _ _).bind fun _ _ => ?_
    exact (ih (by simpa using h)).bind fun _ _ => Result.onlyOverflow_pure _

theorem lt_of_surround {out : List Nat} (h : surround sizes axes = .ok out) :
    ∀ n ∈ out, n < Size.limit := by
  induction sizes generalizing axes out with
  | nil =>
    obtain rfl := Except.ok.inj h
    simp
  | cons d ds ih =>
    obtain _ | ⟨a, axes⟩ := axes
    · cases h
    obtain ⟨m, -, h⟩ := Result.bind_eq_ok.1 h
    obtain ⟨n, hn, h⟩ := Result.bind_eq_ok.1 h
    obtain ⟨rest, hrest, h⟩ := Result.bind_eq_ok.1 h
    obtain rfl := Except.ok.inj h
    obtain ⟨rfl, hlt⟩ := Size.add_eq_ok.1 hn
    exact List.forall_mem_cons.2 ⟨hlt, ih hrest⟩

theorem surround_of_lt {axes : List AxisPadding} (hlen : sizes.length ≤ axes.length)
    (h : ∀ n ∈ paddedSizes sizes axes, n < Size.limit) :
    surround sizes axes = .ok (paddedSizes sizes axes) := by
  induction sizes generalizing axes with
  | nil => simp [surround, paddedSizes]
  | cons d ds ih =>
    obtain _ | ⟨a, axes⟩ := axes
    · cases hlen
    rw [paddedSizes, List.zipWith_cons_cons, List.forall_mem_cons] at h
    have hfirst : Size.add d a.lower = .ok (d + a.lower) := Size.add_eq_ok.2 ⟨rfl, by omega⟩
    have hsecond : Size.add (d + a.lower) a.upper = .ok (d + a.lower + a.upper) :=
      Size.add_eq_ok.2 ⟨rfl, h.1⟩
    have hrest := ih (Nat.le_of_succ_le_succ hlen) h.2
    simp only [surround, hfirst, hsecond, hrest, bind, Except.bind]
    rfl

theorem roundBlocks_eq_ok {axis size : Nat} {dims out : List Nat}
    (h : roundBlocks axis size dims = .ok out) : out = wholeBlocks (some (axis, size)) dims := by
  simp only [roundBlocks] at h
  split at h
  · next hd =>
    obtain rfl := Except.ok.inj h
    rw [wholeBlocks, List.modify_eq_self (List.getElem?_eq_none_iff.1 hd)]
  · next n hd =>
    obtain ⟨m, hm, h⟩ := Result.bind_eq_ok.1 h
    obtain rfl := Except.ok.inj h
    obtain ⟨rfl, -⟩ := Size.mul_eq_ok.1 hm
    rw [wholeBlocks, List.modify_eq_set, hd, Option.getD_some]

theorem roundBlocks_onlyOverflow (axis size : Nat) (dims : List Nat) :
    (roundBlocks axis size dims).OnlyOverflow := by
  simp only [roundBlocks]
  split
  · exact Result.onlyOverflow_ok _
  · exact (Size.mul_onlyOverflow _ _).bind fun _ _ => Result.onlyOverflow_pure _

theorem storedDims_eq_ok {stored : List Nat} (h : l.storedDims = .ok stored) :
    ∃ sizes, l.shape.sizes? = some sizes ∧ l.padding.hasDynamic = false ∧
      sizes.length ≤ l.padding.axes.length ∧
      stored = wholeBlocks l.format.block? (paddedSizes sizes l.padding.axes) := by
  simp only [storedDims] at h
  split at h
  · cases h
  next sizes hs =>
  split at h
  · cases h
  next hdyn =>
  obtain ⟨padded, hp, h⟩ := Result.bind_eq_ok.1 h
  obtain ⟨hlen, rfl⟩ := surround_eq_ok hp
  refine ⟨sizes, hs, by simpa using hdyn, hlen, ?_⟩
  split at h
  · next hb =>
    rw [hb]
    exact roundBlocks_eq_ok h
  · next hb =>
    rw [hb]
    exact (Except.ok.inj h).symm

theorem length_sizes {s : Shape} {sizes : List Nat} (h : s.sizes? = some sizes) :
    sizes.length = s.rank := by
  obtain ⟨dims⟩ := s
  simp only [Shape.sizes?, Shape.rank] at h ⊢
  induction dims generalizing sizes with
  | nil =>
    obtain rfl := Option.some.inj h
    rfl
  | cons d dims ih =>
    simp only [List.mapM_cons, Option.bind_eq_bind, Option.bind_eq_some_iff] at h
    obtain ⟨n, -, rest, hrest, h⟩ := h
    obtain rfl := Option.some.inj h
    simp [ih hrest]

theorem isValid_iff : l.isValid = true ↔
    l.format.holdsRank l.rank = true ∧ l.padding.axes.length = l.rank := by
  simp [isValid, Padding.rank]

theorem storedDims_onlyOverflow (hs : l.isStatic = true) (hd : l.padding.hasDynamic = false)
    (hv : l.isValid = true) : l.storedDims.OnlyOverflow := by
  obtain ⟨sizes, hsz⟩ := Option.isSome_iff_exists.1 ((Shape.isStatic_iff_sizes? _).1 hs)
  simp only [storedDims, hsz, hd, Bool.false_eq_true, if_false]
  refine (surround_onlyOverflow ?_).bind fun _ _ => ?_
  · rw [length_sizes hsz, (isValid_iff.1 hv).2]
    exact Nat.le_refl _
  · split
    · exact roundBlocks_onlyOverflow _ _ _
    · exact Result.onlyOverflow_pure _

theorem footprint_onlyOverflow (hs : l.isStatic = true) (hd : l.padding.hasDynamic = false)
    (hv : l.isValid = true) : l.footprint.OnlyOverflow :=
  (storedDims_onlyOverflow hs hd hv).bind fun _ _ => Size.product_onlyOverflow _

/-- What is left of the stored dims once the elements of a block are counted apart. -/
def outerDims (block : Option (Nat × Nat)) (stored : List Nat) : List Nat :=
  match block with
  | some (axis, size) => stored.modify axis (· / size)
  | none => stored

/-- The elements of a block. -/
def blockSize (block : Option (Nat × Nat)) : Nat :=
  match block with
  | some (_, size) => size
  | none => 1

@[simp] theorem length_outerDims (block : Option (Nat × Nat)) (stored : List Nat) :
    (outerDims block stored).length = stored.length := by
  simp only [outerDims]
  split <;> simp

/-- Where the elements of a layout lie, when nothing overflows. -/
structure Addressed (l : Layout) (sizes stored : List Nat) (a : Addressing) : Prop where
  sizes_eq : l.shape.sizes? = some sizes
  settled : l.padding.hasDynamic = false
  stored_eq : stored = wholeBlocks l.format.block? (paddedSizes sizes l.padding.axes)
  lower : a.lower = l.padding.lower
  block : a.block = l.format.block?
  strides : a.strides =
    Addressing.strideList (blockSize l.format.block?) (outerDims l.format.block? stored)
  fits : stored ≠ [] →
    blockSize l.format.block? * (outerDims l.format.block? stored).prod < Size.limit

/-- A sound blocked layout has the blocked axis. -/
theorem block_filter (hv : l.isValid = true) {stored : List Nat}
    (hlen : stored.length = l.rank) :
    (l.format.block?.filter fun (axis, _) => axis < stored.length) = l.format.block? := by
  have hrank := (isValid_iff.1 hv).1
  cases hf : l.format with
  | bfyx | bfzyx | bfwzyx => rfl
  | blocked16 =>
    rw [hf] at hrank
    have : l.rank = 4 := by simpa [Format.holdsRank, Format.maxRank] using hrank
    simp [Format.block?, Option.filter, hlen, this]

theorem length_stored {sizes : List Nat} (hv : l.isValid = true)
    (hs : l.shape.sizes? = some sizes) :
    (wholeBlocks l.format.block? (paddedSizes sizes l.padding.axes)).length = l.rank := by
  rw [length_wholeBlocks, paddedSizes, List.length_zipWith, length_sizes hs,
    (isValid_iff.1 hv).2]
  exact Nat.min_self _

theorem addressing_eq_ok (hv : l.isValid = true) {a : Addressing} (h : l.addressing = .ok a) :
    ∃ sizes stored, Addressed l sizes stored a := by
  obtain ⟨stored, hst, h⟩ := Result.bind_eq_ok.1 h
  obtain ⟨sizes, hs, hd, -, rfl⟩ := storedDims_eq_ok hst
  simp only [block_filter hv (length_stored hv hs)] at h
  split at h
  · next hb =>
    obtain ⟨⟨ss, n⟩, hss, h⟩ := Result.bind_eq_ok.1 h
    obtain ⟨rfl, rfl, hfits⟩ := Addressing.stridesOf_eq_ok hss
    obtain rfl := Except.ok.inj h
    refine ⟨sizes, _, hs, hd, rfl, rfl, rfl, by rw [hb]; rfl, fun hne => ?_⟩
    rw [hb] at hne hfits ⊢
    exact hfits (by simpa [← List.length_eq_zero_iff] using hne)
  · next hb =>
    obtain ⟨⟨ss, n⟩, hss, h⟩ := Result.bind_eq_ok.1 h
    obtain ⟨rfl, rfl, hfits⟩ := Addressing.stridesOf_eq_ok hss
    obtain rfl := Except.ok.inj h
    refine ⟨sizes, _, hs, hd, rfl, rfl, rfl, by rw [hb]; rfl, fun hne => ?_⟩
    rw [hb] at hne hfits ⊢
    exact hfits hne

theorem addressing_onlyOverflow (hs : l.isStatic = true) (hd : l.padding.hasDynamic = false)
    (hv : l.isValid = true) : l.addressing.OnlyOverflow := by
  refine (storedDims_onlyOverflow hs hd hv).bind fun stored _ => ?_
  refine (Addressing.stridesOf_onlyOverflow _ _).bind fun r _ => ?_
  exact Result.onlyOverflow_pure _

theorem Addressed.length_lower (k : Addressed l sizes stored a) (hv : l.isValid = true) :
    a.lower.length = l.rank := by
  rw [k.lower, Padding.lower, List.length_map, (isValid_iff.1 hv).2]

theorem Addressed.length_strides (k : Addressed l sizes stored a) (hv : l.isValid = true) :
    a.strides.length = l.rank := by
  rw [k.strides, Addressing.length_strideList, length_outerDims, k.stored_eq,
    length_stored hv k.sizes_eq]

theorem offset_onlyOverflow (hs : l.isStatic = true) (hd : l.padding.hasDynamic = false)
    (hv : l.isValid = true) (hi : index.length = l.rank) : (l.offset index).OnlyOverflow := by
  refine (addressing_onlyOverflow hs hd hv).bind fun a ha => ?_
  obtain ⟨sizes, stored, k⟩ := addressing_eq_ok hv ha
  refine Addressing.offsetFrom_onlyOverflow ?_ ?_
  · have := k.length_lower hv
    omega
  · have := k.length_strides hv
    omega

theorem offset_eq_ok {n : Nat} (h : l.offset index = .ok n) : ∃ a, l.addressing = .ok a ∧
    n = Addressing.cell a.block 0 (a.coords index) a.strides := by
  obtain ⟨a, ha, h⟩ := Result.bind_eq_ok.1 h
  exact ⟨a, ha, by simpa [Addressing.coords] using Addressing.offsetFrom_eq_ok h⟩

end Layout

end BufferFusion
