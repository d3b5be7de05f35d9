import BufferFusion.Proofs.Execution.Ready
import BufferFusion.Proofs.Inference.Join
import BufferFusion.Proofs.Memory.Contents

/-!
# Slices lie apart

The slices of a concatenation lie behind each other in one buffer: their padded dims are those of
the whole, and along the axis each begins where the one before it ends.
-/
namespace BufferFusion

open Graph Fuse

namespace Layout

variable {sizes : List Nat} {axis before after : Nat}

theorem getElem?_paddedSizes_slice (sizes : List Nat) (axis before after j : Nat) :
    (paddedSizes sizes ((Padding.zero sizes.length).set axis (.fixed before after)).axes)[j]? =
      if axis = j then sizes[j]?.map (· + before + after) else sizes[j]? := by
  simp only [paddedSizes, Padding.set, Padding.zero, List.getElem?_zipWith, List.getElem?_set,
    List.getElem?_replicate, List.length_replicate]
  by_cases hj : j < sizes.length
  · by_cases hax : axis = j <;> simp [hax, hj, AxisPadding.fixed, AxisPadding.zero]
  · by_cases hax : axis = j <;> simp [hax, hj]

theorem getElem?_lower_slice (rank : Nat) (haxis : axis < rank) :
    ((Padding.zero rank).set axis (.fixed before after)).lower[axis]? = some before := by
  simp [Padding.lower, Padding.set, Padding.zero, haxis, AxisPadding.fixed]

/-- The layout is the part of a buffer of the given dims that begins behind `before` on the axis:
its padding is what stands before and after it there. -/
structure Sliced (l : Layout) (axis before extent after : Nat) (dims sizes : List Nat) : Prop where
  sizes_eq : l.shape.sizes? = some sizes
  length : sizes.length = dims.length
  entry : sizes[axis]? = some extent
  total : dims[axis]? = some (extent + before + after)
  off_axis : ∀ j, j ≠ axis → sizes[j]? = dims[j]?
  padding : l.padding = (Padding.zero dims.length).set axis (.fixed before after)

namespace Sliced

variable {l : Layout} {extent : Nat} {dims : List Nat}
  (k : l.Sliced axis before extent after dims sizes)

include k

/-- A slice is no larger than the whole. -/
theorem le : List.Forall₂ (· ≤ ·) sizes dims := by
  refine List.forall₂_of_length_eq_of_get k.length fun j hj hj' => ?_
  change sizes[j] ≤ dims[j]
  by_cases hax : j = axis
  · subst hax
    have he := k.entry
    have ht := k.total
    rw [List.getElem?_eq_getElem hj] at he
    rw [List.getElem?_eq_getElem hj'] at ht
    have he := Option.some.inj he
    have ht := Option.some.inj ht
    omega
  · have hoff := k.off_axis j hax
    rw [List.getElem?_eq_getElem hj, List.getElem?_eq_getElem hj'] at hoff
    exact Nat.le_of_eq (Option.some.inj hoff)

theorem axis_lt : axis < dims.length := (List.getElem?_eq_some_iff.1 k.total).1

/-- With its padding a slice has the dims of the whole buffer. -/
theorem paddedSizes_eq : paddedSizes sizes l.padding.axes = dims := by
  rw [k.padding, ← k.length]
  refine List.ext_getElem? fun j => ?_
  rw [getElem?_paddedSizes_slice]
  by_cases hj : axis = j
  · subst hj
    rw [if_pos rfl, k.entry, k.total, Option.map_some]
  · rw [if_neg hj, k.off_axis j (Ne.symm hj)]

/-- Along the axis a slice stays within its extent. -/
theorem coords {index : List Nat} (hi : List.Forall₂ (· < ·) index sizes) :
    ∃ c, (List.zipWith (· + ·) index l.padding.lower)[axis]? = some c ∧
      before ≤ c ∧ c < before + extent := by
  obtain ⟨hlt, hextent⟩ := List.getElem?_eq_some_iff.1 k.entry
  have hlt' : axis < index.length := hi.length_eq ▸ hlt
  have hq := hi.get hlt' hlt
  simp only [List.get_eq_getElem, hextent] at hq
  refine ⟨index[axis] + before, ?_, by omega, by omega⟩
  rw [k.padding, List.getElem?_zipWith, getElem?_lower_slice dims.length k.axis_lt,
    List.getElem?_eq_getElem hlt']

/-- A slice has no cell in common with one that begins where it ends or later. -/
theorem cell_ne {l' : Layout} {before' after' extent' : Nat} {sizes' index index' : List Nat}
    (k' : l'.Sliced axis before' extent' after' dims sizes') (hv : l.isValid = true)
    (hv' : l'.isValid = true) (hf : l'.format = l.format) (hle : before + extent ≤ before')
    (hi : List.Forall₂ (· < ·) index sizes) (hi' : List.Forall₂ (· < ·) index' sizes') :
    l.cellOf sizes index ≠ l'.cellOf sizes' index' := by
  intro he
  have hstored : l'.storedSizes sizes' = l.storedSizes sizes := by
    rw [storedSizes, storedSizes, hf, k.paddedSizes_eq, k'.paddedSizes_eq]
  have hrank : (outerDims l.format.block? (l.storedSizes sizes)).length = l.rank := by
    rw [length_outerDims, storedSizes, length_stored hv k.sizes_eq]
  have houter' := outer_coords_lt hv' k'.sizes_eq hi'
  rw [hstored, hf] at houter'
  rw [cellOf, cellOf, hstored, hf] at he
  have hcoords := Addressing.cell_injective (hrank ▸ fits_block hv)
    (outer_coords_lt hv k.sizes_eq hi) houter' he
  -- along the axis the one slice ends before the other begins
  obtain ⟨c, hc, -, hupper⟩ := k.coords hi
  obtain ⟨c', hc', hlower, -⟩ := k'.coords hi'
  rw [hcoords] at hc
  obtain rfl := Option.some.inj (hc.symm.trans hc')
  omega

end Sliced
end Layout

theorem List.sum_take_lt {es : List Nat} {i j e : Nat} (he : es[i]? = some e) (hij : i < j) :
    (es.take i).sum + e ≤ (es.take j).sum := by
  have hstep : (es.take (i + 1)).sum = (es.take i).sum + e := by
    rw [List.take_add_one, he, List.sum_append]
    simp
  have hrest := List.sum_take_add_sum_drop (es.take j) (i + 1)
  rw [List.take_take, Nat.min_eq_left hij, hstep] at hrest
  omega

theorem List.sum_take_add_drop {es : List Nat} {i e : Nat} (he : es[i]? = some e) :
    e + (es.take i).sum + (es.drop (i + 1)).sum = es.sum := by
  obtain ⟨hlt, rfl⟩ := List.getElem?_eq_some_iff.1 he
  have h₁ := List.sum_take_add_sum_drop es i
  rw [List.drop_eq_getElem_cons hlt, List.sum_cons] at h₁
  omega

theorem Fuse.Extents.of_lays {g : Graph} {axis : Nat} {ids : List NodeId} {es : List Nat}
    {ls : List Layout} (h : Extents g axis ids es) (hl : g.Lays ids ls) :
    List.Forall₂ (fun l e => l.shape.dims[axis]? = some (.known e)) ls es := by
  induction hl generalizing es with
  | nil =>
    cases h
    exact .nil
  | cons hl _ ih =>
    obtain _ | ⟨he, h⟩ := h
    obtain ⟨l, hl', hd⟩ := dim?_eq_some.1 he
    obtain rfl := Except.ok.inj (hl.symm.trans hl')
    exact .cons hd (ih h)

/-- The inputs of a concatenation of known dims are slices of it, as soon as each has what stands
before and after it as its padding. -/
theorem Infer.Yields.sliced {values? : Option (List Float)} {axis : Nat} {ins : List Layout}
    {output : Layout} {es dims : List Nat} (h : Yields values? (.concatenation axis) ins output)
    (hs : ∀ a ∈ ins, a.isStatic = true)
    (hes : List.Forall₂ (fun a e => a.shape.dims[axis]? = some (.known e)) ins es)
    (hdims : output.shape.sizes? = some dims) : dims[axis]? = some es.sum ∧
      ∀ {i : Nat} {a l : Layout}, ins[i]? = some a → l.shape = a.shape →
        l.padding = (Padding.zero l.rank).set axis
          (.fixed (es.take i).sum (es.drop (i + 1)).sum) →
        ∃ e sizes, es[i]? = some e ∧
          l.Sliced axis (es.take i).sum e (es.drop (i + 1)).sum dims sizes := by
  obtain ⟨hoff, hon⟩ := h.concatenation_dims hs
  have hsum : dims[axis]? = some es.sum := by
    have := hon es hes
    rw [Shape.dims_of_sizes? hdims] at this
    exact Dim.getElem?_map_known.1 this
  refine ⟨hsum, fun {i a l} hi hshape hpad => ?_⟩
  have hmem := List.mem_of_getElem? hi
  obtain ⟨hlt, rfl⟩ := List.getElem?_eq_some_iff.1 hi
  have hlt' : i < es.length := hes.length_eq ▸ hlt
  have he := List.getElem?_eq_getElem hlt'
  have hd : l.shape.dims[axis]? = some (.known es[i]) := hshape ▸ hes.get hlt hlt'
  obtain ⟨sizes, hsizes⟩ := Option.isSome_iff_exists.1
    ((Shape.isStatic_iff_sizes? l.shape).1 (hshape ▸ hs _ hmem))
  have hlen : sizes.length = dims.length := by
    rw [Layout.length_sizes hsizes, Layout.length_sizes hdims, hshape]
    exact (h.concatenation_inputs.2 _ hmem).1
  refine ⟨es[i], sizes, he, hsizes, hlen, ?_, ?_, fun j hj => ?_, ?_⟩
  · rw [Shape.dims_of_sizes? hsizes] at hd
    exact Dim.getElem?_map_known.1 hd
  · rw [hsum, List.sum_take_add_drop he]
  · have := hoff _ hmem j hj
    rw [← hshape, Shape.dims_of_sizes? hdims, Shape.dims_of_sizes? hsizes] at this
    exact Dim.getElem?_map_known_congr this
  · rw [hpad, ← hlen, Layout.length_sizes hsizes, Layout.rank]

variable {g : Graph} {values : InputValues} {n : Node} {axis : Nat} {output : Layout}
  {extents : List Dim} {id x y : NodeId}

/-- The member of a slice edge is a slice. -/
theorem Graph.Linked.sliceOf (k : g.Linked) {owner : NodeId} {index : Nat} {before extent : Dim}
    (he : ⟨owner, x, .slice index axis before extent⟩ ∈ g.sharing.edges) : g.SliceOf x owner := by
  obtain ⟨hst, -, hin⟩ := k.owner he
  obtain ⟨n, hn, -⟩ := Result.bind_eq_ok.1 hin
  have hn := get_eq_ok.1 hn
  exact ⟨⟨0, hst⟩, .of_input hn ((input_eq_ok hn).1 hin), (k.writer he).2.1⟩

namespace Ready

variable (k : Ready g values)

include k

/-- What padding a slice has: what stands before and after its extent on the axis. -/
theorem slice (hc : g.InPlace n axis output extents) :
    ∃ es : List Nat, extents = es.map .known ∧ es.length = n.inputs.length ∧
      ∀ {i x}, n.inputs[i]? = some x → ∃ l e, g.layout x = .ok l ∧ es[i]? = some e ∧
        l.shape.dims[axis]? = some (.known e) ∧ l.format = output.format ∧
        l.padding = (Padding.zero l.rank).set axis
          (.fixed (es.take i).sum (es.drop (i + 1)).sum) := by
  obtain ⟨es, rfl, -⟩ := exists_extents hc.dims fun a _ l hl => k.static hl
  refine ⟨es, rfl, by simpa using hc.length_extents, fun hx => ?_⟩
  obtain ⟨l, extent, hl, -, hformat, hd, he, hpad, -⟩ := hc.slice hx
  rw [List.getElem?_map] at he
  obtain ⟨e, hentry, rfl⟩ := Option.map_eq_some_iff.1 he
  rw [← List.map_take, ← List.map_drop, Dim.slicePadding_known] at hpad
  exact ⟨l, e, hl, hentry, hd, hformat, hpad⟩

theorem exists_sizes {l : Layout} (hl : g.layout id = .ok l) :
    ∃ sizes, l.shape.sizes? = some sizes :=
  Option.isSome_iff_exists.1 ((Shape.isStatic_iff_sizes? _).1 (k.static hl))

/-- Where the inputs of a concatenation lie: each is a slice of its dims, and along the axis one
begins where those before it end. -/
theorem slices (hn : g.node? id = some n) (hc : g.InPlace n axis output extents) :
    ∃ es dims : List Nat, es.length = n.inputs.length ∧ output.shape.sizes? = some dims ∧
      dims[axis]? = some es.sum ∧ ∀ {i x}, n.inputs[i]? = some x → ∃ l e sizes,
        g.layout x = .ok l ∧ es[i]? = some e ∧ l.format = output.format ∧
        l.Sliced axis (es.take i).sum e (es.drop (i + 1)).sum dims sizes := by
  obtain rfl := k.sound.id_eq hn
  obtain ⟨es, hmap, hes, hslice⟩ := k.slice hc
  have hext : Extents g axis n.inputs es := by
    have := hc.dims
    rwa [hmap, List.forall₂_map_right_iff] at this
  obtain ⟨dims, hdims⟩ := k.exists_sizes hc.output_layout
  obtain ⟨ins, l, hins, hl, hy⟩ := k.inferred hn
  obtain rfl := Except.ok.inj (hc.output_layout.symm.trans hl)
  rw [hc.op] at hy
  have hstatic : ∀ a ∈ ins.map Layout.bare, a.isStatic = true := by
    intro a ha
    obtain ⟨m, hm, rfl⟩ := List.mem_map.1 ha
    obtain ⟨x, -, hx⟩ := hins.exists_of_mem hm
    exact (k.static hx : m.isStatic = true)
  obtain ⟨hsum, hsliced⟩ :=
    hy.sliced hstatic (List.forall₂_map_left_iff.2 (hext.of_lays hins)) hdims
  refine ⟨es, dims, hes, hdims, hsum, fun {i x} hx => ?_⟩
  obtain ⟨l, e, hl, he, -, hformat, hpad⟩ := hslice hx
  have ha : (ins.map Layout.bare)[i]? = some l.bare := by
    rw [List.getElem?_map, hins.getElem? hx hl]
    rfl
  have hshape : l.shape = l.bare.shape := rfl
  obtain ⟨e', sizes, he', kl⟩ := hsliced ha hshape hpad
  obtain rfl := Option.some.inj (he.symm.trans he')
  exact ⟨l, e, sizes, hl, he, hformat, kl⟩

/-- Different slices have no offset in common. -/
theorem slices_disjoint (hn : g.node? id = some n) (hc : g.InPlace n axis output extents)
    {i j : Nat} (hij : i < j) (hx : n.inputs[i]? = some x) (hy : n.inputs[j]? = some y)
    {l l' : Layout} (hl : g.layout x = .ok l) (hl' : g.layout y = .ok l') {m m' : Nat}
    (hf : l.footprint = .ok m) (hf' : l'.footprint = .ok m') {index index' : List Nat}
    (hi : l.HasIndex index) (hi' : l'.HasIndex index') {o : Nat} (ho : l.offset index = .ok o) :
    l'.offset index' ≠ .ok o := by
  intro ho'
  obtain ⟨es, dims, -, -, -, hslice⟩ := k.slices hn hc
  obtain ⟨l₁, e, sizes, hl₁, he, hformat, kl⟩ := hslice hx
  obtain ⟨l₂, e', sizes', hl₂, -, hformat', kl'⟩ := hslice hy
  obtain rfl := Except.ok.inj (hl.symm.trans hl₁)
  obtain rfl := Except.ok.inj (hl'.symm.trans hl₂)
  obtain ⟨t, ht, hlt⟩ := hi
  obtain ⟨t', ht', hlt'⟩ := hi'
  obtain rfl := Option.some.inj (ht.symm.trans kl.sizes_eq)
  obtain rfl := Option.some.inj (ht'.symm.trans kl'.sizes_eq)
  have ha := (Layout.offset_eq_cellOf (k.valid hl) hf ht hlt).1
  have ha' := (Layout.offset_eq_cellOf (k.valid hl') hf' ht' hlt').1
  have hcell := Except.ok.inj ((ha.symm.trans ho).trans (ho'.symm.trans ha'))
  exact kl.cell_ne kl' (k.valid hl) (k.valid hl') (hformat'.trans hformat.symm)
    (List.sum_take_lt he hij) hlt hlt' hcell

end Ready

end BufferFusion
