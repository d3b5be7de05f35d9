import BufferFusion.Proofs.Execution.Disjoint
import BufferFusion.Proofs.Memory.Contents

/-!
# Buffers of views and slices

The window of a crop lies in a buffer of the dims that its input's buffer has, and a slice in one of
the dims of the concatenation. So every node lies in a buffer of the dims of some unpadded layout,
and nothing overflows there that would not overflow for that layout.
-/
namespace BufferFusion

open Graph Fuse

namespace Layout

variable {l l' : Layout} {sizes stored : List Nat}

/-- Layouts over buffers of the same dims and format. -/
structure Alongside (l l' : Layout) (sizes sizes' : List Nat) : Prop where
  format : l'.format = l.format
  left : l.shape.sizes? = some sizes
  right : l'.shape.sizes? = some sizes'
  padded : paddedSizes sizes' l'.padding.axes = paddedSizes sizes l.padding.axes

/-- The layout has addresses, and its buffer is small enough for one allocation. -/
def HasRoom (l : Layout) : Prop :=
  ∃ a n, l.addressing = .ok a ∧ l.footprint = .ok n ∧ n ≤ Size.capacity 8

/-- A slice lies in the buffer of the unpadded layout that it is a part of. -/
theorem Sliced.alongside {axis before extent after : Nat} {dims : List Nat}
    (k : l'.Sliced axis before extent after dims sizes) (hf : l'.format = l.format)
    (hs : l.shape.sizes? = some dims) (hz : l.padding = .zero l.rank) :
    l.Alongside l' dims sizes where
  format := hf
  left := hs
  right := k.sizes_eq
  padded := by
    have hrank : dims.length = l.rank := length_sizes hs
    rw [k.paddedSizes_eq, hz, paddedSizes_zero hrank]

namespace Alongside

variable {sizes' : List Nat} (k : Alongside l l' sizes sizes')

include k

/-- What fits into the one buffer fits into the other. -/
theorem storedDims_eq (hv' : l'.isValid = true) (hd' : l'.padding.hasDynamic = false)
    (h : l.storedDims = .ok stored) : l'.storedDims = .ok stored := by
  have hlen : sizes'.length ≤ l'.padding.axes.length := by
    rw [length_sizes k.right, (isValid_iff.1 hv').2]
    exact Nat.le_refl l'.rank
  simp only [storedDims, k.left] at h
  split at h
  · cases h
  obtain ⟨padded, hpadded, h⟩ := Result.bind_eq_ok.1 h
  have hlt := lt_of_surround hpadded
  obtain ⟨-, rfl⟩ := surround_eq_ok hpadded
  rw [← k.padded] at hlt h
  simp only [storedDims, k.right, hd', Bool.false_eq_true, if_false, surround_of_lt hlen hlt,
    k.format]
  exact h

theorem footprint_eq {n : Nat} (hv' : l'.isValid = true) (hd' : l'.padding.hasDynamic = false)
    (h : l.footprint = .ok n) : l'.footprint = .ok n := by
  obtain ⟨stored, hst, h⟩ := Result.bind_eq_ok.1 h
  exact Result.bind_eq_ok.2 ⟨stored, k.storedDims_eq hv' hd' hst, h⟩

theorem exists_addressing {a : Addressing} (hv' : l'.isValid = true)
    (hd' : l'.padding.hasDynamic = false) (h : l.addressing = .ok a) :
    ∃ a', l'.addressing = .ok a' := by
  obtain ⟨stored, hst, h⟩ := Result.bind_eq_ok.1 h
  obtain ⟨strides, hstrides, -⟩ := Result.bind_eq_ok.1 h
  rw [← k.format] at hstrides
  exact ⟨_, Result.bind_eq_ok.2 ⟨stored, k.storedDims_eq hv' hd' hst,
    Result.bind_eq_ok.2 ⟨strides, hstrides, rfl⟩⟩⟩

theorem hasRoom (hv' : l'.isValid = true) (hd' : l'.padding.hasDynamic = false)
    (h : l.HasRoom) : l'.HasRoom := by
  obtain ⟨a, n, ha, hn, hle⟩ := h
  obtain ⟨a', ha'⟩ := k.exists_addressing hv' hd' ha
  exact ⟨a', n, ha', k.footprint_eq hv' hd' hn, hle⟩

end Alongside
end Layout

theorem Infer.Yields.crop_fits {p : Option (List Float)} {offsets sizes : List Nat} {a l : Layout}
    {rest : List Layout} (h : Yields p (.crop offsets sizes) (a :: rest) l) :
    fitsWindow a.shape.dims offsets sizes = .ok true ∧ l.shape = .ofSizes sizes := by
  cases h with
  | crop _ _ hfits => exact ⟨hfits, rfl⟩

/-- What is in a window is in the tensor. -/
theorem Infer.lt_of_fitsWindow {dims offsets sizes index : List Nat}
    (ho : offsets.length = dims.length) (hs : sizes.length = dims.length)
    (h : fitsWindow (dims.map .known) offsets sizes = .ok true)
    (hi : List.Forall₂ (· < ·) index sizes) :
    List.Forall₂ (· < ·) (List.zipWith (· + ·) index offsets) dims := by
  induction dims generalizing offsets sizes index with
  | nil =>
    obtain rfl := List.eq_nil_of_length_eq_zero hs
    obtain _ | _ := hi
    exact .nil
  | cons d dims ih =>
    obtain _ | ⟨o, offsets⟩ := offsets
    · cases ho
    obtain _ | ⟨hlt, hi⟩ := hi
    · cases hs
    obtain ⟨stop, hstop, h⟩ := Result.bind_eq_ok.1 h
    obtain ⟨rfl, -⟩ := Size.add_eq_ok.1 hstop
    split at h
    · cases h
    exact .cons (show _ + o < d by omega) (ih (Nat.succ.inj ho) (Nat.succ.inj hs) h hi)

/-- A window is no larger than the tensor. -/
theorem Infer.le_of_fitsWindow {dims offsets sizes : List Nat} (ho : offsets.length = dims.length)
    (hs : sizes.length = dims.length)
    (h : fitsWindow (dims.map .known) offsets sizes = .ok true) :
    List.Forall₂ (· ≤ ·) sizes dims := by
  induction dims generalizing offsets sizes with
  | nil =>
    obtain rfl := List.eq_nil_of_length_eq_zero hs
    exact .nil
  | cons d dims ih =>
    obtain _ | ⟨o, offsets⟩ := offsets
    · cases ho
    obtain _ | ⟨s, sizes⟩ := sizes
    · cases hs
    obtain ⟨stop, hstop, h⟩ := Result.bind_eq_ok.1 h
    obtain ⟨rfl, -⟩ := Size.add_eq_ok.1 hstop
    split at h
    · cases h
    exact .cons (by omega) (ih (Nat.succ.inj ho) (Nat.succ.inj hs) h)

theorem Fuse.paddedSizes_window {dims offsets sizes : List Nat} {axes out : List AxisPadding}
    (ha : axes.length = dims.length) (ho : offsets.length = dims.length)
    (hs : sizes.length = dims.length)
    (hfits : Infer.fitsWindow (dims.map .known) offsets sizes = .ok true)
    (h : windowPadding (dims.map .known) axes offsets sizes = .ok out) :
    Layout.paddedSizes sizes out = Layout.paddedSizes dims axes ∧
      ∀ index, List.Forall₂ (· < ·) index sizes →
        List.zipWith (· + ·) index (Padding.mk out).lower =
          List.zipWith (· + ·) (List.zipWith (· + ·) index offsets) (Padding.mk axes).lower := by
  induction dims generalizing axes offsets sizes out with
  | nil =>
    obtain rfl := List.eq_nil_of_length_eq_zero ha
    obtain rfl := List.eq_nil_of_length_eq_zero hs
    obtain rfl := Except.ok.inj h
    refine ⟨rfl, fun index hi => ?_⟩
    obtain _ | _ := hi
    rfl
  | cons d dims ih =>
    obtain _ | ⟨a, axes⟩ := axes
    · cases ha
    obtain _ | ⟨o, offsets⟩ := offsets
    · cases ho
    obtain _ | ⟨s, sizes⟩ := sizes
    · cases hs
    rw [List.map_cons] at h hfits
    obtain ⟨w, hw, h⟩ := Result.bind_eq_ok.1 h
    obtain ⟨rest, hrest, h⟩ := Result.bind_eq_ok.1 h
    obtain rfl := Except.ok.inj h
    obtain rfl := windowAxis_eq_ok hw
    obtain ⟨stop, hstop, hfits⟩ := Result.bind_eq_ok.1 hfits
    obtain ⟨rfl, -⟩ := Size.add_eq_ok.1 hstop
    split at hfits
    · cases hfits
    next hle =>
    obtain ⟨hpadded, hindex⟩ := ih (Nat.succ.inj ha) (Nat.succ.inj ho) (Nat.succ.inj hs) hfits hrest
    constructor
    · have hdim : s + (a.lower + o) + (a.upper + (d - (o + s))) = d + a.lower + a.upper := by omega
      rw [Layout.paddedSizes, Layout.paddedSizes, List.zipWith_cons_cons, List.zipWith_cons_cons]
      exact congrArg₂ List.cons hdim hpadded
    · intro index hi
      obtain _ | ⟨-, hi⟩ := hi
      simp only [Padding.lower, List.map_cons, List.zipWith_cons_cons]
      exact congrArg₂ List.cons (by simp only [window, AxisPadding.fixed]; omega) (hindex _ hi)

variable {g : Graph} {values : InputValues} {n : Node} {axis : Nat} {output l : Layout}
  {extents : List Dim} {id x owner : NodeId}

theorem Graph.Linked.not_slice_of_optimized (k : g.Linked) {into : NodeId} {offset : Nat}
    (hx : g.state? x = some (.optimized into offset)) {index axis : Nat} {before extent : Dim} :
    ⟨owner, x, .slice index axis before extent⟩ ∉ g.sharing.edges := by
  intro he
  obtain ⟨s, hs, hopt⟩ := (k.writer he).1
  rw [hx] at hs
  rw [← Option.some.inj hs] at hopt
  cases hopt

namespace Ready

variable (k : Ready g values)

include k

/-- A slice has its edge. -/
theorem exists_slice (h : g.SliceOf x owner) : ∃ index axis before extent,
    ⟨owner, x, .slice index axis before extent⟩ ∈ g.sharing.edges := by
  obtain ⟨⟨o, ho⟩, ⟨n, hn, hmem⟩, -⟩ := h
  obtain ⟨i, hi⟩ := List.mem_iff_getElem?.1 hmem
  obtain ⟨-, axis, -, hall⟩ := k.linked.inPlace_of_self k.sound ho
  obtain ⟨b, e, he⟩ := hall ((input_eq_ok hn).2 hi)
  exact ⟨i, axis, b, e, he⟩

/-- An optimized node is no slice. -/
theorem not_sliceOf {into : NodeId} {offset : Nat}
    (hx : g.state? x = some (.optimized into offset)) : ¬ g.SliceOf x owner := by
  intro hslice
  obtain ⟨_, _, _, _, he⟩ := k.exists_slice hslice
  exact k.linked.not_slice_of_optimized hx he

/-- A concatenation done in place has no padding. -/
theorem unpadded_inPlace (hn : g.node? owner = some n) (hc : g.InPlace n axis output extents)
    {offset : Nat} (ho : g.state? owner = some (.optimized owner offset)) :
    output.padding = .zero output.rank := by
  obtain rfl := k.sound.id_eq hn
  rcases k.unpadded hc.output_layout with hz | ⟨-, m, offsets, sizes, hm, hop⟩ | ⟨o, hslice⟩
  · exact hz
  · obtain rfl := Option.some.inj (hn.symm.trans hm)
    cases hop.symm.trans hc.op
  · exact absurd hslice (k.not_sliceOf ho)

/-- Where the window of a crop lies: its buffer has the dims of the input's, and its indices are
those of the input behind the offsets. -/
theorem window_alongside (h : g.Windowed id) : ∃ n offsets sizes into input output dims,
    g.node? id = some n ∧ n.op = .crop offsets sizes ∧ g.input id 0 = .ok into ∧
      g.layout into = .ok input ∧ g.layout id = .ok output ∧ offsets.length = dims.length ∧
      sizes.length = dims.length ∧ input.Alongside output dims sizes ∧
      ∀ index, List.Forall₂ (· < ·) index sizes →
        List.Forall₂ (· < ·) (List.zipWith (· + ·) index offsets) dims ∧
          List.zipWith (· + ·) index output.padding.lower =
            List.zipWith (· + ·) (List.zipWith (· + ·) index offsets) input.padding.lower := by
  obtain ⟨n, offsets, sizes, into, input, output, axes, hn, hop, hin, hi, ho, hw, hpad, hoff, hsz, -,
    hfmt⟩ := k.window h
  obtain ⟨dims, hdims⟩ := k.exists_sizes hi
  have hlen := Layout.length_sizes hdims
  obtain ⟨rest, hy⟩ := k.yields hn hin hi ho
  rw [hop] at hy
  obtain ⟨hfits, hshape⟩ := hy.crop_fits
  have hfits : Infer.fitsWindow input.shape.dims offsets sizes = .ok true := hfits
  have hshape : output.shape = .ofSizes sizes := hshape
  rw [Shape.dims_of_sizes? hdims] at hfits hw
  have hrank : input.rank = dims.length := hlen.symm
  have haxes : input.padding.axes.length = dims.length :=
    (Layout.isValid_iff.1 (k.valid hi)).2.trans hrank
  obtain ⟨hpadded, hindex⟩ := paddedSizes_window haxes (hoff.trans hrank) (hsz.trans hrank) hfits hw
  refine ⟨n, offsets, sizes, into, input, output, dims, hn, hop, hin, hi, ho, hoff.trans hrank,
    hsz.trans hrank, ⟨hfmt.symm, hdims, by rw [hshape, Shape.sizes?_ofSizes], ?_⟩, ?_⟩
  · rw [hpad]
    exact hpadded
  · rw [hpad]
    exact fun index hi =>
      ⟨Infer.lt_of_fitsWindow (hoff.trans hrank) (hsz.trans hrank) hfits hi, hindex index hi⟩

/-- Every node lies in a buffer of the dims of an unpadded layout. -/
theorem exists_unpadded (hl : g.layout x = .ok l) : ∃ y ly dims sizes, g.layout y = .ok ly ∧
    ly.padding = .zero ly.rank ∧ ly.Alongside l dims sizes := by
  induction x using k.sound.feeds_induction generalizing l with
  | step x ih =>
    rcases k.unpadded hl with hz | hw | ⟨owner, hslice⟩
    · obtain ⟨sizes, hsizes⟩ := k.exists_sizes hl
      exact ⟨x, l, sizes, sizes, hl, hz, rfl, hsizes, hsizes, rfl⟩
    · obtain ⟨n, offsets, sizes, into, input, output, dims, hn, -, hin, hi, ho, -, -, halong, -⟩ :=
        k.window_alongside hw
      obtain rfl := Except.ok.inj (hl.symm.trans ho)
      obtain rfl := k.sound.id_eq hn
      obtain ⟨y, ly, dims', sizes', hy, hz, halong'⟩ :=
        ih into (.of_input hn ((input_eq_ok hn).1 hin)) hi
      obtain rfl := Option.some.inj (halong'.right.symm.trans halong.left)
      exact ⟨y, ly, dims', sizes, hy, hz, halong.format.trans halong'.format, halong'.left,
        halong.right, halong.padded.trans halong'.padded⟩
    · obtain ⟨n, axis, output, extents, hn, hc⟩ := k.inPlace hslice
      obtain ⟨⟨offset, ho⟩, ⟨m, hm, hmem⟩, -⟩ := hslice
      obtain rfl := Option.some.inj (hn.symm.trans hm)
      have hz := k.unpadded_inPlace hn hc ho
      obtain ⟨i, hi⟩ := List.mem_iff_getElem?.1 hmem
      obtain ⟨es, dims, -, hdims, -, hall⟩ := k.slices hn hc
      obtain ⟨l', e, sizes, hl', -, hformat, kl⟩ := hall hi
      obtain rfl := Except.ok.inj (hl.symm.trans hl')
      exact ⟨_, output, dims, sizes, hc.output_layout, hz, kl.alongside hformat hdims hz⟩

/-- There is room for every node, as soon as there is without padding. -/
theorem hasRoom (h : ∀ {y ly}, g.layout y = .ok ly → ly.bare.HasRoom) (hl : g.layout x = .ok l) :
    l.HasRoom := by
  obtain ⟨y, ly, dims, sizes, hy, hz, halong⟩ := k.exists_unpadded hl
  refine halong.hasRoom (k.valid hl) (k.settled hl) ?_
  have hbare := Layout.bare_of_unpadded hz ly.padding
  have := h hy
  rwa [show ly.bare = ly from hbare] at this

end Ready

end BufferFusion
