import BufferFusion.Proofs.Execution.Places
import BufferFusion.Proofs.Execution.Values
import BufferFusion.Proofs.Kernel.Entries

/-!
# What optimized nodes show

A view runs no kernel, and yet its part of the buffer holds what its kernel would answer, as soon as
the buffer holds its input's values. A concatenation done in place has its values where its slices
have theirs.
-/
namespace BufferFusion

open Graph Fuse Addressing

namespace Memory

variable {m : Memory} {l l' : Layout} {xs : List Float} {sizes : List Nat}

/-- In plain unpadded layouts, values lie in their own order whatever the dims are. -/
theorem Holds.plain (h : m.Holds l xs) (hp : l.padding = .zero l.rank)
    (hb : l.format.block? = none) (hp' : l'.padding = .zero l'.rank)
    (hb' : l'.format.block? = none) (hs' : l'.shape.sizes? = some sizes)
    (hlen : xs.length = sizes.prod) : m.Holds l' xs := by
  obtain ⟨dims, hs, hlen', hall⟩ := h
  refine ⟨sizes, hs', hlen, fun index hi => ?_⟩
  have hlt : position index sizes < dims.prod := by
    have := position_lt hi
    omega
  have hread := hall _ (Index.unravel_lt hlt)
  rw [Layout.cellOf_plain hp hb hs (Index.unravel_lt hlt), Index.position_unravel hlt] at hread
  rw [Layout.cellOf_plain hp' hb' hs' hi, hread]

/-- A window shows its part of what the buffer holds. -/
theorem Holds.window {dims offsets : List Nat} {ys : List Float} (h : m.Holds l xs)
    (k : l.Alongside l' dims sizes) (hoff : offsets.length = dims.length)
    (hsz : sizes.length = dims.length)
    (hindex : ∀ index, List.Forall₂ (· < ·) index sizes →
      List.Forall₂ (· < ·) (List.zipWith (· + ·) index offsets) dims ∧
        List.zipWith (· + ·) index l'.padding.lower =
          List.zipWith (· + ·) (List.zipWith (· + ·) index offsets) l.padding.lower)
    (hcrop : Kernel.crop ⟨xs.toArray, dims⟩ offsets sizes = .ok ys) : m.Holds l' ys := by
  obtain ⟨dims', hdims, -, hall⟩ := h
  obtain rfl := Option.some.inj (hdims.symm.trans k.left)
  have hlen := Size.prod_of_product (Kernel.build_eq_ok.1 hcrop).1
  refine ⟨sizes, k.right, hlen.symm, fun index hlt => ?_⟩
  obtain ⟨hbelow, hcoords⟩ := hindex index hlt
  rw [Layout.cellOf_congr k.format hcoords k.padded, hall _ hbelow,
    Kernel.getElem?_crop hcrop hoff hsz hlt]

end Memory

variable {g : Graph} {b : Bindings} {values : InputValues} {v : NodeId → List Float}
  {n : Node} {l input output : Layout} {x into owner : NodeId} {offset axis : Nat}

namespace Graph

/-- A reorder to the layout that its input has already changes no value. -/
def Keeps (g : Graph) (v : NodeId → List Float) : Prop :=
  ∀ {x n format element a l l'}, g.node? x = some n → n.op = .reorder format element →
    g.input x 0 = .ok a → g.layout a = .ok l → g.layout x = .ok l' → l'.bare = l.bare →
      ∀ lane ∈ v a, element.convert lane = lane

/-- The values of a node whose kernel reads its first input. -/
theorem Evaluated.first (h : g.Evaluated values v x) (hn : g.node? x = some n)
    (hin : g.input x 0 = .ok into) (hl : g.layout into = .ok l) {sizes : List Nat}
    (hs : l.shape.sizes? = some sizes) {f : Logical → Result (List Float)}
    (hf : ∀ l' read, Run.evaluate read values n l' = read 0 >>= f) :
    f ⟨(v into).toArray, sizes⟩ = .ok (v x) := by
  obtain ⟨m, lx, _, hm, -, -, -, heval⟩ := h
  obtain rfl := Option.some.inj (hn.symm.trans hm)
  rw [hf] at heval
  obtain ⟨lv, hlv, heval⟩ := Result.bind_eq_ok.1 heval
  obtain ⟨a, l', sizes', count, ha, hl', hs', -, -, rfl⟩ := reads_eq_ok.1 hlv
  obtain rfl := Except.ok.inj (hin.symm.trans ha)
  obtain rfl := Except.ok.inj (hl.symm.trans hl')
  obtain rfl := Option.some.inj (hs.symm.trans hs')
  exact heval

section First

variable {sizes : List Nat} (h : g.Evaluated values v x) (hn : g.node? x = some n)
  (hin : g.input x 0 = .ok into) (hl : g.layout into = .ok l) (hs : l.shape.sizes? = some sizes)

include h hn hin hl hs

/-- A reshape copies its input. -/
theorem Evaluated.reshape {target : ReshapeTarget} {copyZeros : Bool}
    (hop : n.op = .reshape target copyZeros) : v x = v into := by
  have := h.first hn hin hl hs (f := fun lv => .ok lv.values.toList) fun l' read => by
    rw [Run.evaluate, hop]
    rfl
  exact (Except.ok.inj this).symm

/-- A reorder converts its input lane by lane. -/
theorem Evaluated.reorder {format : Format} {element : ElementType}
    (hop : n.op = .reorder format element) : v x = (v into).map element.convert := by
  have := h.first hn hin hl hs (f := fun lv => .ok (lv.values.toList.map element.convert))
    fun l' read => by
      rw [Run.evaluate, hop]
      rfl
  exact (Except.ok.inj this).symm

theorem Evaluated.permute {order : List Nat} (hop : n.op = .permute order) :
    Kernel.permute ⟨(v into).toArray, sizes⟩ order = .ok (v x) :=
  h.first hn hin hl hs (f := fun lv => Kernel.permute lv order) fun l' read => by
    rw [Run.evaluate, hop]

end First

theorem Evaluated.length (h : g.Evaluated values v x) (hl : g.layout x = .ok l) :
    ∃ sizes, l.shape.sizes? = some sizes ∧ (v x).length = sizes.prod := by
  obtain ⟨_, l', sizes, -, hl', hs, hcount, -⟩ := h
  obtain rfl := Except.ok.inj (hl.symm.trans hl')
  exact ⟨sizes, hs, (Size.prod_of_product hcount).symm⟩

end Graph

theorem Infer.Yields.permute_order {p : Option (List Float)} {order : List Nat} {a : Layout}
    {rest : List Layout} (h : Yields p (.permute order) (a :: rest) l) :
    order.length = a.rank ∧ isPermutation order = true := by
  cases h with
  | permute hlen hbij => exact ⟨hlen, hbij⟩

/-- An index of the whole as an index of the slice that it falls into. -/
theorem slice_index {index dims sizes : List Nat} {c e lower upper : Nat}
    (hi : List.Forall₂ (· < ·) index dims) (hlen : sizes.length = dims.length)
    (hoff : ∀ j, j ≠ axis → sizes[j]? = dims[j]?) (he : sizes[axis]? = some e)
    (hc : index[axis]? = some c) (hlo : lower ≤ c) (hhi : c < lower + e) :
    List.Forall₂ (· < ·) (index.set axis (c - lower)) sizes ∧
      List.zipWith (· + ·) (index.set axis (c - lower))
        ((Padding.zero dims.length).set axis (.fixed lower upper)).lower = index := by
  obtain ⟨haxis, rfl⟩ := List.getElem?_eq_some_iff.1 hc
  constructor
  · refine List.forall₂_of_length_eq_of_get ?_ fun j hj hj' => ?_
    · rw [List.length_set, hi.length_eq, hlen]
    rw [List.get_eq_getElem, List.get_eq_getElem, List.getElem_set]
    split
    · next hax =>
      subst hax
      have hentry : sizes[axis] = e := (List.getElem?_eq_some_iff.1 he).2
      have hlt : index[axis] - lower < e := by omega
      exact hentry ▸ hlt
    · next hax =>
      have hj : j < index.length := by simpa using hj
      have hlt := hi.get hj (hi.length_eq ▸ hj)
      have hsize := hoff j (Ne.symm hax)
      rw [List.getElem?_eq_getElem hj', List.getElem?_eq_getElem (hi.length_eq ▸ hj)] at hsize
      rw [Option.some.inj hsize]
      exact hlt
  · refine List.ext_getElem ?_ fun j hj hj' => ?_
    · simp [Padding.lower, Padding.set, Padding.zero, hi.length_eq]
    simp only [List.getElem_zipWith, Padding.lower, Padding.set, Padding.zero, List.getElem_map,
      List.getElem_set, List.getElem_replicate]
    split
    · next hax =>
      subst hax
      simp only [AxisPadding.fixed]
      omega
    · rfl

/-- The cell of an index of the whole is that of an index of the slice. -/
theorem Layout.Sliced.cell {index dims sizes : List Nat} {c before e after : Nat}
    (k : l.Sliced axis before e after dims sizes) (hf : l.format = output.format)
    (hdims : output.shape.sizes? = some dims) (hz : output.padding = .zero output.rank)
    (hi : List.Forall₂ (· < ·) index dims) (hc : index[axis]? = some c) (hlo : before ≤ c)
    (hhi : c < before + e) : List.Forall₂ (· < ·) (index.set axis (c - before)) sizes ∧
      l.cellOf sizes (index.set axis (c - before)) = output.cellOf dims index := by
  obtain ⟨hbelow, hcoords⟩ :=
    @slice_index _ _ _ _ _ _ _ after hi k.length k.off_axis k.entry hc hlo hhi
  have hlower : List.zipWith (· + ·) index output.padding.lower = index := by
    rw [hz]
    exact Layout.zipWith_add_zero (hi.length_eq.trans (Layout.length_sizes hdims))
  have halong := k.alongside hf hdims hz
  rw [← k.padding] at hcoords
  exact ⟨hbelow, Layout.cellOf_congr halong.format (hcoords.trans hlower.symm) halong.padded⟩

/-- Where the slices of a concatenation hold its parts, the whole holds what the kernel answers. -/
theorem Memory.holds_concatenation {m : Memory} {parts : List Logical} {es dims : List Nat}
    {ys : List Float} (hdims : output.shape.sizes? = some dims)
    (hz : output.padding = .zero output.rank) (hsum : dims[axis]? = some es.sum)
    (hlen : parts.length = es.length)
    (hslice : ∀ {i e : Nat}, es[i]? = some e → ∃ (l : Layout) (sizes : List Nat) (xs : List Float),
      l.format = output.format ∧ parts[i]? = some ⟨xs.toArray, sizes⟩ ∧ m.Holds l xs ∧
        l.Sliced axis (es.take i).sum e (es.drop (i + 1)).sum dims sizes)
    (hparts : Kernel.concatenate parts axis dims = .ok ys) (hcount : ys.length = dims.prod) :
    m.Holds output ys := by
  have hextents : List.Forall₂ (fun (q : Logical) e => q.sizes[axis]? = some e) parts es := by
    refine List.forall₂_of_length_eq_of_get hlen fun i hi hi' => ?_
    obtain ⟨l, sizes, xs, -, hq, -, kl⟩ := hslice (List.getElem?_eq_getElem hi')
    rw [List.getElem?_eq_getElem hi] at hq
    rw [List.get_eq_getElem, List.get_eq_getElem, Option.some.inj hq]
    exact kl.entry
  refine ⟨dims, hdims, hcount, fun index hi => ?_⟩
  -- the slice that the coordinate on the axis falls into
  have haxis : axis < index.length := by
    rw [hi.length_eq]
    exact (List.getElem?_eq_some_iff.1 hsum).1
  have hc := List.getElem?_eq_getElem haxis
  obtain ⟨i, e, he, hlo, hhi⟩ := Kernel.exists_slot (forall₂_getElem? hi hc hsum)
  obtain ⟨l, sizes, xs, hformat, hq, ⟨sizes', hs', -, hall⟩, kl⟩ := hslice he
  obtain rfl := Option.some.inj (kl.sizes_eq.symm.trans hs')
  obtain ⟨hbelow, hcell⟩ := kl.cell hformat hdims hz hi hc hlo hhi
  rw [← hcell, hall _ hbelow,
    Kernel.getElem?_concatenate hextents hsum hparts hi hc hq kl.length he hlo hhi]

/-- The parts that a concatenation reads. -/
theorem Graph.Evaluated.parts (hv : g.Evaluated values v x) (hn : g.node? x = some n) (hop : n.op = .concatenation axis)
    (ho : g.layout x = .ok output) {dims : List Nat} (hdims : output.shape.sizes? = some dims) :
    ∃ parts, Kernel.concatenate parts axis dims = .ok (v x) ∧
      parts.length = n.inputs.length ∧
      ∀ {i : Nat} {a : NodeId} {l : Layout} {sizes : List Nat}, n.inputs[i]? = some a →
        g.layout a = .ok l → l.shape.sizes? = some sizes →
          parts[i]? = some ⟨(v a).toArray, sizes⟩ := by
  obtain ⟨m, l, sizes, hm, hl, hs, -, heval⟩ := hv
  obtain rfl := Option.some.inj (hn.symm.trans hm)
  obtain rfl := Except.ok.inj (ho.symm.trans hl)
  obtain rfl := Option.some.inj (hs.symm.trans hdims)
  rw [Run.evaluate, hop] at heval
  obtain ⟨parts, hparts, heval⟩ := Result.bind_eq_ok.1 heval
  obtain ⟨sizes', hs', heval⟩ := Result.bind_eq_ok.1 heval
  obtain rfl := Option.some.inj (hs.symm.trans (Layout.sizes_eq_ok.1 hs'))
  have hall := Result.mapM_eq_ok.1 hparts
  have hlen : parts.length = n.inputs.length := by rw [← hall.length_eq, List.length_range]
  refine ⟨parts, heval, hlen, fun {i a l sizes} ha hl hs => ?_⟩
  have hi : i < n.inputs.length := (List.getElem?_eq_some_iff.1 ha).1
  have hi' : i < parts.length := hlen ▸ hi
  have hread := hall.get (by simpa using hi) hi'
  rw [List.get_eq_getElem, List.getElem_range] at hread
  obtain ⟨a', l', sizes', _, hin, hl', hs', -, -, hpart⟩ := reads_eq_ok.1 hread
  obtain rfl := Option.some.inj (ha.symm.trans ((input_eq_ok hn).1 hin))
  obtain rfl := Except.ok.inj (hl.symm.trans hl')
  obtain rfl := Option.some.inj (hs.symm.trans hs')
  rw [List.getElem?_eq_getElem hi']
  exact congrArg some hpart

namespace Ready

variable (k : Ready g values)

include k

/-- Only windows of all optimized nodes have padding. -/
theorem unpadded_of_optimized (hn : g.node? x = some n)
    (hx : g.state? x = some (.optimized into offset)) (hl : g.layout x = .ok l)
    (hop : ∀ offsets sizes, n.op ≠ .crop offsets sizes) : l.padding = .zero l.rank := by
  rcases k.unpadded hl with hz | ⟨-, m, offsets, sizes, hm, hm'⟩ | ⟨o, hslice⟩
  · exact hz
  · obtain rfl := Option.some.inj (hn.symm.trans hm)
    exact absurd hm' (hop offsets sizes)
  · exact absurd hslice (k.not_sliceOf hx)

variable {m : Memory}

theorem padding_of_isZero (hl : g.layout x = .ok l) (hz : l.padding.isZero = true) :
    l.padding = .zero l.rank := by
  have hrank : l.padding.rank = l.rank := (Layout.isValid_iff.1 (k.valid hl)).2
  rw [Padding.eq_zero_of_isZero hz, hrank]

/-- A view that moves no element shows the values of its input. -/
theorem holds_plain (hn : g.node? x = some n) (hx : g.state? x = some (.optimized into offset))
    (hi : g.layout into = .ok input) (ho : g.layout x = .ok output)
    (hplain : viewObstacle? input output = none)
    (hop : ∀ offsets sizes, n.op ≠ .crop offsets sizes) (hv : g.Evaluated values v x)
    (hsame : v x = v into) (h : m.Holds input (v into)) : m.Holds output (v x) := by
  obtain ⟨hz, hb, hb', -⟩ := obstacle_eq_none.1 hplain
  have hplain : ∀ {f : Format}, f.isBlocked = false → f.block? = none := fun hf =>
    Option.isNone_iff_eq_none.1 (by simpa [Format.isBlocked] using hf)
  obtain ⟨sizes, hs, hlen⟩ := hv.length ho
  rw [hsame] at hlen ⊢
  exact h.plain (k.padding_of_isZero hi hz) (hplain hb) (k.unpadded_of_optimized hn hx ho hop)
    (hplain hb') hs hlen

/-- A window shows its part of the values of its input. -/
theorem holds_window (hw : g.Windowed x) (hv : g.Evaluated values v x)
    (hin : g.input x 0 = .ok into) (hi : g.layout into = .ok input) (ho : g.layout x = .ok output)
    (h : m.Holds input (v into)) : m.Holds output (v x) := by
  obtain ⟨n, offsets, sizes, a, l, l', dims, hn, hop, ha, hl, hl', hoff, hsz, halong, hindex⟩ :=
    k.window_alongside hw
  obtain rfl := Except.ok.inj (hin.symm.trans ha)
  obtain rfl := Except.ok.inj (hi.symm.trans hl)
  obtain rfl := Except.ok.inj (ho.symm.trans hl')
  have hcrop : Kernel.crop ⟨(v into).toArray, dims⟩ offsets sizes = .ok (v x) := by
    refine hv.first hn hin hi halong.left (f := fun lv => Kernel.crop lv offsets sizes) ?_
    intro l' read
    rw [Run.evaluate, hop]
  exact h.window halong hoff hsz hindex hcrop

/-- A reorder between compatible layouts has the very layout of its input. -/
theorem eq_of_compatible {format : Format} {element : ElementType} (hn : g.node? x = some n)
    (hop : n.op = .reorder format element) (hin : g.input x 0 = .ok into)
    (hi : g.layout into = .ok input) (ho : g.layout x = .ok output)
    (h : (input.compare output).isCompatible = true) : output = input := by
  obtain ⟨rest, hy⟩ := k.yields hn hin hi ho
  rw [hop] at hy
  obtain ⟨hrank, helem, hfmt, hpad⟩ := Layout.compare_ne h
  have hshape : output.shape = input.shape := hy.eq_of_reorder hrank.symm
  obtain ⟨_, _, _, _⟩ := output
  obtain ⟨_, _, _, _⟩ := input
  simp only at hshape helem hfmt hpad
  rw [hshape, helem, hfmt, hpad]

/-- What a view shows. -/
theorem shows_view (hkeep : g.Keeps v) (hx : g.state? x = some (.optimized into offset))
    (hne : into ≠ x) (hv : g.Evaluated values v x) (hm : b.memory? x = b.memory? into)
    (h : g.Shows b into (v into)) : g.Shows b x (v x) := by
  obtain ⟨m, input, hmem, hi, h⟩ := h
  obtain ⟨p, hstands⟩ := k.stands hx
  cases hstands with
  | @inPlace n axis output extents hn hc _ =>
    exact absurd (k.linked.inPlace_of_joins hx ⟨n, hn, hc.op⟩).1 hne
  | @view n into' input' output hn hp _ =>
  obtain ⟨rfl, -, -⟩ := k.linked.view_of_proposal k.sound hx hn hp
  obtain rfl := k.sound.id_eq hn
  have hin := hp.reads
  obtain rfl := Except.ok.inj (hi.symm.trans hp.input_layout)
  have ho := hp.output_layout
  refine ⟨m, output, hm.trans hmem, ho, ?_⟩
  obtain ⟨dims, hdims⟩ := k.exists_sizes hi
  have hr := hp.reason
  cases hop : n.op with
  | input | constant | concatenation | fullyConnected =>
    rw [hop] at hr
    cases hr
  | reshape target copyZeros =>
    rw [hop] at hr
    obtain ⟨hplain, -⟩ := hr
    exact k.holds_plain hn hx hi ho hplain (by simp [hop]) hv (hv.reshape hn hin hi hdims hop) h
  | permute order =>
    rw [hop] at hr
    obtain - | ⟨hplain, hord, -⟩ := hr
    have hperm := hv.permute hn hin hi hdims hop
    obtain ⟨rest, hy⟩ := k.yields hn hin hi ho
    rw [hop] at hy
    obtain ⟨hlen, hbij⟩ := hy.permute_order
    have hlen : order.length = dims.length := hlen.trans (Layout.length_sizes hdims).symm
    rw [Shape.dims_of_sizes? hdims] at hord
    have hcount : (v into).length = dims.prod := by
      obtain ⟨dims', hdims', hcount, -⟩ := h
      obtain rfl := Option.some.inj (hdims.symm.trans hdims')
      exact hcount
    have hsame : v n.id = v into := Kernel.permute_eq_self hbij hlen hord hcount hperm
    exact k.holds_plain hn hx hi ho hplain (by simp [hop]) hv hsame h
  | reorder format element =>
    rw [hop] at hr
    obtain - | - | ⟨hzero, hcompare, -⟩ := hr
    obtain rfl := k.eq_of_compatible hn hop hin hi ho hcompare
    have hsame : v n.id = v into := by
      rw [hv.reorder hn hin hi hdims hop]
      exact List.map_congr_left (hkeep hn hop hin hi ho rfl) |>.trans (List.map_id _)
    rw [hsame]
    exact h
  | crop offsets sizes =>
    exact k.holds_window ⟨⟨into, offset, hx⟩, n, offsets, sizes, hn, hop⟩ hv hin hi ho h

/-- What a concatenation done in place shows. -/
theorem shows_inPlace (hx : g.state? x = some (.optimized x offset))
    (hv : g.Evaluated values v x) (hlive : ∃ m, b.memory? x = some m)
    (hin : ∀ a, g.Feeds a x → b.memory? a = b.memory? x ∧ g.Shows b a (v a)) :
    g.Shows b x (v x) := by
  obtain ⟨p, hstands⟩ := k.stands hx
  cases hstands with
  | @view n into input output hn hp _ =>
    exact absurd rfl (k.linked.view_of_proposal k.sound hx hn hp).2.1
  | @inPlace n axis output extents hn hc _ =>
  have hz := k.unpadded_inPlace hn hc hx
  obtain ⟨es, dims, hes, hdims, hsum, hslice⟩ := k.slices hn hc
  obtain rfl := k.sound.id_eq hn
  obtain ⟨parts, hparts, hlen, hpart⟩ := hv.parts hn hc.op hc.output_layout hdims
  obtain ⟨m, hm⟩ := hlive
  obtain ⟨sizes, hs, hcount⟩ := hv.length hc.output_layout
  obtain rfl := Option.some.inj (hdims.symm.trans hs)
  refine ⟨m, output, hm, hc.output_layout, Memory.holds_concatenation hdims hz hsum
    (hlen.trans hes.symm) (fun {i e} he => ?_) hparts hcount⟩
  have hlt : i < n.inputs.length := hes ▸ (List.getElem?_eq_some_iff.1 he).1
  have ha := List.getElem?_eq_getElem hlt
  obtain ⟨l, e', sizes, hl, he', hformat, kl⟩ := hslice ha
  obtain rfl := Option.some.inj (he.symm.trans he')
  obtain ⟨hmem, m', l', hm', hl', hholds⟩ := hin _ (.of_input hn ha)
  obtain rfl := Except.ok.inj (hl.symm.trans hl')
  obtain rfl := Option.some.inj (hm.symm.trans (hmem.symm.trans hm'))
  exact ⟨l, sizes, _, hformat, hpart ha hl kl.sizes_eq, hholds, kl⟩

end Ready
end BufferFusion
