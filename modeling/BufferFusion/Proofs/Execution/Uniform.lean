import BufferFusion.Proofs.Execution.Partition
import BufferFusion.Proofs.Execution.Shown

/-!
# Buffers of one size

What shares a buffer takes it whole: views have as many elements as what they are views of, windows
and slices have the rest of the buffer as padding. So a buffer is no larger than its root needs it,
whose layout has no padding.
-/
namespace BufferFusion

open Graph Fuse

variable {g : Graph} {values : InputValues} {plan : BufferPlan} {buffer : LogicalBuffer} {e : SharingEdge}
  {l l' : Layout} {x y : NodeId} {n n' : Nat}

/-- Without padding and blocks a buffer holds the elements and nothing else. -/
theorem Layout.footprint_plain (hz : l.padding = .zero l.rank) (hb : l.format.isBlocked = false)
    (h : l.footprint = .ok n) : n = l.shape.volume := by
  obtain ⟨stored, hstored, hn⟩ := Result.bind_eq_ok.1 h
  obtain ⟨sizes, hs, -, -, rfl⟩ := storedDims_eq_ok hstored
  have hnone : l.format.block? = none := by simpa [Format.isBlocked] using hb
  have hrank : sizes.length = l.rank := length_sizes hs
  rw [hnone, wholeBlocks, hz, paddedSizes_zero hrank] at hn
  rw [Shape.volume_known (Shape.dims_of_sizes? hs), Size.prod_of_product hn]

namespace Ready

variable (k : Ready g values)

include k

theorem paired : g.Paired := by
  intro e he
  have hlive : ∀ {z}, e.owner = z ∨ e.member = z → g.contains z = true := fun hz =>
    k.linked.contains_of_mem_nodes k.sound (Sharing.mem_nodes.2 ⟨e, he, hz⟩)
  refine ⟨fun heq => ?_, hlive (.inl rfl), hlive (.inr rfl)⟩
  obtain ⟨o, m, place⟩ := e
  obtain rfl : o = m := heq
  cases place with
  | view offset => exact k.sound.input_ne (k.linked.view he).2.1
  | slice i axis before extent => exact k.sound.input_ne (k.linked.owner he).2.2

/-- A view that moves no element is as large as its input. -/
theorem footprint_view {compared : Compatibility} (hplain : viewObstacle? l l' = none)
    (hc : compareFlat l l' = .ok compared) (hsame : compared.isCompatible = true)
    (hl : g.layout x = .ok l) (hl' : g.layout y = .ok l') (hz' : l'.padding = .zero l'.rank)
    (h : l.footprint = .ok n) (h' : l'.footprint = .ok n') : n' = n := by
  obtain ⟨hz, hb, hb', -⟩ := obstacle_eq_none.1 hplain
  rw [Layout.footprint_plain (k.padding_of_isZero hl hz) hb h, Layout.footprint_plain hz' hb' h']
  exact (volume_eq_of_isStatic hplain hc hsame (k.static hl) (k.static hl')).symm

/-- A slice or a window has the size of what it lies in. -/
theorem footprint_alongside {dims sizes : List Nat} (halong : l.Alongside l' dims sizes)
    (hl' : g.layout y = .ok l') (h : l.footprint = .ok n) (h' : l'.footprint = .ok n') : n' = n :=
  Except.ok.inj (h'.symm.trans (halong.footprint_eq (k.valid hl') (k.settled hl') h))

/-- A slice takes as many elements as the concatenation that it lies in. -/
theorem takes_eq_of_slice {index axis : Nat} {offset extent : Dim} {into : NodeId}
    (he : ⟨into, x, .slice index axis offset extent⟩ ∈ g.sharing.edges) (ho : g.Takes into n)
    (hm : g.Takes x n') : n' = n := by
  obtain ⟨l, hl, hn⟩ := ho
  obtain ⟨l', hl', hn'⟩ := hm
  obtain ⟨node, axis', output, extents, hnode, hc⟩ := k.inPlace (k.linked.sliceOf he)
  obtain ⟨hst, -, hin⟩ := k.linked.owner he
  obtain ⟨es, dims, -, hdims, -, hall⟩ := k.slices hnode hc
  obtain ⟨_, _, sizes, hx, -, hformat, hsliced⟩ := hall ((input_eq_ok hnode).1 hin)
  obtain rfl := Except.ok.inj (hl'.symm.trans hx)
  have hz := k.unpadded_inPlace hnode hc hst
  obtain rfl := k.sound.id_eq hnode
  obtain rfl := Except.ok.inj (hl.symm.trans hc.output_layout)
  exact k.footprint_alongside (hsliced.alongside hformat hdims hz) hl' hn hn'

/-- A view takes as many elements as what it is a view of. -/
theorem takes_eq_of_view {offset : Nat} {into : NodeId}
    (he : ⟨into, x, .view offset⟩ ∈ g.sharing.edges) (ho : g.Takes into n) (hm : g.Takes x n') :
    n' = n := by
  obtain ⟨l, hl, hn⟩ := ho
  obtain ⟨l', hl', hn'⟩ := hm
  obtain ⟨hst, hin, hjoins⟩ := k.linked.view he
  obtain ⟨p, hstands⟩ := k.stands hst
  cases hstands with
  | @inPlace node axis _ _ hnode hc _ => exact absurd ⟨node, hnode, hc.op⟩ (hjoins axis)
  | @view node _ input output hnode hp _ =>
  obtain rfl := k.sound.id_eq hnode
  obtain rfl := Except.ok.inj (hin.symm.trans hp.reads)
  obtain rfl := Except.ok.inj (hl.symm.trans hp.input_layout)
  obtain rfl := Except.ok.inj (hl'.symm.trans hp.output_layout)
  have hr := hp.reason
  cases hop : node.op with
  | input | constant | concatenation | fullyConnected =>
    rw [hop] at hr
    cases hr
  | reshape target copyZeros =>
    rw [hop] at hr
    obtain ⟨hplain, hflat, hsame, -⟩ := hr
    have hz' := k.unpadded_of_optimized hnode hst hl' (by simp [hop])
    exact k.footprint_view hplain hflat hsame hl hl' hz' hn hn'
  | permute order =>
    rw [hop] at hr
    obtain - | ⟨hplain, -, hflat, hsame, -⟩ := hr
    have hz' := k.unpadded_of_optimized hnode hst hl' (by simp [hop])
    exact k.footprint_view hplain hflat hsame hl hl' hz' hn hn'
  | reorder format element =>
    rw [hop] at hr
    obtain - | - | ⟨-, hcompare, -⟩ := hr
    obtain rfl := k.eq_of_compatible hnode hop hin hl hl' hcompare
    exact Except.ok.inj (hn'.symm.trans hn)
  | crop offsets sizes =>
    obtain ⟨_, _, _, _, input, output, dims, -, -, hin', hi, ho, -, -, halong, -⟩ :=
      k.window_alongside ⟨⟨into, offset, hst⟩, node, offsets, sizes, hnode, hop⟩
    obtain rfl := Except.ok.inj (hin.symm.trans hin')
    obtain rfl := Except.ok.inj (hl.symm.trans hi)
    obtain rfl := Except.ok.inj (hl'.symm.trans ho)
    exact k.footprint_alongside halong hl' hn hn'

/-- The member of an edge takes as many elements as its owner. -/
theorem takes_eq_of_mem (he : e ∈ g.sharing.edges) (ho : g.Takes e.owner n) (hm : g.Takes e.member n') :
    n' = n := by
  obtain ⟨into, x, place⟩ := e
  cases place with
  | slice => exact k.takes_eq_of_slice he ho hm
  | view => exact k.takes_eq_of_view he ho hm

/-- Connected nodes take equally many elements. -/
theorem takes_of_connected (hall : ∀ x, g.contains x = true → ∃ n, g.Takes x n)
    (hxy : Sharing.Connected g.sharing.edges x y) (hx : g.Takes x n) : g.Takes y n := by
  induction hxy with
  | refl => exact hx
  | tail _ hadj ih =>
    obtain ⟨e, he, ⟨rfl, rfl⟩ | ⟨rfl, rfl⟩⟩ := hadj
    · obtain ⟨n', hn'⟩ := hall _ (k.paired e he).2.2
      exact k.takes_eq_of_mem he ih hn' ▸ hn'
    · obtain ⟨n', hn'⟩ := hall _ (k.paired e he).2.1
      exact k.takes_eq_of_mem he hn' ih ▸ hn'

/-- A node that lies in no other has no padding. -/
theorem unpadded_of_root (hroot : ∀ owner, ¬ g.LiesIn x owner) (hl : g.layout x = .ok l) :
    l.padding = .zero l.rank := by
  rcases k.unpadded hl with hz | ⟨⟨into, offset, hst⟩, node, offsets, sizes, hnode, hop⟩ | ⟨owner, hslice⟩
  · exact hz
  · refine absurd ⟨_, k.linked.view_of_not_joins hst ?_, rfl, rfl⟩ (hroot into)
    rintro axis ⟨m, hm, hjoins⟩
    obtain rfl := Option.some.inj (hnode.symm.trans hm)
    cases hop.symm.trans hjoins
  · obtain ⟨_, _, _, _, he⟩ := k.exists_slice hslice
    exact absurd ⟨_, he, rfl, rfl⟩ (hroot owner)

variable (hplan : BufferPlan.ofGraph g = .ok plan) (hb : buffer ∈ plan.buffers)

include hplan hb

/-- Every member takes the whole buffer. -/
theorem takes_buffer (hx : x ∈ buffer.members) : g.Takes x buffer.elements := by
  obtain ⟨y, hy, hlargest⟩ := BufferPlan.exists_largest hplan hb
  have hall := (BufferPlan.ofGraph_ok_iff k.sound k.paired).1 ⟨plan, hplan⟩
  refine k.takes_of_connected hall ?_ hlargest
  exact BufferPlan.connected_of_mem (BufferPlan.mem_buffers hplan hb).1 hy hx

/-- One member of a buffer lies in no other node. -/
theorem exists_root : ∃! root, root ∈ buffer.members ∧ ∀ owner, ¬ g.LiesIn root owner := by
  obtain ⟨x, hx, -⟩ := BufferPlan.exists_largest hplan hb
  have hconnected := (BufferPlan.partitions k.sound k.paired hplan).connected buffer hb x hx
  obtain ⟨root, hpath, hend, -⟩ := k.linked.rooted k.sound x
  have hxroot : Sharing.Connected g.sharing.edges x root :=
    Relation.ReflTransGen.mono (fun a b ⟨e, he, hm, ho⟩ => ⟨e, he, .inr ⟨ho, hm⟩⟩) _ _ hpath
  refine ⟨root, ⟨(hconnected root).2 hxroot, hend⟩, fun root' ⟨hmem, hend'⟩ => ?_⟩
  have hroot : g.RootOf root' root :=
    (k.linked.rootOf_of_connected ((hconnected root').1 hmem)).1 ⟨hpath, hend⟩
  rcases hroot.1.cases_head with heq | ⟨owner, howner, -⟩
  · exact heq
  · exact absurd howner (hend' owner)

end Ready
end BufferFusion
