import BufferFusion.Proofs.Execution.Static

/-!
# Rules that meet their own layouts

What a rule says where the layouts that it asked for are in place already. To a view they make no
difference. A concatenation asks for padding on its inputs and takes inputs without padding only,
so it turns its own slices down, unless none of them needed any.
-/
namespace BufferFusion

open Graph

namespace Fuse

variable {g : Graph} {n : Node} {p : Proposal} {into : NodeId} {input output l : Layout}

/-- The reasons for a view are all that its rule looks at. -/
theorem ViewProposal.judge (hv : ViewProposal g n p into input output)
    (hn : g.node? n.id = some n) : FusionRules.standard.judge g n.id = .ok (.eligible p) := by
  have hin : FusionContext.input ⟨g, n⟩ 0 = .ok input :=
    inputLayout_eq_ok.2 ⟨into, hv.reads, hv.input_layout⟩
  have hout : FusionContext.output ⟨g, n⟩ = .ok output := hv.output_layout
  have hproducer : FusionContext.producer ⟨g, n⟩ 0 = .ok into := hv.reads
  have hedges := hv.edges
  have hreason := hv.reason
  obtain ⟨into', offset, edges, layouts, assumption⟩ := p
  obtain rfl : into' = into := hv.into
  simp only at hedges
  subst hedges
  cases hop : n.op with
  | input | constant | concatenation | fullyConnected =>
    rw [hop] at hreason
    cases hreason
  | reshape target copyZeros =>
    rw [hop] at hreason
    obtain ⟨hplain, hflat, hsame, hoffset, hlayouts, hassumption⟩ := hreason
    simp only at hoffset hlayouts hassumption
    subst hoffset hlayouts hassumption
    rw [FusionRules.judge_eq hn Fuse.reshape (by rw [Node.tag, hop]; rfl)]
    simp only [Fuse.reshape, hop, hin, hout, bind, Except.bind, hplain, hflat]
    exact view_eq_eligible.2 ⟨hsame, _, hv.reads, rfl⟩
  | permute order =>
    rw [hop] at hreason
    obtain - | ⟨hplain, hordered, hflat, hsame, hoffset, hlayouts, hassumption⟩ := hreason
    simp only at hoffset hlayouts hassumption
    subst hoffset hlayouts hassumption
    rw [FusionRules.judge_eq hn Fuse.permute (by rw [Node.tag, hop]; rfl)]
    simp only [Fuse.permute, hop, hin, hout, bind, Except.bind, hplain, hordered, hflat]
    exact view_eq_eligible.2 ⟨hsame, _, hv.reads, rfl⟩
  | reorder format element =>
    rw [hop] at hreason
    obtain - | - | ⟨hzero, hsame, hoffset, hlayouts, hassumption⟩ := hreason
    simp only at hoffset hlayouts hassumption
    subst hoffset hlayouts hassumption
    rw [FusionRules.judge_eq hn Fuse.reorder (by rw [Node.tag, hop]; rfl)]
    simp only [Fuse.reorder, hop, hin, hout, bind, Except.bind, hzero]
    exact view_eq_eligible.2 ⟨hsame, _, hv.reads, rfl⟩
  | crop offsets sizes =>
    rw [hop] at hreason
    obtain - | - | - | ⟨helem, hfmt, hset, hw, halloc, hoffset, hlayouts, hassumption⟩ := hreason
    simp only at hoffset hlayouts hassumption
    subst hlayouts hassumption
    rw [FusionRules.judge_eq hn Fuse.crop (by rw [Node.tag, hop]; rfl)]
    simp only [Fuse.crop, hop, hin, hout, bind, Except.bind, helem, hfmt, hset, hw, halloc]
    by_cases hs : input.isStatic = true
    · simp only [hs, Bool.not_true, Bool.false_eq_true, if_false] at hoffset ⊢
      simp [hoffset, hproducer, pure, Except.pure]
    · simp only [hs, Bool.not_false, if_true] at hoffset ⊢
      simp [hoffset, hproducer, pure, Except.pure]

/-- A producer that could write its slice of `owner`, but for the padding that it may have. -/
structure Fits (g : Graph) (owner : NodeId) (output : Layout) (id : NodeId) (l : Layout) : Prop where
  writer : ∃ m, g.node? id = some m ∧ m.state.isOptimized = false ∧ writesSlices m.op = true
  here : ∀ e, g.sharing.edgeOf? id = some e → e.owner = owner
  alone : g.consumers id = [owner]
  inner : g.isOutput id = false
  layout : g.layout id = .ok l
  element : l.element = output.element
  format : l.format = output.format

theorem Fits.sliceWriter {id : NodeId} (h : Fits g n.id output id l) (hz : l.padding.isZero = true) :
    SliceWriter g n.id output id l :=
  ⟨h.writer, h.here, h.alone, h.inner, h.layout, h.element, h.format, hz⟩

theorem SliceWriter.fits {owner id : NodeId} (h : SliceWriter g owner output id l) :
    Fits g owner output id l :=
  ⟨h.writer, h.here, h.alone, h.inner, h.layout, h.element, h.format⟩

/-- Such a producer lies in no other buffer. -/
theorem Fits.taken_eq {owner id : NodeId} (h : Fits g owner output id l) :
    g.taken owner id = false := by
  obtain ⟨m, hm, hopt, -⟩ := h.writer
  rw [taken, state?, hm, Option.map_some, Option.any_some, hopt, Bool.false_or]
  simpa [Option.any_eq_false] using h.here

/-- A slice that needs no padding is all that there is. -/
theorem sliceLayout_eq_self {axis : Nat} {before after : Dim} (hv : l.isValid = true)
    (hz : l.padding.isZero = true)
    (hz' : (sliceLayout axis l before after).padding.isZero = true) :
    sliceLayout axis l before after = l := by
  have hpad : (sliceLayout axis l before after).padding = .zero l.rank := by
    rw [Padding.eq_zero_of_isZero hz']
    simp [sliceLayout, Layout.withPadding]
  have hown : l.padding = .zero l.rank := by
    rw [Padding.eq_zero_of_isZero hz, Padding.rank, (Layout.isValid_iff.1 hv).2]
  obtain ⟨shape, element, format, padding⟩ := l
  simp only [sliceLayout, Layout.withPadding, Layout.mk.injEq, true_and] at hpad hown ⊢
  exact hpad.trans hown.symm

theorem Fits.sliceProducer_of_padded {id : NodeId} (h : Fits g n.id output id l)
    (hz : l.padding.isZero = false) : sliceProducer ⟨g, n⟩ output id = .ok (.inl .paddedInput) := by
  obtain ⟨m, hm, hopt, hwrites⟩ := h.writer
  have hany : (g.sharing.edgeOf? id).any (·.owner != n.id) = false := by
    simpa [Option.any_eq_false] using h.here
  simp [sliceProducer, get_eq_ok.2 hm, hopt, hany, hwrites, h.alone, h.inner, h.layout, h.element,
    h.format, hz, bind, Except.bind, pure, Except.pure]

/-- One padded producer is enough. -/
theorem sliceProducers_of_padded {ids : List NodeId} (hfits : ∀ m ∈ ids, ∃ l, Fits g n.id output m l)
    (hpad : ∃ m ∈ ids, ∃ l, g.layout m = .ok l ∧ l.padding.isZero = false) :
    sliceProducers ⟨g, n⟩ output ids = .ok (.inl .paddedInput) := by
  induction ids with
  | nil => simp at hpad
  | cons id ids ih =>
    rw [List.forall_mem_cons] at hfits
    obtain ⟨⟨l, hl⟩, hrest⟩ := hfits
    rw [sliceProducers]
    cases hz : l.padding.isZero with
    | false =>
      rw [hl.sliceProducer_of_padded hz]
      rfl
    | true =>
      have hpad' : ∃ m ∈ ids, ∃ l, g.layout m = .ok l ∧ l.padding.isZero = false := by
        obtain ⟨m, hm, l', hl', hz'⟩ := hpad
        rcases List.mem_cons.1 hm with rfl | hm
        · obtain rfl := Except.ok.inj (hl.layout.symm.trans hl')
          cases hz.symm.trans hz'
        · exact ⟨m, hm, l', hl', hz'⟩
      rw [sliceProducer_eq_inr.2 (hl.sliceWriter hz), ih hrest hpad']
      rfl

theorem judge_of_padded {axis : Nat} (hn : g.node? n.id = some n) (hop : n.op = .concatenation axis)
    (hout : g.layout n.id = .ok output) (hfits : ∀ m ∈ n.inputs, ∃ l, Fits g n.id output m l)
    (hpad : ∃ m ∈ n.inputs, ∃ l, g.layout m = .ok l ∧ l.padding.isZero = false) :
    FusionRules.standard.judge g n.id = .ok (.rejected .paddedInput) := by
  have houtput : FusionContext.output ⟨g, n⟩ = .ok output := hout
  rw [FusionRules.judge_eq hn concatenation (by rw [Node.tag, hop]; rfl)]
  simp only [concatenation, hop, houtput, bind, Except.bind,
    sliceProducers_of_padded hfits hpad]
  rfl

end Fuse

namespace Graph

variable {g h : Graph} {x y : NodeId} {p q : Proposal}

/-- The node is optimized. -/
def isOptimizedAt (g : Graph) (id : NodeId) : Bool := (g.state? id).any (·.isOptimized)

theorem isOptimizedAt_iff : g.isOptimizedAt x = true ↔
    ∃ into offset, g.state? x = some (.optimized into offset) := by
  rw [isOptimizedAt, Option.any_eq_true]
  constructor
  · rintro ⟨s, hs, hopt⟩
    cases s <;> try cases hopt
    exact ⟨_, _, hs⟩
  · rintro ⟨into, offset, hs⟩
    exact ⟨_, hs, rfl⟩

/-- A concatenation with an input whose layout has padding. -/
def joinsPadded (g : Graph) (id : NodeId) : Bool :=
  (g.node? id).any fun n =>
    n.tag == .concatenation && n.inputs.any fun m => (g.layout m).toOption.any (!·.padding.isZero)

theorem joinsPadded_iff {n : Node} (hn : g.node? x = some n) : g.joinsPadded x = true ↔
    (∃ axis, n.op = .concatenation axis) ∧
      ∃ m ∈ n.inputs, ∃ l, g.layout m = .ok l ∧ l.padding.isZero = false := by
  have htag : n.tag = .concatenation ↔ ∃ axis, n.op = .concatenation axis := by
    rw [Node.tag]
    cases n.op <;> simp [Operation.tag]
  have hlayout : ∀ m, (g.layout m).toOption.any (!·.padding.isZero) = true ↔
      ∃ l, g.layout m = .ok l ∧ l.padding.isZero = false := by
    intro m
    cases g.layout m <;> simp [Except.toOption]
  rw [joinsPadded, hn, Option.any_some, Bool.and_eq_true, beq_iff_eq, htag, List.any_eq_true]
  simp only [hlayout]

/-- A decision that is carried out: the node has the state, the edges and the layouts that were
proposed for it. A view is one still. For a concatenation, there was a graph of which its rule made
the proposal; since then layouts of inputs have changed at most. -/
structure Rests (g : Graph) (x : NodeId) (p : Proposal) : Prop where
  state : g.state? x = some p.state
  edges : ∀ e ∈ p.edges, e ∈ g.sharing.edges
  layouts : ∀ y l, (y, l) ∈ p.layouts → g.layout y = .ok l
  reason : (∃ n into input output, g.node? x = some n ∧ Fuse.ViewProposal g n p into input output) ∨
    ∃ h n axis output extents, h.SameWiring g ∧ h.Sound ∧ h.node? x = some n ∧
      Fuse.InPlaceProposal h n p axis output extents ∧
      FusionRules.standard.judge h x = .ok (.eligible p) ∧ g.layout x = .ok output ∧
      ∀ m l, h.layout m = .ok l → l.isValid = true

/-- A proposal is about places that the node takes or hands out. -/
theorem ends_of_judge (hs : g.Sound) (hj : FusionRules.standard.judge g y = .ok (.eligible q))
    {u : SharingEdge} (hu : u ∈ q.edges) : u.owner = y ∨ u.member = y := by
  obtain ⟨n, hn, ⟨producer, input, output, hv⟩ | ⟨axis, output, extents, hc⟩⟩ := judge_eligible hj
  all_goals obtain rfl := hs.id_eq hn
  · rw [hv.edges, List.mem_singleton] at hu
    exact .inr (hu ▸ rfl)
  · obtain ⟨i, m, before, extent, l, rfl, -⟩ := hc.of_mem_edges hu
    exact .inl rfl

theorem Linked.once_of_judge (hl : g.Linked) (hs : g.Sound) {into : NodeId} {offset : Nat}
    (hy : g.state? y = some (.optimized into offset))
    (hj : FusionRules.standard.judge g y = .ok (.eligible q)) : Sharing.Once q.edges := by
  obtain ⟨n, hn, ⟨producer, input, output, hv⟩ | ⟨axis, output, extents, hc⟩⟩ := judge_eligible hj
  · simp [hv.edges, Sharing.Once]
  · rw [Sharing.Once, hc.members]
    exact hl.nodup_of_concatenation hs hy n axis hn hc.op

namespace Rests

variable (k : g.Rests x p) (hs : g.Sound)

include k hs

/-- The edges of a proposal: the view's own, or those of slices that the node hands out. -/
theorem of_mem_edges {e : SharingEdge} (he : e ∈ p.edges) :
    (∃ into offset, e = ⟨into, x, .view offset⟩ ∧ g.Feeds into x) ∨
      ∃ m i axis before extent, e = ⟨x, m, .slice i axis before extent⟩ ∧ g.Feeds m x := by
  obtain ⟨n, into, input, output, hn, hv⟩ | ⟨h, n, axis, output, extents, w, hsh, hn, hc, -⟩ :=
    k.reason
  · obtain rfl := hs.id_eq hn
    rw [hv.edges, List.mem_singleton] at he
    subst he
    exact .inl ⟨into, p.offset, rfl, .of_input hn ((input_eq_ok hn).1 hv.reads)⟩
  · obtain rfl := hsh.id_eq hn
    obtain ⟨i, m, before, extent, l, rfl, hm, -⟩ := hc.of_mem_edges he
    exact .inr ⟨m, i, axis, before, extent, rfl, w.feeds (.of_input hn hm)⟩

/-- The layouts of a proposal are about the node itself or about its inputs. -/
theorem of_mem_layouts {l : Layout} (hy : (y, l) ∈ p.layouts) : y = x ∨ g.Feeds y x := by
  obtain ⟨n, into, input, output, hn, hv⟩ | ⟨h, n, axis, output, extents, w, hsh, hn, hc, -⟩ :=
    k.reason
  · obtain rfl := hs.id_eq hn
    exact .inl (hv.reason.of_mem_layouts hy).1
  · have hmem : y ∈ n.inputs := by
      rw [← hc.keys]
      exact List.mem_map.2 ⟨_, hy, rfl⟩
    exact .inr (w.feeds ⟨n, hn, hmem⟩)

/-- It takes no more than that for a decision to remain. -/
theorem keep (w : g.SameWiring h) (hst : h.state? x = g.state? x)
    (he : ∀ e ∈ p.edges, e ∈ h.sharing.edges) (hid : h.layout x = g.layout x)
    (hin : ∀ a, g.Feeds a x → h.layout a = g.layout a) : h.Rests x p where
  state := hst.trans k.state
  edges := he
  layouts := by
    intro y l hy
    rcases k.of_mem_layouts hs hy with rfl | hf
    · exact hid.trans (k.layouts y l hy)
    · exact (hin y hf).trans (k.layouts y l hy)
  reason := by
    obtain ⟨n, into, input, output, hn, hv⟩ |
      ⟨g₀, n, axis, output, extents, w₀, hs₀, hn, hc, hj, hout, hvalid⟩ := k.reason
    · obtain rfl := hs.id_eq hn
      obtain ⟨m, hm, hv'⟩ := hv.congr hn w hid hin
      exact .inl ⟨m, into, input, output, hm, hv'⟩
    · exact .inr ⟨g₀, n, axis, output, extents, w₀.trans w, hs₀, hn, hc, hj, hid.trans hout, hvalid⟩

/-- A decision about another node is taken back. -/
theorem demote (hl : g.Linked) (hne : x ≠ y) (hy : g.isOptimizedAt y = true) :
    (Recheck.demote g y).Rests x p := by
  obtain ⟨into, offset, hy⟩ := isOptimizedAt_iff.1 hy
  refine k.keep hs (Recheck.sameWiring_demote g y).symm ?_ (fun e he => ?_)
    (Recheck.layout_demote ..) fun a _ => Recheck.layout_demote ..
  · rw [Recheck.state?_demote, state?_setState, if_neg (Ne.symm hne)]
  · rw [Recheck.sharing_demote, Sharing.mem_detach]
    refine ⟨k.edges e he, ?_⟩
    obtain ⟨into', offset', rfl, -⟩ | ⟨m, i, axis, before, extent, rfl, -⟩ := k.of_mem_edges hs he
    · simp [Sharing.lendsTo, Placement.isSlice, Placement.isView, hne]
    · have hm : m ≠ y := fun hmy => hl.not_optimized (k.edges _ he) (hmy ▸ hy)
      simp [Sharing.lendsTo, hm, hne]

/-- A decision about a node that comes later is renewed. -/
theorem renew {g' : Graph} (hl : g.Linked) (hne : x ≠ y) (hy : g.isOptimizedAt y = true)
    (hlater : ¬ g.Feeds y x) (a : Recheck.Renewed g y q g') : g'.Rests x p := by
  obtain ⟨into, offset, hy⟩ := isOptimizedAt_iff.1 hy
  have hopt : ∃ into offset, g.state? x = some (.optimized into offset) := ⟨_, _, k.state⟩
  refine k.keep hs a.wiring.symm (a.placed.state_eq hne) (fun e he => ?_)
    (a.placed.layout_eq hs hne fun _ => hopt) fun c hf =>
      a.placed.layout_eq_of_feeds hs hf (fun he => hlater (he ▸ hf)) hne
  rw [a.sharing, Sharing.mem_refresh hl.once (hl.once_of_judge hs hy a.judged)]
  refine .inr ⟨k.edges e he, fun u hu heq => ?_⟩
  have hends : u.owner = y ∨ u.member = y := ends_of_judge hs a.judged hu
  obtain ⟨ho, hm⟩ := Prod.mk.inj heq
  rw [← ho, ← hm] at hends
  obtain ⟨into', offset', rfl, hf⟩ | ⟨m, i, axis, before, extent, rfl, hf⟩ := k.of_mem_edges hs he
  · exact hends.elim (fun he => hlater (he ▸ hf)) hne
  · exact hends.elim hne fun he => hlater (he ▸ hf)

omit k in
/-- A decision that was made just now. -/
theorem of_renewed {g' : Graph} (hl : g.Linked) (hx : g.isOptimizedAt x = true)
    (hvalid : ∀ m l, g.layout m = .ok l → l.isValid = true) (a : Recheck.Renewed g x p g') :
    g'.Rests x p := by
  obtain ⟨into, offset, hx⟩ := isOptimizedAt_iff.1 hx
  have hlive : g.contains x = true := by
    obtain ⟨n, hn, -⟩ := Option.map_eq_some_iff.1 hx
    exact contains_iff.2 ⟨n, hn⟩
  have hstate : g'.state? x = some p.state := by
    rw [a.state, state?_setState, if_pos rfl, hx, Option.map_some]
  have hedges : ∀ e ∈ p.edges, (∃ e₀ ∈ g.sharing.edges, e₀.ends = e.ends) →
      e ∈ g'.sharing.edges := by
    intro e he hold
    rw [a.sharing, Sharing.mem_refresh hl.once (hl.once_of_judge hs hx a.judged)]
    exact .inl ⟨he, hold⟩
  obtain ⟨n, hn, ⟨producer, input, output, hv⟩ | ⟨axis, output, extents, hc⟩⟩ :=
    judge_eligible a.judged
  all_goals obtain rfl := hs.id_eq hn
  · obtain ⟨rfl, -, hold⟩ := hl.view_of_proposal hs hx hn hv
    cases a.placed.stands hs (hl.nodup_of_concatenation hs hx) with
    | @view m into' input' output' hm hv' hinst =>
      refine ⟨hstate, fun e he => hedges e he ⟨_, hold, ?_⟩, fun y l hy => ?_,
        .inl ⟨m, into', input', output', hm, hv'⟩⟩
      · rw [hv.edges, List.mem_singleton] at he
        rw [he]
        rfl
      · obtain rfl := (hv.reason.of_mem_layouts hy).1
        rw [hinst _ l hy]
        exact (a.wiring.symm.sound hs).id_eq hm ▸ hv'.output_layout
    | @inPlace m axis output' extents hm hc =>
      obtain ⟨m', hm', -, -, -, hop⟩ := a.wiring.symm.node hn
      obtain rfl := Option.some.inj (hm.symm.trans hm')
      exact absurd ((hop.eq_of_ne hv.reason.ne_input).symm.trans hc.op)
        (hv.reason.not_concatenation axis)
  · obtain ⟨-, -, hall⟩ := hl.inPlace_of_joins hx ⟨n, hn, hc.op⟩
    have hkeys : (p.layouts.map (·.1)).Nodup :=
      hc.keys ▸ hl.nodup_of_concatenation hs hx n axis hn hc.op
    refine ⟨hstate, fun e he => ?_, fun y l hy => ?_, .inr ⟨g, n, axis, output, extents,
      a.wiring.symm, hs, hn, hc, a.judged, ?_, hvalid⟩⟩
    · obtain ⟨i, m, before, extent, l, rfl, hm, -⟩ := hc.of_mem_edges he
      obtain ⟨b, x, hold⟩ := hall ((input_eq_ok hn).2 hm)
      exact hedges _ he ⟨_, hold, rfl⟩
    · have hin : y ∈ n.inputs := by
        rw [← hc.keys]
        exact List.mem_map.2 ⟨_, hy, rfl⟩
      rw [a.layout]
      exact layout_setLayouts_of_mem hkeys hy (hs.live ⟨n, hn, hin⟩)
    · rw [a.layout]
      refine (layout_setLayouts_of_not_mem fun hmem => ?_).trans hc.output_layout
      rw [hc.keys] at hmem
      exact hs.not_feeds_self ⟨n, hn, hmem⟩

omit hs in
/-- The inputs of a concatenation done in place still fit it, padded as they are. -/
theorem fits (hl : g.Linked) {n : Node} {axis : Nat} {output : Layout} {extents : List Dim}
    (hc : Fuse.InPlaceProposal h n p axis output extents) {m : NodeId}
    (hm : m ∈ n.inputs) : ∃ l, Fuse.Fits g n.id output m l := by
  obtain ⟨i, hi⟩ := List.mem_iff_getElem?.1 hm
  obtain ⟨l, extent, before, hw, -, -, -, he, hlay, -⟩ := hc.slice hi
  have hedge := k.edges _ (List.mem_of_getElem? he)
  obtain ⟨⟨s, hst, hopt⟩, halone, hinner, m', hm', hwrites⟩ := hl.writer hedge
  refine ⟨_, ⟨m', hm', ?_, hwrites⟩, fun e hfind => ?_, halone, hinner,
    k.layouts _ _ (List.mem_of_getElem? hlay), hw.element, hw.format⟩
  · rw [state?, hm', Option.map_some] at hst
    rwa [Option.some.inj hst]
  · have hmember : e.member = m := by simpa using List.find?_some hfind
    rw [hl.once.eq (List.mem_of_find?_eq_some hfind) hedge hmember]

/-- Asked again, the rule makes the same proposal, unless it sees the padding of slices. -/
theorem judge (hl : g.Linked) : FusionRules.standard.judge g x =
    .ok (if g.joinsPadded x then .rejected .paddedInput else .eligible p) := by
  obtain ⟨n, into, input, output, hn, hv⟩ |
    ⟨h, n, axis, output, extents, w, hsh, hn, hc, hj, hout, hvalid⟩ := k.reason
  · obtain rfl := hs.id_eq hn
    have hno : ¬ g.joinsPadded n.id = true := by
      rw [joinsPadded_iff hn]
      rintro ⟨⟨axis, hop⟩, -⟩
      exact hv.reason.not_concatenation axis hop
    rw [if_neg hno]
    exact hv.judge hn
  · obtain rfl := hsh.id_eq hn
    obtain ⟨m, hm, hmid, -, hmin, hop⟩ := w.node hn
    have hop : m.op = .concatenation axis := (hop.eq_of_ne (by simp [hc.op])).trans hc.op
    have hfits : ∀ a ∈ m.inputs, ∃ l, Fuse.Fits g m.id output a l := by
      rw [hmin, hmid]
      exact fun a ha => k.fits hl hc ha
    split
    · next hpad =>
      obtain ⟨-, hpad⟩ := (joinsPadded_iff hm).1 hpad
      rw [← hmid] at hm hout ⊢
      exact Fuse.judge_of_padded hm hop hout hfits hpad
    · next hno =>
      have hunpadded : ∀ a ∈ n.inputs, ∀ l, g.layout a = .ok l → l.padding.isZero = true := by
        rw [joinsPadded_iff hm] at hno
        intro a ha l hl
        by_contra hz
        exact hno ⟨⟨axis, hop⟩, a, hmin ▸ ha, l, hl, by simpa using hz⟩
      have halike : h.AlikeAt g n.id := by
        refine ⟨w, hout.trans hc.output_layout.symm, fun {a} hf => ?_, fun {a} hf => ?_⟩
        all_goals
          obtain ⟨n', hn', ha⟩ := hf
          obtain rfl := Option.some.inj (hn.symm.trans hn')
          obtain ⟨i, hi⟩ := List.mem_iff_getElem?.1 ha
          obtain ⟨l, extent, before, hw, -, -, -, -, hlay, -⟩ := hc.slice hi
        · have hlay := k.layouts _ _ (List.mem_of_getElem? hlay)
          rw [hlay, hw.layout, Fuse.sliceLayout_eq_self (hvalid a l hw.layout) hw.unpadded
            (hunpadded a ha _ hlay)]
        · obtain ⟨l', hfit⟩ := hfits a (hmin ▸ ha)
          rw [hmid] at hfit
          rw [hfit.taken_eq, hw.fits.taken_eq]
      rw [halike.judge_eq hsh, hj]

end Rests
end Graph
end BufferFusion
