import BufferFusion.Proofs.Execution.Demotion

/-!
# Looking at a decision again

What a compilation saw of a node's layouts and what a recheck finds in their place: the same as far
as it was known, with the same padding around the inputs of views. So the rule gives the verdict
that the concrete shapes call for.
-/
namespace BufferFusion

open Graph Fuse

variable {b f r g g' : Graph} {tensors : List (NodeId × Tensor)} {values : InputValues}
  {done : List NodeId} {id x : NodeId}

/-- The layout without its padding. -/
def Layout.bare (l : Layout) : Layout := .unpadded l.shape l.element l.format

theorem Layout.bare_of_unpadded {l : Layout} (h : l.padding = .zero l.rank) (p : Padding) :
    (l.withPadding p).bare = l := by
  obtain ⟨s, e, f, q⟩ := l
  obtain rfl : q = .zero s.rank := h
  rfl

/-- A recheck underway: the compiled graph `f`, what an execution resolved it to, and the graph as
it is now. Windows whose padding was settled at compilation have kept it. -/
structure Revisiting (b f r g : Graph) (tensors : List (NodeId × Tensor)) (values : InputValues)
    (done : List NodeId) : Prop where
  compiled : Compiled b f
  resolved : f.Resolved tensors values r
  rechecked : Rechecked r g done
  window : ∀ x ∈ done, f.Windowed x → ∀ l l', f.layout x = .ok l → g.layout x = .ok l' →
    l.padding.hasDynamic = false →
      l'.padding = l.padding ∧ ∃ into offset, g.state? x = some (.optimized into offset)

namespace Compiled

variable (c : Compiled b f)

include c

theorem wiring : f.SameWiring b :=
  let ⟨_, h⟩ := c.fused
  h.fusing.wiring

theorem sound' : f.Sound := c.wiring.symm.sound c.sound

theorem linked : f.Linked :=
  let ⟨_, h⟩ := c.fused
  h.fusing.linked

theorem layout {l : Layout} (hl : b.layout x = .ok l) : ∃ padding,
    f.layout x = .ok (l.withPadding padding) ∧ (l.withPadding padding).isAllocatable = true :=
  let ⟨_, h⟩ := c.fused
  h.padded.layout hl

theorem op_eq {n m : Node} (hn : b.node? x = some n) (hm : f.node? x = some m) : m.op = n.op := by
  have hop := c.op x
  rw [hn, hm] at hop
  exact Option.some.inj hop

/-- What was known of a layout before fusion holds of the resolved one. -/
theorem refines (hr : f.Resolved tensors values r) {l l' : Layout} (hl : b.layout x = .ok l)
    (hl' : r.layout x = .ok l') : l'.Refines l :=
  hr.refines c.sound c.laid c.wiring.symm (fun _ _ _ => c.op_eq) hl hl'

theorem unpadded {l : Layout} (hl : f.layout x = .ok l) :
    l.padding = .zero l.rank ∨ f.Windowed x ∨ ∃ owner, f.SliceOf x owner := by
  obtain ⟨done, h⟩ := c.fused
  rcases h.padded.unpadded hl with hz | ⟨-, hw⟩ | ⟨o, -, ho⟩
  · exact .inl hz
  · exact .inr (.inl hw)
  · exact .inr (.inr ⟨o, ho⟩)

theorem stands {into : NodeId} {offset : Nat} (hx : f.state? x = some (.optimized into offset)) :
    ∃ n p, f.node? x = some n ∧ n.assumption = p.assumption ∧ f.Stands x p :=
  let ⟨_, h⟩ := c.fused
  (h.stands hx).2

/-- The input of a view is no slice: its only consumer would be the concatenation. -/
theorem not_sliceOf {n : Node} {into : NodeId} {p : Proposal} {input output : Layout}
    (hn : f.node? id = some n) (hv : ViewProposal f n p into input output)
    (owner : NodeId) : ¬ f.SliceOf into owner := by
  rintro ⟨⟨offset, hst⟩, -, hcons⟩
  obtain rfl := c.sound'.id_eq hn
  have hf : f.Feeds into n.id := .of_input hn ((input_eq_ok hn).1 hv.reads)
  obtain rfl := (c.sound'.feeds_iff_of_consumers hcons).1 hf
  exact (c.linked.view_of_proposal c.sound' hst hn hv).2.1 rfl

end Compiled

namespace Revisiting

variable (k : Revisiting b f r g tensors values done)

include k

theorem soundR : r.Sound := k.resolved.relaid.wiring.sound k.compiled.sound'

theorem soundG : g.Sound := k.rechecked.sound k.soundR

theorem wiring : f.SameWiring g :=
  k.resolved.relaid.wiring.trans k.rechecked.rechecking.wiring.symm

/-- What a layout has become, step by step. -/
theorem layouts (hx : f.contains x = true) : ∃ l l', f.layout x = .ok l ∧ g.layout x = .ok l' ∧
    r.layout x = .ok l'.bare ∧ l'.Refines l ∧ l'.isStatic = true ∧ l.isAllocatable = true ∧
      l'.isAllocatable = true := by
  have hb : b.contains x = true := by rwa [← k.compiled.wiring.contains_eq]
  have hr : r.contains x = true := by rwa [← k.resolved.relaid.wiring.contains_eq]
  obtain ⟨_, _, lb, _, _, _, hlb, -⟩ := k.compiled.laid x hb
  obtain ⟨_, _, lr, _, _, hlr, -⟩ := k.resolved.inferred x hr
  obtain ⟨p, hf, hv⟩ := k.compiled.layout hlb
  obtain ⟨p', hg, hv'⟩ := k.rechecked.padded.layout hlr
  have href : lr.Refines lb := k.compiled.refines k.resolved hlb hlr
  have hbare := Layout.bare_of_unpadded (k.resolved.inferred.layout hlr).1 p'
  have hstatic := k.resolved.static hlr
  exact ⟨_, _, hf, hg, hbare.symm ▸ hlr, ⟨href.shape, href.element, href.format⟩, hstatic, hv, hv'⟩

theorem refines {l l' : Layout} (hl : f.layout x = .ok l) (hl' : g.layout x = .ok l') :
    r.layout x = .ok l'.bare ∧ l'.Refines l ∧ l'.isStatic = true ∧ l.isAllocatable = true ∧
      l'.isAllocatable = true := by
  obtain ⟨n, hn, -⟩ := layout_eq_ok.1 hl
  obtain ⟨m, m', h₁, h₂, h⟩ := k.layouts (contains_iff.2 ⟨n, hn⟩)
  obtain rfl := Except.ok.inj (hl.symm.trans h₁)
  obtain rfl := Except.ok.inj (hl'.symm.trans h₂)
  exact h

theorem state?_f (hx : x ∉ done) : f.state? x = g.state? x := by
  rw [k.rechecked.untouched x hx, k.resolved.relaid.state]

theorem optimized_f {into : NodeId} {offset : Nat}
    (hx : g.state? x = some (.optimized into offset)) :
    ∃ offset', f.state? x = some (.optimized into offset') := by
  obtain ⟨offset', h⟩ := k.rechecked.kept hx
  exact ⟨offset', by rw [← k.resolved.relaid.state, h]⟩

/-- Padding that was settled at compilation is what it was, apart from that of slices. -/
theorem padding_eq (hx : x ∈ done) (hno : ∀ owner, ¬ f.SliceOf x owner) {l l' : Layout}
    (hl : f.layout x = .ok l) (hl' : g.layout x = .ok l') (hd : l.padding.hasDynamic = false) :
    l'.padding = l.padding := by
  by_cases hw : f.Windowed x
  · exact (k.window x hx hw l l' hl hl' hd).1
  have hz : l.padding = .zero l.rank :=
    (k.compiled.unpadded hl).resolve_right fun h => h.elim hw fun ⟨o, ho⟩ => hno o ho
  have hz' : l'.padding = .zero l'.rank := by
    refine (k.rechecked.padded.unpadded hl').resolve_right ?_
    rintro (⟨-, ⟨into, offset, hst⟩, n, offsets, sizes, hn, hop⟩ | ⟨o, -, ⟨offset, hst⟩, hf, hc⟩)
    · refine hw ⟨⟨into, k.optimized_f hst⟩, ?_⟩
      obtain ⟨m, hm, -, -, -, hmop⟩ := k.wiring.symm.node hn
      have hmop := hmop.eq_of_ne (by simp [hop])
      exact ⟨m, offsets, sizes, hm, hmop.trans hop⟩
    · exact hno o ⟨k.optimized_f hst, k.wiring.symm.feeds hf, (k.wiring.consumers_eq x).trans hc⟩
  rw [hz, hz', Layout.rank, Layout.rank, Shape.rank, Shape.rank,
    (k.refines hl hl').2.1.shape.length_eq]

/-- A node that is not done has no padding yet. -/
theorem unpadded (hx : x ∉ done) {l : Layout} (hl : g.layout x = .ok l)
    (hno : ∀ owner ∈ done, ¬ g.Feeds x owner) : l.padding = .zero l.rank := by
  refine (k.rechecked.padded.unpadded hl).resolve_right ?_
  rintro (⟨hd, -⟩ | ⟨o, ho, -, hf, -⟩)
  · exact hx hd
  · exact hno o ho hf

/-- What the operation of a node yields, told of the layouts as they are now. -/
theorem yields {n : Node} (hn : g.node? id = some n) (hne : ∀ l, n.op ≠ .input l) :
    ∃ q ins l, r.Lays n.inputs ins ∧ g.layout id = .ok l ∧ Infer.Yields q n.op ins l.bare := by
  have hf : f.contains id = true := by
    rw [k.wiring.contains_eq]
    exact contains_iff.2 ⟨n, hn⟩
  obtain ⟨-, l', -, hl', hr, -⟩ := k.layouts hf
  obtain ⟨m, ins, lr, hm, hins, hlr, hy, -⟩ := k.resolved.inferred id (by
    rwa [← k.resolved.relaid.wiring.contains_eq])
  obtain rfl := Except.ok.inj (hr.symm.trans hlr)
  obtain ⟨m', hm', -, -, hin, hop⟩ := k.rechecked.rechecking.wiring.node hn
  obtain rfl := Option.some.inj (hm.symm.trans hm')
  rw [hop.eq_of_ne hne] at hy
  rw [hin] at hins
  exact ⟨_, ins, l', hins, hl', hy⟩

end Revisiting

/-- A view that is about to be looked at again: what compilation saw and what there is now. -/
structure ViewNow (f r g : Graph) (id : NodeId) (n₀ : Node) (p : Proposal) (into : NodeId)
    (input₀ output₀ : Layout) (n : Node) (input output : Layout) : Prop where
  node : g.node? id = some n
  id_eq : n.id = id
  op : n.op = n₀.op
  reads : g.input n.id 0 = .ok into
  input_layout : g.layout into = .ok input
  output_layout : g.layout n.id = .ok output
  padding : input.padding = input₀.padding
  input_refines : input.Refines input₀
  output_refines : output.Refines output₀
  input_static : input.isStatic = true
  output_static : output.isStatic = true
  input_allocatable : input.isAllocatable = true
  output_allocatable : output.isAllocatable = true
  unpadded : output.padding = .zero output.rank
  yields : ∃ q rest, Infer.Yields q n.op (input.bare :: rest) output.bare

theorem Fuse.ViewReason.settled {p : Proposal} {op : Operation} {input output : Layout}
    (h : ViewReason id input output p op) : input.padding.hasDynamic = false := by
  cases h with
  | reshape hplain _ _ _ _ _ | permute hplain _ _ _ _ _ _ =>
    exact Padding.settled_of_isZero (obstacle_eq_none.1 hplain).1
  | reorder hzero _ _ _ _ => exact Padding.settled_of_isZero hzero
  | crop _ _ hset _ _ _ _ _ => exact hset

namespace Revisiting

variable (k : Revisiting b f r g tensors values done)

include k

theorem viewNow (hnew : id ∉ done) (hready : ∀ a, r.Feeds a id → a ∈ done) {n₀ : Node}
    {p : Proposal} {into : NodeId} {input₀ output₀ : Layout} (hn₀ : f.node? id = some n₀)
    (hv : ViewProposal f n₀ p into input₀ output₀) :
    ∃ n input output, ViewNow f r g id n₀ p into input₀ output₀ n input output := by
  obtain ⟨n, hn, hid, -, hin, hop⟩ := k.wiring.node hn₀
  have hop := hop.eq_of_ne hv.reason.ne_input
  obtain rfl := k.compiled.sound'.id_eq hn₀
  have hfeeds : f.Feeds into n₀.id := .of_input hn₀ ((input_eq_ok hn₀).1 hv.reads)
  have hdone : into ∈ done := hready into (k.resolved.relaid.wiring.feeds hfeeds)
  obtain ⟨l, input, hl, hinput, hrin, href, hs, hv₁, hv₂⟩ := k.layouts (k.compiled.sound'.live hfeeds)
  obtain rfl := Except.ok.inj (hl.symm.trans hv.input_layout)
  obtain ⟨l', output, hl', houtput, -, href', hs', hv₃, hv₄⟩ :=
    k.layouts (contains_iff.2 ⟨n₀, hn₀⟩)
  obtain rfl := Except.ok.inj (hl'.symm.trans hv.output_layout)
  have hreads : g.input n.id 0 = .ok into := by
    rw [hid]
    exact k.wiring.input hv.reads
  refine ⟨n, input, output, hn, hid, hop, hreads, hinput, hid ▸ houtput, ?_, href, href', hs, hs',
    hv₂, hv₄, ?_, ?_⟩
  · exact k.padding_eq hdone (k.compiled.not_sliceOf hn₀ hv) hl hinput hv.reason.settled
  · refine k.unpadded hnew houtput fun o ho hf => hnew ?_
    exact k.rechecked.closed (k.rechecked.rechecking.wiring.feeds hf) ho
  · obtain ⟨q, ins, l, hins, hl, hy⟩ := k.yields hn (by rw [hop]; exact hv.reason.ne_input)
    obtain rfl := Except.ok.inj (houtput.symm.trans hl)
    have h0 := (input_eq_ok hn₀).1 hv.reads
    rw [hin] at hins
    generalize n₀.inputs = ids at h0 hins
    obtain _ | ⟨ha, -⟩ := hins
    · cases h0
    obtain rfl := Option.some.inj h0
    obtain rfl := Except.ok.inj (hrin.symm.trans ha)
    exact ⟨q, _, hy⟩

end Revisiting

/-! ### Views -/

namespace Infer.Yields

variable {q : Option (List Float)} {a l : Layout} {rest : List Layout}

theorem volume_reshape {target : ReshapeTarget} {copyZeros : Bool}
    (h : Yields q (.reshape target copyZeros) (a :: rest) l) (ha : a.isStatic = true)
    (hl : l.isStatic = true) : a.shape.volume ≠ l.shape.volume ↔ l.rank = 0 ∧ a.shape.volume ≠ 1 := by
  have hscalar : l.rank = 0 → l.shape.volume = 1 := fun hr => by
    rw [Shape.volume, List.eq_nil_of_length_eq_zero hr]
    rfl
  suffices hor : a.shape.volume = l.shape.volume ∨ l.rank = 0 by
    constructor
    · intro hne
      have hr := hor.resolve_left hne
      exact ⟨hr, by rwa [hscalar hr] at hne⟩
    · rintro ⟨hr, hne⟩
      rwa [hscalar hr]
  cases h with
  | @reshape _ _ _ _ pattern shape hread hshape =>
    cases pattern with
    | some pattern => exact .inl (Shape.volume_reshape ha hshape hl).symm
    | none =>
      refine .inr ?_
      obtain ⟨_, -, hs⟩ := Result.bind_eq_ok.1 hshape
      obtain rfl := Except.ok.inj hs
      cases hrank : targetRank target with
      | zero => simp [Layout.plain, Layout.unpadded, Layout.rank]
      | succ n =>
        have hl : (Shape.unknowns (targetRank target)).isStatic = true := hl
        rw [hrank, Shape.isStatic_iff_unknown] at hl
        simp [Shape.unknowns, List.replicate_succ] at hl

theorem volume_permute {order : List Nat} (h : Yields q (.permute order) (a :: rest) l) :
    a.shape.volume = l.shape.volume := by
  cases h with
  | permute hlen hbij => exact (Shape.volume_perm (perm_of_isPermutation hbij hlen)).symm

theorem eq_of_reorder {format : Format} {element : ElementType}
    (h : Yields q (.reorder format element) (a :: rest) l) (hr : l.rank = a.rank) :
    l.shape = a.shape := by
  cases h with
  | reorder hfit => exact Shape.fit_eq_self hfit hr

theorem crop_lengths {offsets sizes : List Nat} (h : Yields q (.crop offsets sizes) (a :: rest) l) :
    offsets.length = a.rank ∧ sizes.length = a.rank ∧ l.rank = a.rank := by
  cases h with
  | crop ho hs _ => exact ⟨ho, hs, by simpa [Layout.rank, Layout.unpadded] using hs⟩

end Infer.Yields

/-- A layout with known dims is the same as itself. -/
theorem Layout.compare_self {l : Layout} (hs : l.isStatic = true)
    (hd : l.padding.hasDynamic = false) : l.compare l = .compatible := by
  have hdims : ∀ ns : List Nat, compareDims (ns.map .known) (ns.map .known) = .compatible := by
    intro ns
    induction ns with
    | nil => rfl
    | cons n ns ih => simp [compareDims, Dim.compare, ih, Compatibility.and]
  obtain ⟨ns, hns⟩ := Shape.exists_sizes hs
  simp [compare, hd, hns, hdims, Compatibility.and]

theorem Layout.compare_ne {l l' : Layout} (h : (l.compare l').isCompatible = true) :
    l.rank = l'.rank ∧ l.element = l'.element ∧ l.format = l'.format ∧ l.padding = l'.padding := by
  simp only [compare] at h
  split at h
  · next he => exact he
  · cases h

namespace ViewNow

variable {n₀ n : Node} {p : Proposal} {into : NodeId} {input₀ output₀ input output : Layout}

theorem obstacle (v : ViewNow f r g id n₀ p into input₀ output₀ n input output)
    (h : viewObstacle? input₀ output₀ = none) : viewObstacle? input output = none := by
  rw [obstacle_eq_none] at h ⊢
  rw [v.padding, v.input_refines.format, v.output_refines.format, v.input_refines.element,
    v.output_refines.element]
  exact h

/-- A comparison that was settled at compilation holds for good. -/
theorem volume_eq (v : ViewNow f r g id n₀ p into input₀ output₀ n input output)
    {compared : Compatibility} (ho : viewObstacle? input₀ output₀ = none)
    (hc : compareFlat input₀ output₀ = .ok compared) (hsame : compared.isCompatible = true)
    (hsettled : compared.isPending = false) : input.shape.volume = output.shape.volume := by
  obtain ⟨hs, hs', hvol⟩ := volume_eq_of_not_pending ho hc hsame hsettled
  rw [v.input_refines.shape.eq_of_isStatic hs, v.output_refines.shape.eq_of_isStatic hs', hvol]

theorem not_pending {compared : Compatibility} {a : Assumption}
    (h : (if compared.isPending then some a else none) = none) : compared.isPending = false := by
  simpa using h

/-- A window that was settled at compilation begins where blocks begin. -/
theorem not_fails_of_static (v : ViewNow f r g id n₀ p into input₀ output₀ n input output)
    {offsets sizes : List Nat} {axes : List AxisPadding} (hop : n.op = .crop offsets sizes)
    (hw : windowPadding input₀.shape.dims input₀.padding.axes offsets sizes = .ok axes)
    (halloc : (output₀.withPadding ⟨axes⟩).isAllocatable = true)
    (hs : input₀.isStatic = true) : ¬ g.Fails id := by
  obtain ⟨q, rest, hy⟩ := v.yields
  rw [hop] at hy
  obtain ⟨ho, hsz, hr⟩ := hy.crop_lengths
  have hshape := v.input_refines.shape.eq_of_isStatic hs
  rw [← hshape, ← v.padding] at hw
  have haxes := (Layout.isValid_iff.1 (Layout.isValid_of_isAllocatable v.input_allocatable)).2
  have hunknown := Shape.isStatic_iff_unknown.1 v.input_static
  obtain rfl := v.id_eq
  rw [fails_crop v.node hop v.output_layout v.reads v.input_layout]
  rintro ⟨hb, a, o, ha, ho', hcut⟩
  have hrank : 1 < input.shape.dims.length := by
    have := (Layout.isValid_iff.1 (Layout.isValid_of_isAllocatable v.output_allocatable)).1
    rw [hb, show output.rank = input.rank from hr] at this
    have hr : input.rank = 4 := by simpa [Format.holdsRank, Format.maxRank] using this
    have hlt : 1 < input.rank := by omega
    exact hlt
  obtain ⟨a', o', ha', ho'', hl⟩ := lower_windowPadding haxes ho hsz hw hunknown hrank
  obtain rfl := Option.some.inj (ha.symm.trans ha')
  obtain rfl := Option.some.inj (ho'.symm.trans ho'')
  have hset := (hasDynamic_windowPadding haxes ho hsz hw).2 hunknown
  have := ((Layout.isAllocatable_iff hset).1 halloc).2 (v.output_refines.format.symm.trans hb)
  exact hcut (hl ▸ this)

/-- A reorder that keeps rank, format and type is the identity on layouts. -/
theorem output_eq_input (v : ViewNow f r g id n₀ p into input₀ output₀ n input output)
    {format : Format} {element : ElementType} (hop : n.op = .reorder format element)
    (hz : input.padding.isZero = true) (hsame : (input₀.compare output₀).isCompatible = true) :
    output = input := by
  obtain ⟨q, rest, hy⟩ := v.yields
  rw [hop] at hy
  obtain ⟨hrank, helem, hfmt, -⟩ := Layout.compare_ne hsame
  have hrank' : output.rank = input.rank := by
    have h₁ := v.input_refines.shape.length_eq
    have h₂ := v.output_refines.shape.length_eq
    exact h₂.trans (hrank.symm.trans h₁.symm)
  have hshape : output.shape = input.shape := hy.eq_of_reorder hrank'
  have he : output.element = input.element := by
    rw [v.output_refines.element, v.input_refines.element, helem]
  have hf : output.format = input.format := by
    rw [v.output_refines.format, v.input_refines.format, hfmt]
  have hp : output.padding = input.padding := by
    rw [v.unpadded, hrank', Padding.eq_zero_of_isZero hz, Padding.rank,
      (Layout.isValid_iff.1 (Layout.isValid_of_isAllocatable v.input_allocatable)).2]
  obtain ⟨_, _, _, _⟩ := output
  obtain ⟨_, _, _, _⟩ := input
  simp only at hshape he hf hp
  rw [hshape, he, hf, hp]

/-- A view is taken back exactly if it fails, and it can fail only on an assumption. -/
theorem verdict (v : ViewNow f r g id n₀ p into input₀ output₀ n input output)
    (hr : ViewReason id input₀ output₀ p n.op) :
    Verdict (FusionRules.standard.judge g id) (g.Fails id) ∧
      (p.assumption = none → ¬ g.Fails id) := by
  obtain rfl := v.id_eq
  obtain ⟨q, rest, hy⟩ := v.yields
  have hval := Layout.isValid_of_isAllocatable v.output_allocatable
  cases hop : n.op with
  | input | constant | concatenation | fullyConnected =>
    rw [hop] at hr
    cases hr
  | reshape target copyZeros =>
    rw [hop] at hr hy
    obtain ⟨hplain, hflat, hsame, -, -, ha⟩ := hr
    have hvol := hy.volume_reshape v.input_static v.output_static
    have hfails := fails_reshape v.node hop v.output_layout v.reads v.input_layout
    have hiff := hvol.trans hfails.symm
    rw [FusionRules.judge_eq v.node Fuse.reshape (by rw [Node.tag, hop]; rfl)]
    refine ⟨(reshape_verdict v.reads v.input_layout v.output_layout hop (v.obstacle hplain)
      v.input_static v.output_static).congr hiff, fun hnone hf => hiff.2 hf ?_⟩
    exact v.volume_eq hplain hflat hsame (not_pending (ha.symm.trans hnone))
  | permute order =>
    rw [hop] at hr hy
    obtain - | ⟨hplain, hord, -⟩ := hr
    have hno : ¬ g.Fails n.id := Graph.not_fails v.node (by simp [hop]) (by simp [hop])
      (by simp [hop])
    rw [FusionRules.judge_eq v.node Fuse.permute (by rw [Node.tag, hop]; rfl)]
    refine ⟨(permute_verdict v.reads v.input_layout v.output_layout hop (v.obstacle hplain)
      (orderObstacle_refines v.input_refines.shape (by simp) hord) v.input_static
      v.output_static).congr ?_, fun _ => hno⟩
    exact iff_of_false (fun hne => hne hy.volume_permute) hno
  | reorder format element =>
    rw [hop] at hr hy
    obtain - | - | ⟨hzero, hsame, -⟩ := hr
    have hno : ¬ g.Fails n.id := Graph.not_fails v.node (by simp [hop]) (by simp [hop])
      (by simp [hop])
    have hz : input.padding.isZero = true := v.padding.symm ▸ hzero
    rw [FusionRules.judge_eq v.node Fuse.reorder (by rw [Node.tag, hop]; rfl)]
    refine ⟨(reorder_verdict v.reads v.input_layout v.output_layout hop hz ?_).congr
      (iff_of_false id hno), fun _ => hno⟩
    rw [v.output_eq_input hop hz hsame,
      Layout.compare_self v.input_static (Padding.settled_of_isZero hz)]
    rfl
  | crop offsets sizes =>
    rw [hop] at hr hy
    obtain - | - | - | ⟨helem, hfmt, hset, hw, halloc, -, -, ha⟩ := hr
    obtain ⟨ho, hsz, hrank⟩ := hy.crop_lengths
    rw [FusionRules.judge_eq v.node Fuse.crop (by rw [Node.tag, hop]; rfl)]
    refine ⟨(crop_verdict v.reads v.input_layout v.output_layout hop ?_ ?_ v.input_static
      (v.padding.symm ▸ hset) v.input_allocatable hval hrank ho hsz).congr
        (fails_crop v.node hop v.output_layout v.reads v.input_layout).symm, fun hnone => ?_⟩
    · rw [v.input_refines.element, v.output_refines.element, helem]
    · rw [v.input_refines.format, v.output_refines.format, hfmt]
    · refine v.not_fails_of_static hop hw halloc ?_
      have := ha.symm.trans hnone
      simpa using this

end ViewNow

/-! ### Concatenations -/

namespace Revisiting

variable (k : Revisiting b f r g tensors values done) {n n₀ : Node} {axis : Nat} {l₀ l : Layout}

include k

/-- The inputs of a concatenation that was done in place can still write its slices. -/
theorem sliceWriters (hnew : id ∉ done) (hn : g.node? id = some n)
    (hop : n.op = .concatenation axis) (hl : g.layout id = .ok l) {into : NodeId} {offset : Nat}
    (hst : g.state? id = some (.optimized into offset)) :
    ∀ m ∈ n.inputs, ∃ lm, SliceWriter g n.id l m lm ∧ axis < lm.rank ∧ lm.isStatic = true ∧
      lm.isValid = true := by
  intro m hm
  obtain rfl := k.soundG.id_eq hn
  have linked := k.rechecked.rechecking.linked
  obtain ⟨i, hi⟩ := List.mem_iff_getElem?.1 hm
  have hfeeds : g.Feeds m n.id := .of_input hn hi
  obtain ⟨-, -, hall⟩ := linked.inPlace_of_joins hst ⟨n, hn, hop⟩
  obtain ⟨before, extent, he⟩ := hall ((input_eq_ok hn).2 hi)
  obtain ⟨⟨s, hs, hopt⟩, halone, hinner, hwrites⟩ := linked.writer he
  obtain ⟨lf, lm, -, hlm, hrm, -, hstatic, -, halloc⟩ := k.layouts
    ((k.wiring.contains_eq m).trans (k.soundG.live hfeeds))
  obtain ⟨q, ins, l', hins, hl', hy⟩ := k.yields hn (by simp [hop])
  obtain rfl := Except.ok.inj (hl.symm.trans hl')
  rw [hop] at hy
  obtain ⟨hax, hsame⟩ := hy.concatenation_inputs
  obtain ⟨hrank, helem, hfmt⟩ := hsame _ (List.mem_of_getElem? (hins.getElem? hi hrm))
  have hzero : lm.padding = .zero lm.rank := by
    refine (k.rechecked.padded.unpadded hlm).resolve_right ?_
    rintro (⟨-, ⟨into', offset', hopt'⟩, -⟩ | ⟨o, ho, -, -, hcons⟩)
    · exact linked.not_optimized he hopt'
    · rw [halone] at hcons
      exact hnew ((List.cons.inj hcons).1 ▸ ho)
  obtain ⟨m', hm', hms⟩ := Option.map_eq_some_iff.1 hs
  obtain ⟨m'', hm'', hw⟩ := hwrites
  obtain rfl := Option.some.inj (hm'.symm.trans hm'')
  refine ⟨lm, ⟨⟨m', hm', hms ▸ hopt, hw⟩, fun e hedge => ?_, halone, hinner, hlm, helem, hfmt, ?_⟩,
    ?_, hstatic, Layout.isValid_of_isAllocatable halloc⟩
  · have hem := List.mem_of_find?_eq_some hedge
    have hmember : e.member = m := by simpa using List.find?_some hedge
    rw [linked.once.eq hem he hmember]
  · rw [hzero, Padding.isZero_zero]
  · exact hrank ▸ hax

omit k in
/-- A settled slice has known extents around it. -/
theorem known_of_settled {extents : List Dim} {lm : Layout} {i : Nat} (haxis : axis < lm.rank)
    (hpad : lm.padding = (Padding.zero lm.rank).set axis
      (slicePadding (Dim.total (extents.take i)) (Dim.total (extents.drop (i + 1)))))
    (hset : lm.padding.hasDynamic = false) : ∃ before after,
      Dim.total (extents.take i) = .known before ∧
        Dim.total (extents.drop (i + 1)) = .known after := by
  have hmem : slicePadding (Dim.total (extents.take i)) (Dim.total (extents.drop (i + 1))) ∈
      lm.padding.axes := by
    rw [hpad]
    exact List.mem_set (by simpa [Padding.zero] using haxis) _
  have hno := (List.any_eq_false.1 hset) _ hmem
  revert hno
  cases Dim.total (extents.take i) <;> cases Dim.total (extents.drop (i + 1)) <;>
    simp [slicePadding, AxisPadding.pending]

/-- Extents that were known at compilation are those of the inputs now. -/
theorem extents_take {extents : List Dim} (hn₀ : f.node? id = some n₀)
    (hc : f.InPlace n₀ axis l₀ extents) {i : Nat} {ns : List Nat}
    (hns : extents.take i = ns.map .known) : Extents g axis (n₀.inputs.take i) ns := by
  have hlen : (n₀.inputs.take i).length = ns.length := by
    have := congrArg List.length hns
    rw [List.length_take, List.length_map, hc.length_extents] at this
    rw [List.length_take, this]
  refine List.forall₂_iff_get.2 ⟨hlen, fun j h₁ h₂ => ?_⟩
  have hj : j < i ∧ j < n₀.inputs.length := by
    rw [List.length_take] at h₁
    exact Nat.lt_min.1 h₁
  obtain ⟨lj, extent, hlj, -, -, hdj, hexj, -⟩ := hc.slice (List.getElem?_eq_getElem hj.2)
  have hknown : extent = .known ns[j] := by
    have := congrArg (·[j]?) hns
    simpa [List.getElem?_take, hj.1, hexj, h₂] using this
  obtain ⟨-, l', -, hl', -⟩ := k.layouts (k.compiled.sound'.live
    (.of_input hn₀ (List.getElem?_eq_getElem hj.2)))
  have href := (k.refines hlj hl').2.1.shape
  obtain ⟨hlt, hget⟩ := List.getElem?_eq_some_iff.1 hdj
  have hlt' : axis < l'.shape.dims.length := href.length_eq ▸ hlt
  have := href.get hlt' hlt
  rw [List.get_eq_getElem, List.get_eq_getElem, hget, hknown, Dim.refines_known] at this
  simp only [List.get_eq_getElem, List.getElem_take]
  exact dim?_eq_some.2 ⟨l', hl', by rw [List.getElem?_eq_getElem hlt', this]⟩

/-- Slices that were settled at compilation begin where blocks begin. -/
theorem not_fails_of_settled {extents : List Dim} (hn₀ : f.node? id = some n₀)
    (hn : g.node? id = some n) (hin : n.inputs = n₀.inputs) (hop : n.op = .concatenation axis)
    (hl : g.layout id = .ok l) (hc : f.InPlace n₀ axis l₀ extents)
    (hset : ∀ m ∈ n₀.inputs, ∀ lm, f.layout m = .ok lm → lm.padding.hasDynamic = false) :
    ¬ g.Fails id := by
  rw [fails_concatenation hn hop hl]
  rintro ⟨rfl, hb, i, earlier, hi, hx, hcut⟩
  rw [hin] at hi hx
  have hm := List.getElem?_eq_getElem hi
  obtain ⟨lm, extent, hlm, -, hfmt, hd, hex, hpad, halloc⟩ := hc.slice hm
  have hvalid := Layout.isValid_of_isAllocatable halloc
  have hrank : 1 < lm.rank := (List.getElem?_eq_some_iff.1 hd).1
  have hsettled := hset _ (List.getElem_mem hi) lm hlm
  obtain ⟨before, after, hbefore, hafter⟩ := known_of_settled hrank hpad hsettled
  have hslice : sliceLayout 1 lm (.known before) (.known after) = lm := by
    rw [hbefore, hafter] at hpad
    rw [sliceLayout, ← hpad]
    rfl
  obtain ⟨ns, hns, hsum⟩ := Dim.known_of_total hbefore
  obtain ⟨n₁, hn₁, -⟩ := layout_eq_ok.1 hc.output_layout
  have hmod : before % 16 = 0 := by
    have h := (isAllocatable_sliceLayout hvalid hrank).1 (hslice.symm ▸ halloc)
    refine h ?_ rfl
    obtain rfl := k.compiled.sound'.id_eq hn₀
    rw [hfmt, ← (k.refines hc.output_layout hl).2.1.format, hb]
  rw [hx.unique (k.extents_take hn₀ hc hns), hsum] at hcut
  exact hcut hmod

end Revisiting
end BufferFusion
