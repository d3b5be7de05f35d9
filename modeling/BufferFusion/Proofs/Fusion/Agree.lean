import BufferFusion.Execution.Resolve
import BufferFusion.Proofs.Fusion.Steps
import BufferFusion.Proofs.Graph.Built

/-!
# Agreement of states and edges

After fusion, and again after any number of executions have resolved and rechecked the graph, the
states of the nodes and the edges of the shared buffers say the same, and every slice lies where
the extents of the inputs before it end.
-/
namespace BufferFusion

namespace Graph

variable {g h : Graph} {id x : NodeId} {axis : Nat}

/-- The dim of a node's layout on an axis. -/
def dim? (g : Graph) (axis : Nat) (id : NodeId) : Option Dim :=
  (g.layout id).toOption.bind (·.shape.dims[axis]?)

theorem dim?_eq_some {d : Dim} :
    g.dim? axis id = some d ↔ ∃ l, g.layout id = .ok l ∧ l.shape.dims[axis]? = some d := by
  simp only [dim?]
  cases g.layout id <;> simp [Except.toOption]

theorem dim?_congr (hl : h.layout x = g.layout x) : h.dim? axis x = g.dim? axis x := by
  rw [dim?, dim?, hl]

theorem dim?_setLayouts {ls : List (NodeId × Layout)}
    (hls : ∀ x l, (x, l) ∈ ls → ∃ l₀, g.layout x = .ok l₀ ∧ l.shape = l₀.shape) (x : NodeId) :
    (g.setLayouts ls).dim? axis x = g.dim? axis x := by
  induction ls generalizing g with
  | nil => rfl
  | cons q ls ih =>
    obtain ⟨y, l⟩ := q
    obtain ⟨l₀, hl₀, hshape⟩ := hls y l List.mem_cons_self
    have hlive : g.contains y = true := by
      obtain ⟨n, hn, -⟩ := layout_eq_ok.1 hl₀
      exact contains_iff.2 ⟨n, hn⟩
    refine (ih (g := g.setLayout y l) ?_).trans ?_
    · intro z l' hz
      by_cases hzy : z = y
      · subst hzy
        obtain ⟨l₁, hl₁, hs⟩ := hls z l' (List.mem_cons_of_mem _ hz)
        obtain rfl := Except.ok.inj (hl₀.symm.trans hl₁)
        exact ⟨l, layout_setLayout_self hlive, hs.trans hshape.symm⟩
      · rw [layout_setLayout_of_ne hzy]
        exact hls z l' (List.mem_cons_of_mem _ hz)
    · by_cases hxy : x = y
      · subst hxy
        simp only [dim?, layout_setLayout_self hlive, hl₀, Except.toOption, Option.bind_some,
          hshape]
      · simp only [dim?, layout_setLayout_of_ne hxy]

/-- The slices of a concatenation lie where the extents of its inputs put them. -/
def PlacedAt (g : Graph) (id : NodeId) : Prop :=
  ∀ member index axis offset extent,
    ⟨id, member, .slice index axis offset extent⟩ ∈ g.sharing.edges → ∃ n extents,
      g.node? id = some n ∧ List.Forall₂ (fun m d => g.dim? axis m = some d) n.inputs extents ∧
        extents[index]? = some extent ∧
        (extents.take index).foldlM Dim.add (.known 0) = .ok offset

theorem PlacedAt.congr (k : g.PlacedAt id) (w : g.SameWiring h)
    (hdim : ∀ axis x, h.dim? axis x = g.dim? axis x)
    (he : ∀ {m i axis b e}, ⟨id, m, .slice i axis b e⟩ ∈ h.sharing.edges →
      ⟨id, m, .slice i axis b e⟩ ∈ g.sharing.edges) : h.PlacedAt id := by
  intro m i a b e hm
  obtain ⟨n, extents, hn, hex, h₁, h₂⟩ := k _ _ _ _ _ (he hm)
  obtain ⟨n', hn', -, -, hin, -⟩ := w.node hn
  refine ⟨n', extents, hn', ?_, h₁, h₂⟩
  rw [hin]
  exact hex.imp fun _ _ hd => (hdim ..).trans hd

end Graph

open Graph Pass

namespace Fuse.InPlaceProposal

variable {g : Graph} {n : Node} {p : Proposal} {axis : Nat} {output : Layout} {extents : List Dim}

theorem members (k : InPlaceProposal g n p axis output extents) :
    p.edges.map (·.member) = n.inputs := by
  refine List.ext_getElem? fun i => ?_
  cases hi : n.inputs[i]? with
  | none =>
    rw [List.getElem?_eq_none_iff] at hi ⊢
    simpa [k.length_edges] using hi
  | some m =>
    obtain ⟨l, extent, before, -, -, -, -, he, -⟩ := k.slice hi
    simp [he]

theorem keys (k : InPlaceProposal g n p axis output extents) :
    p.layouts.map (·.1) = n.inputs := by
  refine List.ext_getElem? fun i => ?_
  cases hi : n.inputs[i]? with
  | none =>
    rw [List.getElem?_eq_none_iff] at hi ⊢
    simpa [k.length_layouts] using hi
  | some m =>
    obtain ⟨l, extent, before, -, -, -, -, -, hl, -⟩ := k.slice hi
    simp [hl]

theorem dims (k : InPlaceProposal g n p axis output extents) :
    List.Forall₂ (fun m d => g.dim? axis m = some d) n.inputs extents := by
  refine List.forall₂_iff_get.2 ⟨k.length_extents.symm, fun i h₁ h₂ => ?_⟩
  obtain ⟨l, extent, before, hw, hd, he, -⟩ := k.slice (List.getElem?_eq_getElem h₁)
  rw [List.getElem?_eq_getElem h₂] at he
  exact dim?_eq_some.2 ⟨l, hw.layout, hd.trans he.symm⟩

/-- The slice that an edge of the proposal is about. -/
theorem of_mem_edges (k : InPlaceProposal g n p axis output extents) {e : SharingEdge}
    (he : e ∈ p.edges) : ∃ i m before extent l, e = ⟨n.id, m, .slice i axis before extent⟩ ∧
      n.inputs[i]? = some m ∧ SliceWriter g n.id output m l ∧ extents[i]? = some extent ∧
      (extents.take i).foldlM Dim.add (.known 0) = .ok before := by
  obtain ⟨i, hi⟩ := List.mem_iff_getElem?.1 he
  have hlt : i < n.inputs.length := k.length_edges ▸ (List.getElem?_eq_some_iff.1 hi).1
  have hm := List.getElem?_eq_getElem hlt
  obtain ⟨l, extent, before, hw, -, hex, hb, he', -⟩ := k.slice hm
  rw [hi] at he'
  exact ⟨i, n.inputs[i], before, extent, l, Option.some.inj he', hm, hw, hex, hb⟩

/-- Padding is all that changes about the layouts of the inputs. -/
theorem of_mem_layouts (k : InPlaceProposal g n p axis output extents) {x : NodeId} {l : Layout}
    (hx : (x, l) ∈ p.layouts) : ∃ l₀, g.layout x = .ok l₀ ∧ l.shape = l₀.shape := by
  obtain ⟨i, hi⟩ := List.mem_iff_getElem?.1 hx
  have hlt : i < n.inputs.length := k.length_layouts ▸ (List.getElem?_eq_some_iff.1 hi).1
  obtain ⟨l', extent, before, hw, -, -, -, -, hl, -⟩ := k.slice (List.getElem?_eq_getElem hlt)
  rw [hi] at hl
  obtain ⟨rfl, rfl⟩ := Prod.mk.inj (Option.some.inj hl)
  exact ⟨l', hw.layout, rfl⟩

theorem slices (k : InPlaceProposal g n p axis output extents) (hn : g.node? n.id = some n)
    (ho : Sharing.Once p.edges) : Linked.Slices g n.id axis p.edges where
  once := ho
  slice := by
    intro e he
    obtain ⟨i, m, before, extent, l, rfl, hm, -⟩ := k.of_mem_edges he
    exact ⟨i, m, before, extent, rfl, (input_eq_ok hn).2 hm⟩
  all := by
    intro i m hm
    obtain ⟨l, extent, before, -, -, -, -, he, -⟩ := k.slice ((input_eq_ok hn).1 hm)
    exact ⟨before, extent, List.mem_of_getElem? he⟩

/-- What the proposal places, it places where the extents say. -/
theorem placedAt (k : InPlaceProposal g n p axis output extents) (hn : g.node? n.id = some n)
    {h : Graph} (w : g.SameWiring h) (hdim : ∀ axis x, h.dim? axis x = g.dim? axis x)
    (he : ∀ {m i axis b e}, ⟨n.id, m, .slice i axis b e⟩ ∈ h.sharing.edges →
      ⟨n.id, m, .slice i axis b e⟩ ∈ p.edges) : h.PlacedAt n.id := by
  intro m i a b e hm
  obtain ⟨i', m', before, extent, l, heq, -, -, hex, hb⟩ := k.of_mem_edges (he hm)
  cases heq
  obtain ⟨n', hn', -, -, hin, -⟩ := w.node hn
  refine ⟨n', extents, hn', ?_, hex, hb⟩
  rw [hin]
  exact k.dims.imp fun _ _ hd => (hdim ..).trans hd

end Fuse.InPlaceProposal

/-! ### Fusion -/

variable {g g' h : Graph} {id : NodeId} {done : List NodeId} {p : Proposal}

theorem not_optimized_of_not_terminal {s : FusionState} (hs : s.isTerminal = false) :
    s.isOptimized = false := by
  cases s <;> first | rfl | cases hs

/-- What fusion keeps: slices are placed, and only nodes that are done have a place. -/
structure Fusing (h g : Graph) (done : List NodeId) : Prop where
  wiring : g.SameWiring h
  linked : g.Linked
  placed : ∀ c, g.PlacedAt c
  touched : ∀ e ∈ g.sharing.edges, e.member ∈ done

theorem Pass.Accepted.dim?_eq {f : Graph} (a : Accepted g id p f)
    (hl : ∀ x l, (x, l) ∈ p.layouts → ∃ l₀, g.layout x = .ok l₀ ∧ l.shape = l₀.shape)
    (axis : Nat) (x : NodeId) : f.dim? axis x = g.dim? axis x :=
  (dim?_congr (a.layout x)).trans (dim?_setLayouts hl x)

theorem Fusing.accept_view {f : Graph} (k : Fusing h g done) (hs : g.Sound) (hnew : id ∉ done)
    {s : FusionState} (hst : g.state? id = some s) (hopt : s.isOptimized = false)
    (a : Accepted g id p f) {n : Node} (hn : g.node? id = some n) {into : NodeId}
    {input output : Layout} (hv : Fuse.ViewProposal g n p into input output) :
    Fusing h f (id :: done) := by
  obtain rfl : n.id = id := hs.id_eq hn
  have hnj : ∀ axis, ¬ g.Joins n.id axis := by
    rintro axis ⟨m, hm, hop⟩
    obtain rfl := Option.some.inj (hn.symm.trans hm)
    exact hv.reason.not_concatenation axis hop
  have hdim := a.dim?_eq fun x l hx => by
    obtain ⟨rfl, padding, rfl⟩ := hv.reason.of_mem_layouts hx
    exact ⟨output, hv.output_layout, rfl⟩
  have hedges : f.sharing.edges = g.sharing.edges ++ [⟨into, n.id, .view p.offset⟩] := by
    rw [a.sharing, Sharing.edges_commit, hv.edges]
  refine ⟨a.wiring.trans k.wiring, a.linked ?_, fun c => ?_, ?_⟩
  · rw [hv.edges, Proposal.state, hv.into]
    exact k.linked.addView hst hopt (fun e he heq => hnew (heq ▸ k.touched e he)) hv.reads hnj
  · refine (k.placed c).congr a.wiring.symm hdim fun he => ?_
    rw [hedges] at he
    exact (List.mem_append.1 he).resolve_right (by simp)
  · intro e he
    rw [hedges] at he
    rcases List.mem_append.1 he with he | he
    · exact List.mem_cons_of_mem _ (k.touched e he)
    · rw [List.mem_singleton.1 he]
      exact List.mem_cons_self

theorem Fusing.accept_inPlace {f : Graph} (k : Fusing h g done) (hs : g.Sound) (hnew : id ∉ done)
    (hready : ∀ a, g.Feeds a id → a ∈ done) {s : FusionState} (hst : g.state? id = some s)
    (hopt : s.isOptimized = false) (a : Accepted g id p f) {n : Node} (hn : g.node? id = some n)
    {axis : Nat} {output : Layout} {extents : List Dim}
    (hc : Fuse.InPlaceProposal g n p axis output extents) : Fusing h f (id :: done) := by
  obtain rfl : n.id = id := hs.id_eq hn
  have hdim := a.dim?_eq fun x l hx => hc.of_mem_layouts hx
  have hedges : f.sharing.edges = g.sharing.edges ++ p.edges := by
    rw [a.sharing, Sharing.edges_commit]
  have hfeeds : ∀ e ∈ p.edges, g.Feeds e.member n.id := by
    intro e he
    obtain ⟨i, m, b, x, l, rfl, hm, -⟩ := hc.of_mem_edges he
    exact .of_input hn hm
  refine ⟨a.wiring.trans k.wiring, a.linked ?_, fun c => ?_, ?_⟩
  · rw [Proposal.state, hc.into, hc.offset]
    refine k.linked.addSlices hst hopt (hc.slices hn a.once)
      (fun e he heq => hnew (heq ▸ k.touched e he)) a.free ?_ ⟨n, hn, hc.op⟩ ?_
    · exact fun e he heq => hs.not_feeds_self (heq ▸ hfeeds e he)
    · intro e he
      obtain ⟨i, m, b, x, l, rfl, -, hw, -⟩ := hc.of_mem_edges he
      obtain ⟨m', hm', hno, hwr⟩ := hw.writer
      exact ⟨⟨m'.state, by simp [state?, hm'], hno⟩, hw.alone, hw.inner, m', hm', hwr⟩
  · by_cases hcid : c = n.id
    · subst hcid
      refine hc.placedAt hn a.wiring.symm hdim fun he => ?_
      rw [hedges] at he
      refine (List.mem_append.1 he).resolve_left fun he => ?_
      exact ne_of_state? hst hopt (k.linked.owner he).1 rfl
    · refine (k.placed c).congr a.wiring.symm hdim fun he => ?_
      rw [hedges] at he
      refine (List.mem_append.1 he).resolve_right fun he => hcid ?_
      obtain ⟨i, m, b, x, l, heq, -⟩ := hc.of_mem_edges he
      exact congrArg (·.owner) heq
  · intro e he
    rw [hedges] at he
    rcases List.mem_append.1 he with he | he
    · exact List.mem_cons_of_mem _ (k.touched e he)
    · exact List.mem_cons_of_mem _ (hready _ (hfeeds e he))

/-- Fusing one node keeps states and edges in agreement. -/
theorem Fusing.step (hs : h.Sound) (k : Fusing h g done) (hnew : id ∉ done)
    (hready : ∀ a, h.Feeds a id → a ∈ done) {s : FusionState} (hst : g.state? id = some s)
    (hterm : s.isTerminal = false) (step : FuseStep g id g') : Fusing h g' (id :: done) := by
  have hopt := not_optimized_of_not_terminal hterm
  have hsg := k.wiring.symm.sound hs
  cases step with
  | stop =>
    exact ⟨k.wiring, k.linked, k.placed, fun e he => List.mem_cons_of_mem _ (k.touched e he)⟩
  | decide hs' =>
    refine ⟨(sameWiring_setState ..).trans k.wiring, k.linked.setState hst hopt hs', fun c => ?_,
      fun e he => List.mem_cons_of_mem _ (k.touched e he)⟩
    exact (k.placed c).congr (sameWiring_setState ..).symm
      (fun axis x => dim?_congr (layout_setState ..)) fun he => he
  | accept a =>
    obtain ⟨n, hn, ⟨into, input, output, hv⟩ | ⟨axis, output, extents, hc⟩⟩ :=
      judge_eligible a.judged
    · exact k.accept_view hsg hnew hst hopt a hn hv
    · exact k.accept_inPlace hsg hnew (fun x hx => hready x (k.wiring.feeds hx)) hst hopt a hn hc

theorem linked_of_fresh (hst : ∀ {x n}, g.node? x = some n → n.state = .unanalyzed)
    (he : g.sharing.edges = []) : g.Linked := by
  constructor
  · simp [he, Sharing.Once]
  · simp [he]
  · simp [he]
  · simp [he]
  · intro x into offset hx
    obtain ⟨n, hn, hs⟩ := Option.map_eq_some_iff.1 hx
    rw [hst hn] at hs
    cases hs

/-- After the pass states and edges agree, and every slice is placed. -/
theorem fusing_fuseAlong (hs : g.Sound)
    (hst : ∀ {x n}, g.node? x = some n → n.state = .unanalyzed) (he : g.sharing.edges = []) :
    ∃ done, Fusing g (fuseAlong .standard g.order g).1 done := by
  refine fuseAlong_induction (h := g) (I := Fusing g) ?_ ?_ hs.ordered ?_
  · intro g' done id k _ _
    exact ⟨k.wiring, k.linked, k.placed, fun e he => List.mem_cons_of_mem _ (k.touched e he)⟩
  · intro g' g'' done id s k hnew hready hst hterm step
    exact k.step hs hnew hready hst hterm step
  · exact ⟨.refl g, linked_of_fresh hst he, fun c => by simp [PlacedAt, he], by simp [he]⟩

/-! ### Rechecking -/

/-- What rechecking keeps: the slices of the nodes that are done are placed. -/
structure Rechecking (h g : Graph) (done : List NodeId) : Prop where
  wiring : g.SameWiring h
  linked : g.Linked
  placed : ∀ c ∈ done, g.PlacedAt c

theorem Recheck.Renewed.dim?_eq {f : Graph} (a : Recheck.Renewed g id p f)
    (hl : ∀ x l, (x, l) ∈ p.layouts → ∃ l₀, g.layout x = .ok l₀ ∧ l.shape = l₀.shape)
    (axis : Nat) (x : NodeId) : f.dim? axis x = g.dim? axis x :=
  (dim?_congr (a.layout x)).trans (dim?_setLayouts hl x)

/-- A concatenation that is done in place has no input twice. -/
theorem Graph.Linked.inputs_nodup (k : g.Linked) (hs : g.Sound) {n : Node}
    (hn : g.node? id = some n) (hst : g.state? id = some (.optimized id 0)) : n.inputs.Nodup := by
  obtain ⟨-, axis, -, hall⟩ := k.inPlace_of_self hs hst
  refine List.nodup_iff_getElem?_ne_getElem?.2 fun i j hij hj heq => ?_
  have hi : n.inputs[i]? = some n.inputs[j] := heq.trans (List.getElem?_eq_getElem hj)
  obtain ⟨b, x, he⟩ := hall ((input_eq_ok hn).2 hi)
  obtain ⟨b', x', he'⟩ := hall ((input_eq_ok hn).2 (List.getElem?_eq_getElem hj))
  obtain ⟨-, -, hp⟩ := SharingEdge.mk.inj (k.once.eq he he' rfl)
  exact Nat.ne_of_lt hij (Placement.slice.inj hp).1

theorem Rechecking.renew_view {f : Graph} (k : Rechecking h g done) (hs : g.Sound)
    {into : NodeId} {offset : Nat} (hst : g.state? id = some (.optimized into offset))
    (a : Recheck.Renewed g id p f) {n : Node} (hn : g.node? id = some n) {into' : NodeId}
    {input output : Layout} (hv : Fuse.ViewProposal g n p into' input output) :
    Rechecking h f (id :: done) := by
  obtain rfl : n.id = id := hs.id_eq hn
  have hnj := not_joins_of_view hn hv
  obtain ⟨rfl, -, -⟩ := k.linked.view_of_proposal hs hst hn hv
  have hdim := a.dim?_eq fun x l hx => by
    obtain ⟨rfl, padding, rfl⟩ := hv.reason.of_mem_layouts hx
    exact ⟨output, hv.output_layout, rfl⟩
  -- a view's new place is no slice of anybody
  have hslice : ∀ {c m i axis b e}, ⟨c, m, .slice i axis b e⟩ ∈ f.sharing.edges →
      ⟨c, m, .slice i axis b e⟩ ∈ g.sharing.edges := by
    intro c m i axis b e he
    rw [a.sharing, hv.edges, Sharing.mem_refresh k.linked.once (by simp [Sharing.Once])] at he
    rcases he with ⟨he, -⟩ | ⟨he, -⟩
    · simp at he
    · exact he
  refine ⟨a.wiring.trans k.wiring, a.linked ?_, fun c hc => ?_⟩
  · rw [hv.edges, Proposal.state, hv.into]
    exact k.linked.moveView ⟨offset, hst⟩ hv.reads hnj
  · rcases List.mem_cons.1 hc with rfl | hc
    · intro m i axis b e he
      exact absurd (k.linked.owner (hslice he)).2.1 (hnj axis)
    · exact (k.placed c hc).congr a.wiring.symm hdim hslice

theorem Rechecking.renew_inPlace {f : Graph} (k : Rechecking h g done) (hs : g.Sound)
    {into : NodeId} {offset : Nat} (hst : g.state? id = some (.optimized into offset))
    (a : Recheck.Renewed g id p f) {n : Node} (hn : g.node? id = some n)
    {axis : Nat} {output : Layout} {extents : List Dim}
    (hc : Fuse.InPlaceProposal g n p axis output extents) : Rechecking h f (id :: done) := by
  obtain rfl : n.id = id := hs.id_eq hn
  have hj : g.Joins n.id axis := ⟨n, hn, hc.op⟩
  obtain ⟨rfl, rfl, -⟩ := k.linked.inPlace_of_joins hst hj
  have honce : Sharing.Once p.edges := by
    rw [Sharing.Once, hc.members]
    exact k.linked.inputs_nodup hs hn hst
  have hdim := a.dim?_eq fun x l hx => hc.of_mem_layouts hx
  have hmem : ∀ {e}, e ∈ f.sharing.edges →
      e ∈ p.edges ∨ e ∈ g.sharing.edges ∧ ∀ u ∈ p.edges, e.ends ≠ u.ends := by
    intro e he
    rw [a.sharing, Sharing.mem_refresh k.linked.once honce] at he
    exact he.imp_left (·.1)
  refine ⟨a.wiring.trans k.wiring, a.linked ?_, fun c hcd => ?_⟩
  · rw [Proposal.state, hc.into, hc.offset]
    exact k.linked.moveSlices hst (hc.slices hn honce) hj
  · by_cases hcid : c = n.id
    · subst hcid
      refine hc.placedAt hn a.wiring.symm hdim fun {m i axis b e} he => ?_
      obtain hnew | ⟨he, hne⟩ := hmem he
      · exact hnew
      · obtain ⟨-, -, hin⟩ := k.linked.owner he
        obtain ⟨b', x', hu⟩ := (hc.slices hn honce).all hin
        exact (hne _ hu rfl).elim
    · refine (k.placed c ((List.mem_cons.1 hcd).resolve_left hcid)).congr a.wiring.symm hdim
        fun he => ?_
      refine ((hmem he).resolve_left fun he => hcid ?_).1
      obtain ⟨i, m, b, x, l, heq, -⟩ := hc.of_mem_edges he
      exact congrArg (·.owner) heq

/-- Rechecking one node keeps states and edges in agreement and places its slices. -/
theorem Rechecking.step (hs : h.Sound) (k : Rechecking h g done) {into : NodeId} {offset : Nat}
    (hst : g.state? id = some (.optimized into offset)) {demoted : List NodeId}
    (step : Recheck.Step g id g' demoted) : Rechecking h g' (id :: done) := by
  have hsg := k.wiring.symm.sound hs
  cases step with
  | renew a =>
    obtain ⟨n, hn, ⟨into', input, output, hv⟩ | ⟨axis, output, extents, hc⟩⟩ :=
      judge_eligible a.judged
    · exact k.renew_view hsg hst a hn hv
    · exact k.renew_inPlace hsg hst a hn hc
  | demote hj =>
    have hslice : ∀ {c m i axis b e},
        ⟨c, m, .slice i axis b e⟩ ∈ (Recheck.demote g id).sharing.edges →
          ⟨c, m, .slice i axis b e⟩ ∈ g.sharing.edges ∧ c ≠ id := by
      intro c m i axis b e he
      rw [Recheck.sharing_demote, Sharing.mem_detach] at he
      refine ⟨he.1, ?_⟩
      rintro rfl
      simp [Sharing.lendsTo, Placement.isSlice, Placement.isView] at he
    refine ⟨(Recheck.sameWiring_demote g id).trans k.wiring, k.linked.demote hst,
      fun c hc m i axis b e he => ?_⟩
    obtain ⟨he', hne⟩ := hslice he
    have hcd := (List.mem_cons.1 hc).resolve_left hne
    exact (k.placed c hcd).congr (Recheck.sameWiring_demote g id).symm
      (fun axis x => dim?_congr (Recheck.layout_demote ..)) (fun he => (hslice he).1) m i axis b e he

theorem rechecking_recheck (hs : g.Sound) (k : g.Linked) {report : RecheckReport}
    (hr : g.recheck .standard = (g', .ok report)) : g'.Linked ∧
      g.SameWiring g' ∧ ∀ c, g'.contains c = true → g'.PlacedAt c := by
  have hend := Recheck.along_induction (h := g) (I := fun g' done _ => Rechecking g g' done)
    ⟨0, []⟩ ?_ ?_ hs.ordered ⟨.refl g, k, by simp⟩ hr
  · refine ⟨hend.linked, hend.wiring.symm, fun c hc => hend.placed c ?_⟩
    rw [hend.wiring.contains_eq] at hc
    simpa using hs.mem_order.2 hc
  · intro g' done id _ k _ _ hst
    refine ⟨k.wiring, k.linked, fun c hc => ?_⟩
    rcases List.mem_cons.1 hc with rfl | hc
    · exact fun m i axis b e he => absurd (k.linked.owner he).1 (hst _ _)
    · exact k.placed c hc
  · intro g' g'' done id _ demoted into offset k _ _ hst step
    exact k.step hs hst step

end BufferFusion
