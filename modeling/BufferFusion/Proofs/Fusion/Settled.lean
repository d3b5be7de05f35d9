import BufferFusion.Proofs.Fusion.Agree
import BufferFusion.Proofs.Layout.Addressing

/-!
# Decisions that stand

Once a node is placed, nothing that happens to later nodes changes a layout that its place depends
on. So after a whole walk every decision holds of the layouts as they are then, and padding is
found on windows and on slices only.
-/
namespace BufferFusion

theorem Operation.Alike.eq_of_ne {a b : Operation} (h : a.Alike b) (hne : ∀ l, b ≠ .input l) :
    a = b :=
  h.eq_or_input.resolve_right fun ⟨_, l, _, hb⟩ => hne l hb

theorem Fuse.ViewReason.ne_input {id : NodeId} {input output : Layout} {p : Proposal}
    {op : Operation} (h : ViewReason id input output p op) (l : Layout) : op ≠ .input l := by
  cases h <;> simp

/-- A view is one in every graph that looks the same from it. -/
theorem Fuse.ViewProposal.congr {g h : Graph} {n : Node} {p : Proposal} {into : NodeId}
    {input output : Layout} (k : ViewProposal g n p into input output)
    (hn : g.node? n.id = some n) (w : g.SameWiring h) (hid : h.layout n.id = g.layout n.id)
    (hin : ∀ a, g.Feeds a n.id → h.layout a = g.layout a) :
    ∃ m, h.node? n.id = some m ∧ ViewProposal h m p into input output := by
  obtain ⟨m, hm, hmid, -, -, hop⟩ := w.node hn
  have hop := hop.eq_of_ne k.reason.ne_input
  have hf : g.Feeds into n.id := .of_input hn ((Graph.input_eq_ok hn).1 k.reads)
  refine ⟨m, hm, ?_, (hin _ hf).trans k.input_layout, ?_, k.into, ?_, ?_⟩
  · rw [hmid]
    exact w.input k.reads
  · rw [hmid]
    exact hid.trans k.output_layout
  · rw [hmid]
    exact k.edges
  · rw [hmid, hop]
    exact k.reason

namespace Graph

variable {g g' h : Graph} {id x : NodeId} {p q : Proposal}

/-- A concatenation whose inputs are laid out as its slices. -/
structure InPlace (g : Graph) (n : Node) (axis : Nat) (output : Layout) (extents : List Dim) :
    Prop where
  op : n.op = .concatenation axis
  output_layout : g.layout n.id = .ok output
  length_extents : extents.length = n.inputs.length
  slice : ∀ {i m}, n.inputs[i]? = some m → ∃ l extent, g.layout m = .ok l ∧
    l.element = output.element ∧ l.format = output.format ∧ l.shape.dims[axis]? = some extent ∧
      extents[i]? = some extent ∧ l.padding = (Padding.zero l.rank).set axis
        (Fuse.slicePadding (Dim.total (extents.take i)) (Dim.total (extents.drop (i + 1)))) ∧
      l.isAllocatable = true

/-- A decision that the rule would still make, with the layouts that it asked for. -/
inductive Stands (g : Graph) (id : NodeId) (p : Proposal) : Prop
  | view {n into input output} (node : g.node? id = some n)
      (proposal : Fuse.ViewProposal g n p into input output)
      (installed : ∀ x l, (x, l) ∈ p.layouts → l = output)
  | inPlace {n axis output extents} (node : g.node? id = some n)
      (slices : g.InPlace n axis output extents)
      (settled : p.assumption = none → ∀ m ∈ n.inputs, ∀ l, g.layout m = .ok l →
        l.padding.hasDynamic = false)

/-- A decision depends on the layouts of the node and its inputs. -/
theorem Stands.congr (k : g.Stands id p) (hs : g.Sound) (w : g.SameWiring h)
    (hid : h.layout id = g.layout id) (hin : ∀ a, g.Feeds a id → h.layout a = g.layout a) :
    h.Stands id p := by
  cases k with
  | @view n into input output hn k hinst =>
    obtain rfl := hs.id_eq hn
    obtain ⟨m, hm, k'⟩ := k.congr hn w hid hin
    exact .view hm k' hinst
  | @inPlace n axis output extents hn k hset =>
    obtain ⟨m, hm, hmid, -, hmin, hop⟩ := w.node hn
    have hop := hop.eq_of_ne (by simp [k.op])
    obtain rfl := hs.id_eq hn
    have hfeeds : ∀ a ∈ n.inputs, h.layout a = g.layout a := fun a ha => hin a ⟨n, hn, ha⟩
    have hout : h.layout m.id = .ok output := by
      rw [hmid]
      exact hid.trans k.output_layout
    refine .inPlace hm ⟨hop.trans k.op, hout, hmin ▸ k.length_extents, fun {i a} ha => ?_⟩ ?_
    · rw [hmin] at ha
      obtain ⟨l, extent, hl, hrest⟩ := k.slice ha
      exact ⟨l, extent, (hfeeds a (List.mem_of_getElem? ha)).trans hl, hrest⟩
    · intro ha a hmem l hl
      rw [hmin] at hmem
      exact hset ha a hmem l ((hfeeds a hmem).symm.trans hl)

/-! ### Placing one node -/

/-- A graph after a rule's proposal was carried out, as far as layouts and states go. -/
structure Placed (g : Graph) (id : NodeId) (p : Proposal) (g' : Graph) : Prop where
  judged : FusionRules.standard.judge g id = .ok (.eligible p)
  wiring : g'.SameWiring g
  state : ∀ x, g'.state? x = (g.setState id p.state).state? x
  layout : ∀ x, g'.layout x = (g.setLayouts p.layouts).layout x

/-- A crop that reads its window of another buffer. -/
def Windowed (g : Graph) (id : NodeId) : Prop :=
  (∃ into offset, g.state? id = some (.optimized into offset)) ∧
    ∃ n offsets sizes, g.node? id = some n ∧ n.op = .crop offsets sizes

/-- The node writes a slice of a concatenation done in place. -/
def SliceOf (g : Graph) (member owner : NodeId) : Prop :=
  (∃ offset, g.state? owner = some (.optimized owner offset)) ∧ g.Feeds member owner ∧
    g.consumers member = [owner]

namespace Placed

variable (a : g.Placed id p g')

include a

/-- What the layouts of a proposal are for: the window of a crop, or slices of a concatenation. -/
theorem of_mem_layouts (hs : g.Sound) {l : Layout} (hx : (x, l) ∈ p.layouts) :
    ∃ l₀ padding, g.layout x = .ok l₀ ∧ l = l₀.withPadding padding ∧ l.isAllocatable = true ∧
      ((x = id ∧ g'.Windowed id) ∨ (g'.SliceOf x id ∧
        ∃ s, g.state? x = some s ∧ s.isOptimized = false)) := by
  obtain ⟨n, hn, ⟨into, input, output, hv⟩ | ⟨axis, output, extents, hc⟩⟩ := judge_eligible a.judged
  all_goals
    obtain rfl := hs.id_eq hn
    have hst : g'.state? n.id = some p.state := by
      rw [a.state, state?_setState, if_pos rfl, state?, hn, Option.map_some, Option.map_some]
  · have hr := hv.reason
    cases hop : n.op with
    | crop offsets sizes =>
      rw [hop] at hr
      cases hr with
      | crop _ _ _ _ halloc _ hlayouts _ =>
        rw [hlayouts, List.mem_singleton] at hx
        obtain ⟨rfl, rfl⟩ := Prod.mk.inj hx
        obtain ⟨m, hm, -, -, -, hop'⟩ := a.wiring.symm.node hn
        have hop' := hop'.eq_of_ne hv.reason.ne_input
        exact ⟨output, _, hv.output_layout, rfl, halloc, .inl ⟨rfl, ⟨_, _, hst⟩, m, offsets, sizes,
          hm, hop'.trans hop⟩⟩
    | input | constant | permute | reshape | reorder | concatenation | fullyConnected =>
      rw [hop] at hr
      cases hr <;> simp_all
  · obtain ⟨i, hi⟩ := List.mem_iff_getElem?.1 hx
    have hlt : i < n.inputs.length := hc.length_layouts ▸ (List.getElem?_eq_some_iff.1 hi).1
    have hm := List.getElem?_eq_getElem hlt
    obtain ⟨l', extent, before, hw, -, -, -, -, hl, halloc⟩ := hc.slice hm
    rw [hi] at hl
    obtain ⟨rfl, rfl⟩ := Prod.mk.inj (Option.some.inj hl)
    obtain ⟨m, hm', hopt, -⟩ := hw.writer
    refine ⟨l', _, hw.layout, rfl, halloc, .inr ⟨⟨?_, ?_, ?_⟩, m.state, by simp [state?, hm'], hopt⟩⟩
    · exact ⟨p.offset, by rw [hst, Proposal.state, hc.into]⟩
    · exact a.wiring.symm.feeds (.of_input hn hm)
    · exact (a.wiring.consumers_eq _).trans hw.alone

theorem layout_eq (hs : g.Sound) (hx : x ≠ id)
    (hother : g.consumers x = [id] → ∃ into offset, g.state? x = some (.optimized into offset)) :
    g'.layout x = g.layout x := by
  rw [a.layout]
  refine layout_setLayouts_of_not_mem fun hmem => ?_
  obtain ⟨⟨y, l⟩, hy, rfl⟩ := List.mem_map.1 hmem
  obtain ⟨l₀, padding, -, -, -, ⟨rfl, -⟩ | ⟨hsl, s, hst, hopt⟩⟩ := a.of_mem_layouts hs hy
  · exact hx rfl
  · obtain ⟨into, offset, hst'⟩ := hother ((a.wiring.consumers_eq y).symm.trans hsl.2.2)
    rw [hst] at hst'
    obtain rfl := Option.some.inj hst'
    cases hopt

/-- An input of another node keeps its layout: a slice has no other consumer. -/
theorem layout_eq_of_feeds (hs : g.Sound) {c : NodeId} (hf : g.Feeds x c) (hx : x ≠ id)
    (hc : c ≠ id) : g'.layout x = g.layout x := by
  refine a.layout_eq hs hx fun halone => absurd ?_ hc
  exact (hs.feeds_iff_of_consumers halone).1 hf

/-- A decision about an earlier node stands. -/
theorem stands_of_ne (hs : g.Sound) (k : g.Stands x q) (hx : x ≠ id)
    (hopt : ∃ into offset, g.state? x = some (.optimized into offset)) (hlater : ¬ g.Feeds id x) :
    g'.Stands x q := by
  refine k.congr hs a.wiring.symm (a.layout_eq hs hx fun _ => hopt) fun c hf => ?_
  exact a.layout_eq_of_feeds hs hf (fun he => hlater (he ▸ hf)) hx

theorem state_eq (hx : x ≠ id) : g'.state? x = g.state? x := by
  rw [a.state, state?_setState, if_neg (Ne.symm hx)]

/-- A view leaves its input's layout alone. -/
theorem input_layout (hs : g.Sound) {n : Node} (hn : g.node? id = some n) {into : NodeId}
    {input output : Layout} (hv : Fuse.ViewProposal g n p into input output) :
    g'.layout into = .ok input := by
  obtain rfl := hs.id_eq hn
  have hf : g.Feeds into n.id := .of_input hn ((input_eq_ok hn).1 hv.reads)
  have hne : into ≠ n.id := fun he => hs.not_feeds_self (he ▸ hf)
  rw [a.layout]
  refine (layout_setLayouts_of_not_mem fun hmem => ?_).trans hv.input_layout
  obtain ⟨⟨y, l⟩, hy, rfl⟩ := List.mem_map.1 hmem
  exact hne (hv.reason.of_mem_layouts hy).1

/-- The layout that a view was given is one that the rule would ask for again. -/
theorem output_layout (hs : g.Sound) {n : Node} (hn : g.node? id = some n) {into : NodeId}
    {input output : Layout} (hv : Fuse.ViewProposal g n p into input output) :
    ∃ output', g'.layout id = .ok output' ∧ Fuse.ViewReason id input output' p n.op ∧
      ∀ x l, (x, l) ∈ p.layouts → l = output' := by
  obtain rfl := hs.id_eq hn
  have hkeep : p.layouts = [] → g'.layout n.id = .ok output := fun hnil => by
    rw [a.layout, hnil]
    exact hv.output_layout
  have hr := hv.reason
  generalize n.op = op at hr ⊢
  cases hr with
  | reshape h₁ h₂ h₃ h₄ hnil h₆ =>
    exact ⟨output, hkeep hnil, .reshape h₁ h₂ h₃ h₄ hnil h₆, by simp [hnil]⟩
  | permute h₁ h₂ h₃ h₄ h₅ hnil h₇ =>
    exact ⟨output, hkeep hnil, .permute h₁ h₂ h₃ h₄ h₅ hnil h₇, by simp [hnil]⟩
  | reorder h₁ h₂ h₃ hnil h₅ =>
    exact ⟨output, hkeep hnil, .reorder h₁ h₂ h₃ hnil h₅, by simp [hnil]⟩
  | @crop _ _ axes h₁ h₂ h₃ h₄ h₅ h₆ hlay h₈ =>
    refine ⟨output.withPadding ⟨axes⟩, ?_, .crop h₁ h₂ h₃ h₄ h₅ h₆ hlay h₈, ?_⟩
    · rw [a.layout, hlay]
      exact layout_setLayout_self (contains_iff.2 ⟨n, hn⟩)
    · intro x l hx
      rw [hlay, List.mem_singleton] at hx
      exact (Prod.mk.inj hx).2

theorem stands_view (hs : g.Sound) {n : Node} (hn : g.node? id = some n) {into : NodeId}
    {input output : Layout} (hv : Fuse.ViewProposal g n p into input output) :
    g'.Stands id p := by
  obtain ⟨m, hm, hmid, -, -, hop⟩ := a.wiring.symm.node hn
  have hop := hop.eq_of_ne hv.reason.ne_input
  have hin := a.input_layout hs hn hv
  obtain ⟨output', hout, hreason, hinst⟩ := a.output_layout hs hn hv
  obtain rfl := hs.id_eq hn
  refine .view hm ⟨?_, hin, ?_, hv.into, ?_, ?_⟩ hinst
  · rw [hmid]
    exact a.wiring.symm.input hv.reads
  · rwa [hmid]
  · rw [hmid]
    exact hv.edges
  · rwa [hmid, hop]

/-- The inputs of a concatenation done in place are laid out as its slices. -/
theorem slice_layout (hs : g.Sound) {n : Node} (hn : g.node? id = some n) {axis : Nat}
    {output : Layout} {extents : List Dim} (hc : Fuse.InPlaceProposal g n p axis output extents)
    (hnodup : n.inputs.Nodup) {i : Nat} {y : NodeId} (hy : n.inputs[i]? = some y) :
    ∃ l extent, Fuse.SliceWriter g n.id output y l ∧ l.shape.dims[axis]? = some extent ∧
      extents[i]? = some extent ∧
      (y, Fuse.sliceLayout axis l (Dim.total (extents.take i))
        (Dim.total (extents.drop (i + 1)))) ∈ p.layouts ∧
      g'.layout y = .ok (Fuse.sliceLayout axis l (Dim.total (extents.take i))
        (Dim.total (extents.drop (i + 1)))) ∧
      (Fuse.sliceLayout axis l (Dim.total (extents.take i))
        (Dim.total (extents.drop (i + 1)))).isAllocatable = true := by
  obtain ⟨l, extent, before, hw, hd, hx, hb, -, hl, halloc⟩ := hc.slice hy
  obtain rfl := Dim.foldlM_add_eq_ok hb
  rw [Dim.zero_plus] at hl halloc
  have hmem := List.mem_of_getElem? hl
  refine ⟨l, extent, hw, hd, hx, hmem, ?_, halloc⟩
  rw [a.layout]
  exact layout_setLayouts_of_mem (hc.keys ▸ hnodup) hmem (hs.live (.of_input hn hy))

theorem stands_inPlace (hs : g.Sound) {n : Node} (hn : g.node? id = some n) {axis : Nat}
    {output : Layout} {extents : List Dim} (hc : Fuse.InPlaceProposal g n p axis output extents)
    (hnodup : n.inputs.Nodup) : g'.Stands id p := by
  obtain ⟨m, hm, hmid, -, hmin, hop⟩ := a.wiring.symm.node hn
  have hop := hop.eq_of_ne (by simp [hc.op])
  have hslice := fun {i y} => a.slice_layout hs hn hc hnodup (i := i) (y := y)
  have hout : g'.layout m.id = .ok output := by
    have hself : n.id ∉ p.layouts.map (·.1) := by
      rw [hc.keys, hs.id_eq hn]
      exact fun hself => hs.not_feeds_self ⟨n, hn, hself⟩
    rw [hmid, a.layout]
    exact (layout_setLayouts_of_not_mem hself).trans hc.output_layout
  refine .inPlace hm ⟨hop.trans hc.op, hout, hmin ▸ hc.length_extents, fun {i y} hy => ?_⟩ ?_
  · rw [hmin] at hy
    obtain ⟨l, extent, hw, hd, hx, -, hl, halloc⟩ := hslice hy
    exact ⟨_, extent, hl, hw.element, hw.format, hd, hx, rfl, halloc⟩
  · intro hnone y hy l hl
    rw [hmin] at hy
    obtain ⟨i, hi⟩ := List.mem_iff_getElem?.1 hy
    obtain ⟨l', extent, -, -, -, hmem, hl', -⟩ := hslice hi
    obtain rfl := Except.ok.inj (hl'.symm.trans hl)
    rw [hc.assumption] at hnone
    split at hnone
    · cases hnone
    · next hany =>
      simp only [List.any_eq_true, not_exists, not_and, Bool.not_eq_true] at hany
      exact hany _ hmem

/-- The new decision stands. -/
theorem stands (hs : g.Sound)
    (hnodup : ∀ n axis, g.node? id = some n → n.op = .concatenation axis → n.inputs.Nodup) :
    g'.Stands id p := by
  obtain ⟨n, hn, ⟨into, input, output, hv⟩ | ⟨axis, output, extents, hc⟩⟩ := judge_eligible a.judged
  · exact a.stands_view hs hn hv
  · exact a.stands_inPlace hs hn hc (hnodup n axis hn hc.op)

end Placed

/-! ### Where padding is found -/

theorem Windowed.congr (k : g.Windowed x) (w : g.SameWiring h) (hst : h.state? x = g.state? x) :
    h.Windowed x := by
  obtain ⟨hopt, n, offsets, sizes, hn, hop⟩ := k
  obtain ⟨m, hm, -, -, -, hop'⟩ := w.node hn
  have hop' := hop'.eq_of_ne (by simp [hop])
  exact ⟨hst ▸ hopt, m, offsets, sizes, hm, hop'.trans hop⟩

theorem SliceOf.congr {owner : NodeId} (k : g.SliceOf x owner) (w : g.SameWiring h)
    (hst : h.state? owner = g.state? owner) : h.SliceOf x owner :=
  ⟨hst ▸ k.1, w.feeds k.2.1, (w.consumers_eq x).symm.trans k.2.2⟩

/-- Layouts that differ from those of `b` in padding only, and in that only on the windows and
slices of the nodes that are done. -/
structure Padded (b g : Graph) (done : List NodeId) : Prop where
  layout : ∀ {x l₀}, b.layout x = .ok l₀ → ∃ padding, g.layout x = .ok (l₀.withPadding padding) ∧
    (l₀.withPadding padding).isAllocatable = true
  unpadded : ∀ {x l}, g.layout x = .ok l → l.padding = .zero l.rank ∨
    (x ∈ done ∧ g.Windowed x) ∨ ∃ owner ∈ done, g.SliceOf x owner

theorem layout_setLayouts_cases (g : Graph) (ls : List (NodeId × Layout)) (x : NodeId) :
    (g.setLayouts ls).layout x = g.layout x ∨
      ∃ l, (x, l) ∈ ls ∧ (g.setLayouts ls).layout x = .ok l := by
  induction ls generalizing g with
  | nil => exact .inl rfl
  | cons q ls ih =>
    obtain ⟨y, l⟩ := q
    rcases ih (g.setLayout y l) with h | ⟨l', hl', h⟩
    · rw [layout_setLayout] at h
      split at h
      · next hx =>
        obtain ⟨rfl, -⟩ := hx
        exact .inr ⟨l, List.mem_cons_self, h⟩
      · exact .inl h
    · exact .inr ⟨l', List.mem_cons_of_mem _ hl', h⟩

namespace Padded

variable {b : Graph} {done : List NodeId}

/-- A step that changes no layout, and no state of a node that is done. -/
theorem congr (k : Padded b g done) (w : g.SameWiring h) (hl : ∀ x, h.layout x = g.layout x)
    (hst : ∀ x ∈ done, h.state? x = g.state? x) (id : NodeId) : Padded b h (id :: done) where
  layout := by
    intro x l₀ hx
    obtain ⟨padding, hp⟩ := k.layout hx
    exact ⟨padding, (hl x).trans hp.1, hp.2⟩
  unpadded := by
    intro x l hx
    rcases k.unpadded ((hl x).symm.trans hx) with hz | ⟨hd, hw⟩ | ⟨o, ho, hsl⟩
    · exact .inl hz
    · exact .inr (.inl ⟨List.mem_cons_of_mem _ hd, hw.congr w (hst x hd)⟩)
    · exact .inr (.inr ⟨o, List.mem_cons_of_mem _ ho, hsl.congr w (hst o ho)⟩)

theorem place (k : Padded b g done) (hs : g.Sound) (hnew : id ∉ done) (a : g.Placed id p g') :
    Padded b g' (id :: done) := by
  have hne : ∀ x ∈ done, x ≠ id := fun x hx he => hnew (he ▸ hx)
  constructor
  · intro x l₀ hx
    obtain ⟨padding, hp, hv⟩ := k.layout hx
    rcases layout_setLayouts_cases g p.layouts x with hsame | ⟨l, hmem, hnew⟩
    · exact ⟨padding, (a.layout x).trans (hsame.trans hp), hv⟩
    · obtain ⟨l₁, padding', hl₁, rfl, halloc, -⟩ := a.of_mem_layouts hs hmem
      obtain rfl := Except.ok.inj (hp.symm.trans hl₁)
      exact ⟨padding', (a.layout x).trans hnew, halloc⟩
  · intro x l hx
    rw [a.layout] at hx
    rcases layout_setLayouts_cases g p.layouts x with hsame | ⟨l', hmem, hl'⟩
    · rcases k.unpadded (hsame.symm.trans hx) with hz | ⟨hd, hw⟩ | ⟨o, ho, hsl⟩
      · exact .inl hz
      · exact .inr (.inl ⟨List.mem_cons_of_mem _ hd,
          hw.congr a.wiring.symm (a.state_eq (hne x hd))⟩)
      · exact .inr (.inr ⟨o, List.mem_cons_of_mem _ ho,
          hsl.congr a.wiring.symm (a.state_eq (hne o ho))⟩)
    · obtain ⟨-, -, -, -, -, ⟨rfl, hw⟩ | ⟨hsl, -⟩⟩ := a.of_mem_layouts hs hmem
      · exact .inr (.inl ⟨List.mem_cons_self, hw⟩)
      · exact .inr (.inr ⟨id, List.mem_cons_self, hsl⟩)

/-- Layouts without padding, to begin with. -/
theorem initial (hl : ∀ {x l}, b.layout x = .ok l → l.padding = .zero l.rank ∧ l.isValid = true) :
    Padded b b [] where
  layout := fun hx => ⟨_, hx, Layout.isAllocatable_of_unpadded (hl hx).1 (hl hx).2⟩
  unpadded := fun hx => .inl (hl hx).1

end Padded
end Graph
end BufferFusion
