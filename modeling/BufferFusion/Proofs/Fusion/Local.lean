import BufferFusion.Proofs.Fusion.Linked

/-!
# What a decision looks at

A rule reads its node, the layouts of the node and of its inputs, and whether an input already lies
in some other buffer. Two graphs of one wiring that agree on those get the same answer, or the same
error.
-/
namespace BufferFusion

namespace Graph

variable {g h : Graph} {id a x : NodeId}

/-- The node lies in another buffer than its own and that of `owner`. -/
def taken (g : Graph) (owner id : NodeId) : Bool :=
  (g.state? id).any (·.isOptimized) || (g.sharing.edgeOf? id).any (·.owner != owner)

theorem layout_congr (hx : h.node? x = g.node? x) : h.layout x = g.layout x := by
  rw [Graph.layout, Graph.layout, Graph.get, Graph.get, hx]

theorem state?_congr (hx : h.node? x = g.node? x) : h.state? x = g.state? x := by
  rw [state?, state?, hx]

/-- Whether a node lies elsewhere than its consumer's buffer is told by its state and by the edges
from other owners. -/
theorem taken_congr (ho : Sharing.Once g.sharing.edges) (ho' : Sharing.Once h.sharing.edges)
    (hst : h.state? x = g.state? x) (he : ∀ e : SharingEdge, e.member = x → e.owner ≠ id →
      (e ∈ h.sharing.edges ↔ e ∈ g.sharing.edges)) : h.taken id x = g.taken id x := by
  have hany : ∀ {k : Graph}, Sharing.Once k.sharing.edges →
      ((k.sharing.edgeOf? x).any (·.owner != id) = true ↔
        ∃ e ∈ k.sharing.edges, e.member = x ∧ e.owner ≠ id) := by
    intro k hk
    simp only [Option.any_eq_true, bne_iff_ne]
    constructor
    · rintro ⟨e, hfind, hne⟩
      have hm : e.member = x := by simpa using List.find?_some hfind
      exact ⟨e, List.mem_of_find?_eq_some hfind, hm, hne⟩
    · rintro ⟨e, he, hm, hne⟩
      obtain ⟨e', hfind⟩ : ∃ e', k.sharing.edgeOf? x = some e' :=
        Option.isSome_iff_exists.1 (List.find?_isSome.2 ⟨e, he, by simpa using hm⟩)
      have hm' : e'.member = x := by simpa using List.find?_some hfind
      obtain rfl := hk.eq he (List.mem_of_find?_eq_some hfind) (hm.trans hm'.symm)
      exact ⟨e, hfind, hne⟩
  rw [taken, taken, hst]
  congr 1
  rw [Bool.eq_iff_iff, hany ho, hany ho']
  constructor
  · rintro ⟨e, hmem, hm, hne⟩
    exact ⟨e, (he e hm hne).1 hmem, hm, hne⟩
  · rintro ⟨e, hmem, hm, hne⟩
    exact ⟨e, (he e hm hne).2 hmem, hm, hne⟩

/-- Two graphs that a rule cannot tell apart when it is asked about `id`. -/
structure AlikeAt (g h : Graph) (id : NodeId) : Prop where
  wiring : g.SameWiring h
  layout : h.layout id = g.layout id
  input_layout : ∀ {a}, g.Feeds a id → h.layout a = g.layout a
  taken : ∀ {a}, g.Feeds a id → h.taken id a = g.taken id a

theorem get_eq_error (hid : g.node? id = none) : g.get id = .error (.missingNode id) := by
  simp [Graph.get, hid]

theorem SameWiring.node?_eq_none (w : g.SameWiring h) (hid : g.node? id = none) :
    h.node? id = none := by
  have := w.contains_eq id
  simpa [contains, hid] using this.symm

theorem SameWiring.input_eq (w : g.SameWiring h) (id : NodeId) (slot : Nat) :
    h.input id slot = g.input id slot := by
  cases hn : g.node? id with
  | none => rw [Graph.input, Graph.input, get_eq_error hn, get_eq_error (w.node?_eq_none hn)]
  | some n =>
    obtain ⟨m, hm, -, hname, hin, -⟩ := w.node hn
    rw [Graph.input, Graph.input, get_eq_ok.2 hn, get_eq_ok.2 hm]
    simp only [bind, Except.bind, hname, hin]

theorem AlikeAt.inputLayout_eq (k : g.AlikeAt h id) (slot : Nat) :
    h.inputLayout id slot = g.inputLayout id slot := by
  rw [inputLayout, inputLayout, k.wiring.input_eq]
  cases hi : g.input id slot with
  | error e => rfl
  | ok a =>
    obtain ⟨n, hn, -⟩ := Result.bind_eq_ok.1 hi
    have hn := get_eq_ok.1 hn
    exact k.input_layout (.of_input hn ((input_eq_ok hn).1 hi))

end Graph

namespace Fuse

open Graph

variable {g h : Graph} {n m : Node}

/-- The same node of two graphs, for a rule. -/
structure Mirrors (g h : Graph) (n m : Node) : Prop where
  alike : g.AlikeAt h n.id
  node : g.node? n.id = some n
  id_eq : m.id = n.id
  name_eq : m.name = n.name
  inputs_eq : m.inputs = n.inputs
  op_eq : m.op = n.op

namespace Mirrors

variable (k : Mirrors g h n m)

include k

theorem output : FusionContext.output ⟨h, m⟩ = FusionContext.output ⟨g, n⟩ := by
  simp only [FusionContext.output, k.id_eq, k.alike.layout]

theorem input (slot : Nat) : FusionContext.input ⟨h, m⟩ slot = FusionContext.input ⟨g, n⟩ slot := by
  simp only [FusionContext.input, k.id_eq, k.alike.inputLayout_eq]

theorem producer (slot : Nat) :
    FusionContext.producer ⟨h, m⟩ slot = FusionContext.producer ⟨g, n⟩ slot := by
  simp only [FusionContext.producer, k.id_eq, k.alike.wiring.input_eq]

theorem view (compared : Compatibility) (a : Assumption) :
    view ⟨h, m⟩ compared a = Fuse.view ⟨g, n⟩ compared a := by
  simp only [Fuse.view, k.producer, k.id_eq]

theorem reshape : reshape ⟨h, m⟩ = Fuse.reshape ⟨g, n⟩ := by
  simp only [Fuse.reshape, k.op_eq, k.input, k.output, k.view, wrongKind, k.name_eq, Node.tag]

theorem permute : permute ⟨h, m⟩ = Fuse.permute ⟨g, n⟩ := by
  simp only [Fuse.permute, k.op_eq, k.input, k.output, k.view, wrongKind, k.name_eq, Node.tag]

theorem reorder : reorder ⟨h, m⟩ = Fuse.reorder ⟨g, n⟩ := by
  simp only [Fuse.reorder, k.op_eq, k.input, k.output, k.view, wrongKind, k.name_eq, Node.tag]

theorem crop : crop ⟨h, m⟩ = Fuse.crop ⟨g, n⟩ := by
  simp only [Fuse.crop, k.op_eq, k.input, k.output, k.producer, k.id_eq, wrongKind, k.name_eq,
    Node.tag]

theorem sliceProducer (output : Layout) {a : NodeId} (ha : a ∈ n.inputs) :
    sliceProducer ⟨h, m⟩ output a = Fuse.sliceProducer ⟨g, n⟩ output a := by
  have hf : g.Feeds a n.id := ⟨n, k.node, ha⟩
  have htaken := k.alike.taken hf
  simp only [Graph.taken, Graph.state?] at htaken
  cases hp : g.node? a with
  | none =>
    rw [Fuse.sliceProducer, Fuse.sliceProducer, get_eq_error hp,
      get_eq_error (k.alike.wiring.node?_eq_none hp)]
    rfl
  | some p =>
    obtain ⟨q, hq, -, -, -, hop⟩ := k.alike.wiring.node hp
    have hwrites : writesSlices q.op = writesSlices p.op := by
      rcases hop.eq_or_input with he | ⟨l, l', h₁, h₂⟩
      · rw [he]
      · rw [h₁, h₂]
        rfl
    simp only [hp, hq, Option.map_some, Option.any_some] at htaken
    rw [Fuse.sliceProducer, Fuse.sliceProducer, get_eq_ok.2 hp, get_eq_ok.2 hq]
    simp only [bind, Except.bind, k.id_eq, htaken, hwrites, ← k.alike.wiring.consumers_eq,
      ← k.alike.wiring.isOutput_eq, k.alike.input_layout hf]

theorem sliceProducers (output : Layout) {ids : List NodeId} (hids : ∀ a ∈ ids, a ∈ n.inputs) :
    sliceProducers ⟨h, m⟩ output ids = Fuse.sliceProducers ⟨g, n⟩ output ids := by
  induction ids with
  | nil => rfl
  | cons a ids ih =>
    simp only [Fuse.sliceProducers, k.sliceProducer output (hids a List.mem_cons_self),
      ih fun b hb => hids b (List.mem_cons_of_mem _ hb)]

theorem concatenation : concatenation ⟨h, m⟩ = Fuse.concatenation ⟨g, n⟩ := by
  simp only [Fuse.concatenation, k.op_eq, k.output, k.inputs_eq, k.id_eq, wrongKind, k.name_eq,
    Node.tag, k.sliceProducers _ fun _ ha => ha]

end Mirrors
end Fuse

open Graph

variable {g h : Graph} {id : NodeId}

/-- A rule cannot tell apart what looks the same from the node. -/
theorem Graph.AlikeAt.judge_eq (hs : g.Sound) (k : g.AlikeAt h id) :
    FusionRules.standard.judge h id = FusionRules.standard.judge g id := by
  rw [FusionRules.judge, FusionRules.judge]
  cases hn : g.node? id with
  | none => rw [get_eq_error hn, get_eq_error (k.wiring.node?_eq_none hn)]; rfl
  | some n =>
    obtain ⟨m, hm, hid, hname, hin, hop⟩ := k.wiring.node hn
    obtain rfl := hs.id_eq hn
    rw [get_eq_ok.2 hn, get_eq_ok.2 hm]
    simp only [bind, Except.bind]
    rcases hop.eq_or_input with he | ⟨l, l', h₁, h₂⟩
    · have km : Fuse.Mirrors g h n m := ⟨k, hn, hid, hname, hin, he⟩
      simp only [Node.tag, he]
      cases hopn : n.op with
      | input | constant | fullyConnected => rfl
      | permute => exact km.permute
      | reshape => exact km.reshape
      | concatenation => exact km.concatenation
      | crop => exact km.crop
      | reorder => exact km.reorder
    · simp only [Node.tag, h₁, h₂, Operation.tag, FusionRules.standard]

end BufferFusion
