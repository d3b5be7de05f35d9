import BufferFusion.Proofs.Graph.Order

/-!
# Wiring

What inference, fusion and execution leave of a graph: its nodes with their names, inputs and
operations, except for the layouts that inputs declare. Whatever depends on the wiring alone (the
order, consumers, outputs) is the same for two graphs that are wired the same.
-/
namespace BufferFusion

namespace Operation

/-- The operation without the layout that an input declares. -/
def forgetLayout : Operation → Operation
  | input _ => input default
  | op => op

/-- Operations that differ in the layout of an input at most. -/
def Alike (a b : Operation) : Prop := a.forgetLayout = b.forgetLayout

variable {a b : Operation}

theorem Alike.refl (a : Operation) : a.Alike a := rfl

theorem Alike.eq_or_input (h : a.Alike b) : a = b ∨ ∃ l l', a = input l ∧ b = input l' := by
  cases a <;> cases b <;> simp_all [Alike, forgetLayout]

theorem Alike.takes_eq (h : a.Alike b) (n : Nat) : a.takes n = b.takes n := by
  rcases h.eq_or_input with rfl | ⟨l, l', rfl, rfl⟩ <;> rfl

end Operation

/-- What analyses leave of a node. -/
def Node.wiring (n : Node) : NodeId × String × List NodeId × Operation :=
  (n.id, n.name, n.inputs, n.op.forgetLayout)

namespace Graph

structure SameWiring (g h : Graph) : Prop where
  slots : g.slots.map (Option.map Node.wiring) = h.slots.map (Option.map Node.wiring)
  vacant : g.vacant = h.vacant
  edges : g.edges = h.edges
  names : g.names = h.names
  marked : g.marked = h.marked

variable {g h k : Graph} {id a b : NodeId} {n : Node}

namespace SameWiring

theorem refl (g : Graph) : g.SameWiring g := ⟨rfl, rfl, rfl, rfl, rfl⟩

theorem symm (w : g.SameWiring h) : h.SameWiring g :=
  ⟨w.slots.symm, w.vacant.symm, w.edges.symm, w.names.symm, w.marked.symm⟩

theorem trans (w : g.SameWiring h) (w' : h.SameWiring k) : g.SameWiring k :=
  ⟨w.slots.trans w'.slots, w.vacant.trans w'.vacant, w.edges.trans w'.edges,
    w.names.trans w'.names, w.marked.trans w'.marked⟩

theorem slots_length (w : g.SameWiring h) : g.slots.length = h.slots.length := by
  simpa using congrArg List.length w.slots

theorem map_wiring (w : g.SameWiring h) (id : NodeId) :
    (g.node? id).map Node.wiring = (h.node? id).map Node.wiring := by
  have := congrArg (·[id]?) w.slots
  simp only [List.getElem?_map] at this
  simp only [node?]
  cases hg : g.slots[id]? <;> cases hh : h.slots[id]? <;> simp_all

/-- The node of the same place. -/
theorem node (w : g.SameWiring h) (hn : g.node? id = some n) : ∃ m, h.node? id = some m ∧
    m.id = n.id ∧ m.name = n.name ∧ m.inputs = n.inputs ∧ m.op.Alike n.op := by
  have := w.map_wiring id
  rw [hn] at this
  obtain ⟨m, hm, he⟩ := Option.map_eq_some_iff.1 this.symm
  simp only [Node.wiring, Prod.mk.injEq] at he
  exact ⟨m, hm, he.1, he.2.1, he.2.2.1, he.2.2.2⟩

theorem contains_eq (w : g.SameWiring h) (id : NodeId) : g.contains id = h.contains id := by
  simpa [contains] using congrArg Option.isSome (w.map_wiring id)

theorem feeds (w : g.SameWiring h) (hf : g.Feeds a b) : h.Feeds a b := by
  obtain ⟨n, hn, ha⟩ := hf
  obtain ⟨m, hm, -, -, hin, -⟩ := w.node hn
  exact ⟨m, hm, hin ▸ ha⟩

theorem feeds_iff (w : g.SameWiring h) : g.Feeds a b ↔ h.Feeds a b := ⟨w.feeds, w.symm.feeds⟩

theorem outgoing_eq (w : g.SameWiring h) (id : NodeId) : g.outgoing id = h.outgoing id := by
  rw [outgoing, outgoing, w.edges]

theorem incoming_eq (w : g.SameWiring h) (id : NodeId) : g.incoming id = h.incoming id := by
  rw [incoming, incoming, w.edges]

theorem consumers_eq (w : g.SameWiring h) (id : NodeId) : g.consumers id = h.consumers id := by
  rw [consumers, consumers, w.outgoing_eq]

theorem nodes_map (w : g.SameWiring h) : g.nodes.map Node.wiring = h.nodes.map Node.wiring := by
  have hmap : ∀ k : Graph,
      k.nodes.map Node.wiring = (k.slots.map (Option.map Node.wiring)).filterMap fun o => o := by
    intro k
    simp [nodes, List.map_filterMap, List.filterMap_map]
  rw [hmap, hmap, w.slots]

theorem roots_eq (w : g.SameWiring h) : g.roots = h.roots := by
  have hroots : ∀ k : Graph, k.edges = h.edges → k.roots =
      ((k.nodes.map Node.wiring).filter fun n => (h.incoming n.1).isEmpty).map (·.1) := by
    intro k hk
    have : ∀ id, k.incoming id = h.incoming id := fun id => by rw [incoming, incoming, hk]
    simp [roots, List.filter_map, Function.comp_def, Node.wiring, this]
  rw [hroots g w.edges, hroots h rfl, w.nodes_map]

theorem orderFrom_eq (w : g.SameWiring h) (fuel : Nat) (stack done : List NodeId) :
    g.orderFrom fuel stack done = h.orderFrom fuel stack done := by
  have hready : ∀ done, g.isReady done = h.isReady done := fun done => by
    funext id
    rw [isReady, isReady, w.incoming_eq]
  induction fuel generalizing stack done with
  | zero => rfl
  | succ fuel ih =>
    cases stack with
    | nil => rfl
    | cons id stack =>
      simp only [orderFrom, ih, pushReady, w.outgoing_eq, hready]

theorem order_eq (w : g.SameWiring h) : g.order = h.order := by
  rw [order, order, w.orderFrom_eq, w.roots_eq, w.slots_length, w.edges]

theorem outputs_eq (w : g.SameWiring h) : g.outputs = h.outputs := by
  have : g.outgoing = h.outgoing := funext w.outgoing_eq
  rw [outputs, outputs, w.marked, w.order_eq, this]

theorem isOutput_eq (w : g.SameWiring h) (id : NodeId) : g.isOutput id = h.isOutput id := by
  rw [isOutput, isOutput, w.marked, w.order_eq, w.outgoing_eq]

theorem sound (w : g.SameWiring h) (s : g.Sound) : h.Sound where
  id_eq := by
    intro id n hn
    obtain ⟨m, hm, hid, -⟩ := w.symm.node hn
    rw [← hid]
    exact s.id_eq hm
  live := by
    intro a b hf
    rw [← w.contains_eq]
    exact s.live (w.symm.feeds hf)
  takes := by
    intro id n hn
    obtain ⟨m, hm, -, -, hin, hop⟩ := w.symm.node hn
    rw [← hop.takes_eq, ← hin]
    exact s.takes hm
  edge_iff := by
    intro a b slot
    rw [← w.edges, s.edge_iff]
    constructor
    · rintro ⟨n, hn, hs⟩
      obtain ⟨m, hm, -, -, hin, -⟩ := w.node hn
      exact ⟨m, hm, hin ▸ hs⟩
    · rintro ⟨n, hn, hs⟩
      obtain ⟨m, hm, -, -, hin, -⟩ := w.symm.node hn
      exact ⟨m, hm, hin ▸ hs⟩
  ranked := by
    obtain ⟨rank, hr⟩ := s.ranked
    exact ⟨rank, fun hf => hr (w.symm.feeds hf)⟩
  named := by
    intro id n hn
    obtain ⟨m, hm, -, hname, -⟩ := w.symm.node hn
    rw [← w.names, ← hname]
    exact s.named hm
  vacant := by
    intro id hid
    rw [← w.vacant] at hid
    have := congrArg (·[id]?) w.slots
    simpa [List.getElem?_map, s.vacant hid] using this.symm
  vacant_nodup := w.vacant ▸ s.vacant_nodup
  marked := by
    intro id hid
    rw [← w.contains_eq]
    exact s.marked (w.marked ▸ hid)

end SameWiring

/-- A change that leaves a node's wiring leaves the graph's. -/
theorem sameWiring_adjust {f : Node → Node}
    (hf : ∀ n, g.node? id = some n → (f n).wiring = n.wiring) :
    (g.adjust id f).SameWiring g := by
  refine ⟨?_, rfl, rfl, rfl, rfl⟩
  refine List.ext_getElem? fun x => ?_
  rw [List.getElem?_map, List.getElem?_map, adjust, List.getElem?_modify]
  by_cases hx : id = x
  · subst hx
    cases hs : g.slots[id]? with
    | none => simp
    | some o =>
      cases o with
      | none => simp
      | some n => simp [hf n (node?_eq_some.2 hs)]
  · cases g.slots[x]? <;> simp [hx]

theorem sameWiring_setLayout (g : Graph) (id : NodeId) (l : Layout) :
    (g.setLayout id l).SameWiring g := sameWiring_adjust fun _ _ => rfl

theorem sameWiring_setState (g : Graph) (id : NodeId) (s : FusionState) :
    (g.setState id s).SameWiring g := sameWiring_adjust fun _ _ => rfl

theorem sameWiring_setAssumption (g : Graph) (id : NodeId) (a : Option Assumption) :
    (g.setAssumption id a).SameWiring g := sameWiring_adjust fun _ _ => rfl

theorem sameWiring_setSharing (g : Graph) (s : Sharing) : (g.setSharing s).SameWiring g :=
  ⟨rfl, rfl, rfl, rfl, rfl⟩

theorem sameWiring_setInput (hn : ∀ n, g.node? id = some n → ∃ l, n.op = .input l) (l : Layout) :
    (g.setOp id (.input l)).SameWiring g := by
  refine sameWiring_adjust fun n h => ?_
  obtain ⟨l', hl⟩ := hn n h
  simp [Node.wiring, hl, Operation.forgetLayout]

/-! ### Reading a changed graph -/

@[simp] theorem node?_setSharing (g : Graph) (s : Sharing) (id : NodeId) :
    (g.setSharing s).node? id = g.node? id := rfl

@[simp] theorem sharing_setSharing (g : Graph) (s : Sharing) : (g.setSharing s).sharing = s := rfl
@[simp] theorem sharing_adjust (g : Graph) (id : NodeId) (f : Node → Node) :
    (g.adjust id f).sharing = g.sharing := rfl
@[simp] theorem sharing_setLayout (g : Graph) (id : NodeId) (l : Layout) :
    (g.setLayout id l).sharing = g.sharing := rfl
@[simp] theorem sharing_setState (g : Graph) (id : NodeId) (s : FusionState) :
    (g.setState id s).sharing = g.sharing := rfl
@[simp] theorem sharing_setAssumption (g : Graph) (id : NodeId) (a : Option Assumption) :
    (g.setAssumption id a).sharing = g.sharing := rfl

theorem node?_setLayout (g : Graph) (id x : NodeId) (l : Layout) : (g.setLayout id l).node? x =
    if id = x then (g.node? x).map ({ · with layout := some l }) else g.node? x :=
  node?_adjust g id x _

theorem node?_setState (g : Graph) (id x : NodeId) (s : FusionState) : (g.setState id s).node? x =
    if id = x then (g.node? x).map ({ · with state := s }) else g.node? x :=
  node?_adjust g id x _

theorem node?_setAssumption (g : Graph) (id x : NodeId) (a : Option Assumption) :
    (g.setAssumption id a).node? x =
      if id = x then (g.node? x).map ({ · with assumption := a }) else g.node? x :=
  node?_adjust g id x _

def state? (g : Graph) (id : NodeId) : Option FusionState := (g.node? id).map (·.state)

@[simp] theorem state?_setSharing (g : Graph) (s : Sharing) (x : NodeId) :
    (g.setSharing s).state? x = g.state? x := rfl

theorem state?_setState (g : Graph) (id x : NodeId) (s : FusionState) :
    (g.setState id s).state? x = if id = x then (g.state? x).map fun _ => s else g.state? x := by
  simp only [state?, node?_setState]
  split <;> simp [Function.comp_def]

@[simp] theorem state?_setLayout (g : Graph) (id x : NodeId) (l : Layout) :
    (g.setLayout id l).state? x = g.state? x := by
  simp only [state?, node?_setLayout]
  split <;> simp [Function.comp_def]

@[simp] theorem state?_setAssumption (g : Graph) (id x : NodeId) (a : Option Assumption) :
    (g.setAssumption id a).state? x = g.state? x := by
  simp only [state?, node?_setAssumption]
  split <;> simp [Function.comp_def]

theorem input_eq_ok (hn : g.node? id = some n) {slot : Nat} :
    g.input id slot = .ok a ↔ n.inputs[slot]? = some a := by
  simp only [input, Result.bind_eq_ok, get_eq_ok, hn, Option.some.injEq, exists_eq_left']
  cases n.inputs[slot]? <;> simp [pure, Except.pure]

theorem Sound.input_ne (hs : g.Sound) {slot : Nat} : g.input id slot ≠ .ok id := by
  intro hi
  obtain ⟨n, hn, -⟩ := Result.bind_eq_ok.1 hi
  have hn := get_eq_ok.1 hn
  exact hs.not_feeds_self (.of_input hn ((input_eq_ok hn).1 hi))

theorem layout_eq_ok {l : Layout} :
    g.layout id = .ok l ↔ ∃ n, g.node? id = some n ∧ n.layout = some l := by
  simp only [layout, Result.bind_eq_ok, get_eq_ok]
  refine exists_congr fun n => and_congr_right fun _ => ?_
  cases n.layout <;> simp [pure, Except.pure]

/-- A change that leaves a node's name and layout alone. -/
theorem layout_adjust {f : Node → Node} (x : NodeId)
    (hf : ∀ n, (f n).name = n.name ∧ (f n).layout = n.layout) :
    (g.adjust id f).layout x = g.layout x := by
  simp only [layout, get, node?_adjust]
  by_cases hid : id = x
  · rw [if_pos hid]
    cases g.node? x with
    | none => rfl
    | some n => simp only [Option.map_some, bind, Except.bind, (hf n).1, (hf n).2]
  · rw [if_neg hid]

@[simp] theorem layout_setState (g : Graph) (id x : NodeId) (s : FusionState) :
    (g.setState id s).layout x = g.layout x := layout_adjust x fun _ => ⟨rfl, rfl⟩

@[simp] theorem layout_setAssumption (g : Graph) (id x : NodeId) (a : Option Assumption) :
    (g.setAssumption id a).layout x = g.layout x := layout_adjust x fun _ => ⟨rfl, rfl⟩

@[simp] theorem layout_setSharing (g : Graph) (s : Sharing) (x : NodeId) :
    (g.setSharing s).layout x = g.layout x := rfl

theorem layout_setLayout_self {l : Layout} (hlive : g.contains id = true) :
    (g.setLayout id l).layout id = .ok l := by
  obtain ⟨n, hn⟩ := contains_iff.1 hlive
  exact layout_eq_ok.2 ⟨{ n with layout := some l }, by simp [node?_setLayout, hn], rfl⟩

theorem layout_setLayout_of_ne {x : NodeId} (hx : x ≠ id) (l : Layout) :
    (g.setLayout id l).layout x = g.layout x := by
  simp only [layout, get, node?_setLayout, if_neg hx.symm]

/-! ### Other layouts -/

/-- `h` is `g` with other layouts: neither wiring nor decisions differ. -/
structure Relaid (g h : Graph) : Prop where
  wiring : g.SameWiring h
  state : ∀ x, h.state? x = g.state? x
  assumption : ∀ x, (h.node? x).map (·.assumption) = (g.node? x).map (·.assumption)
  sharing : h.sharing = g.sharing

namespace Relaid

theorem refl (g : Graph) : g.Relaid g := ⟨.refl g, fun _ => rfl, fun _ => rfl, rfl⟩

theorem trans (r : g.Relaid h) (r' : h.Relaid k) : g.Relaid k :=
  ⟨r.wiring.trans r'.wiring, fun x => (r'.state x).trans (r.state x),
    fun x => (r'.assumption x).trans (r.assumption x), r'.sharing.trans r.sharing⟩

end Relaid

theorem relaid_setLayout (g : Graph) (id : NodeId) (l : Layout) : g.Relaid (g.setLayout id l) := by
  refine ⟨(sameWiring_setLayout g id l).symm, fun x => state?_setLayout .., fun x => ?_, rfl⟩
  rw [node?_setLayout]
  split <;> simp [Function.comp_def]

theorem relaid_setInput (hn : ∀ n, g.node? id = some n → ∃ l, n.op = .input l) (l : Layout) :
    g.Relaid (g.setOp id (.input l)) := by
  refine ⟨(sameWiring_setInput hn l).symm, fun x => ?_, fun x => ?_, rfl⟩
  · simp only [state?, setOp, node?_adjust]
    split <;> simp [Function.comp_def]
  · simp only [setOp, node?_adjust]
    split <;> simp [Function.comp_def]

end Graph
end BufferFusion
