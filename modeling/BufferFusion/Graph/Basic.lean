import BufferFusion.Sharing.Basic

/-!
# Graphs

A dataflow graph of single-output nodes. Nodes keep their ids: the id of a removed node stays
vacant until a new node takes it, the latest vacancy first.
-/
namespace BufferFusion

/-- The output of `producer` is input `slot` of `consumer`. -/
structure DataEdge where
  producer : NodeId
  consumer : NodeId
  slot : Nat
  deriving DecidableEq, Repr, Inhabited

structure Graph where
  /-- The node of each id. -/
  slots : List (Option Node)
  /-- Vacant ids, the latest first. -/
  vacant : List NodeId
  /-- Newest first. -/
  edges : List DataEdge
  /-- The id of each name. -/
  names : List (String × NodeId)
  /-- Nodes marked as outputs, in the order they were marked. -/
  marked : List NodeId
  sharing : Sharing
  deriving Inhabited

namespace Graph

def empty : Graph :=
  { slots := [], vacant := [], edges := [], names := [], marked := [], sharing := .empty }

def node? (g : Graph) (id : NodeId) : Option Node := g.slots[id]?.join

def contains (g : Graph) (id : NodeId) : Bool := (g.node? id).isSome

def get (g : Graph) (id : NodeId) : Result Node :=
  match g.node? id with
  | some n => .ok n
  | none => .error (.missingNode id)

def find (g : Graph) (name : String) : Result NodeId :=
  match g.names.lookup name with
  | some id => .ok id
  | none => .error (.missingName name)

theorem get_eq_ok {g : Graph} {id : NodeId} {n : Node} :
    g.get id = .ok n ↔ g.node? id = some n := by
  simp only [get]
  split <;> simp_all

theorem contains_iff {g : Graph} {id : NodeId} :
    g.contains id = true ↔ ∃ n, g.node? id = some n := by
  simp [contains, Option.isSome_iff_exists]

/-- The nodes by ascending id. -/
def nodes (g : Graph) : List Node := g.slots.filterMap id

def size (g : Graph) : Nat := g.nodes.length

/-- One more than the greatest id in use. -/
def bound (g : Graph) : Nat :=
  (g.slots.reverse.dropWhile Option.isNone).length

/-- The producer of one input. -/
def input (g : Graph) (id : NodeId) (slot : Nat) : Result NodeId := do
  let n ← g.get id
  match n.inputs[slot]? with
  | some producer => return producer
  | none => .error (.noInput n.name slot)

def layout (g : Graph) (id : NodeId) : Result Layout := do
  let n ← g.get id
  match n.layout with
  | some l => return l
  | none => .error (.noLayout n.name)

def inputLayout (g : Graph) (id : NodeId) (slot : Nat) : Result Layout := do
  g.layout (← g.input id slot)

/-- The consumers of a node, the newest edge first, once per edge. -/
def outgoing (g : Graph) (id : NodeId) : List NodeId :=
  (g.edges.filter (·.producer == id)).map (·.consumer)

/-- The producers of a node, once per edge. -/
def incoming (g : Graph) (id : NodeId) : List NodeId :=
  (g.edges.filter (·.consumer == id)).map (·.producer)

theorem mem_outgoing {g : Graph} {a b : NodeId} :
    b ∈ g.outgoing a ↔ ∃ slot, ⟨a, b, slot⟩ ∈ g.edges := by
  simp only [outgoing, List.mem_map, List.mem_filter, beq_iff_eq]
  constructor
  · rintro ⟨⟨a, b, slot⟩, ⟨he, rfl⟩, rfl⟩
    exact ⟨slot, he⟩
  · rintro ⟨slot, he⟩
    exact ⟨⟨a, b, slot⟩, ⟨he, rfl⟩, rfl⟩

theorem mem_incoming {g : Graph} {a b : NodeId} :
    a ∈ g.incoming b ↔ ∃ slot, ⟨a, b, slot⟩ ∈ g.edges := by
  simp only [incoming, List.mem_map, List.mem_filter, beq_iff_eq]
  constructor
  · rintro ⟨⟨a, b, slot⟩, ⟨he, rfl⟩, rfl⟩
    exact ⟨slot, he⟩
  · rintro ⟨slot, he⟩
    exact ⟨⟨a, b, slot⟩, ⟨he, rfl⟩, rfl⟩

/-- The distinct consumers of a node by ascending id. -/
def consumers (g : Graph) (id : NodeId) : List NodeId := Ascending.ofList (g.outgoing id)

@[simp] theorem mem_consumers {g : Graph} {a b : NodeId} : b ∈ g.consumers a ↔ b ∈ g.outgoing a :=
  Ascending.mem_ofList

/-- The data edges as the nodes list them. -/
def dataEdges (g : Graph) : List DataEdge :=
  g.nodes.flatMap fun n => n.inputs.mapIdx fun slot producer => ⟨producer, n.id, slot⟩

/-- Changes a node, if it is there. -/
def adjust (g : Graph) (id : NodeId) (f : Node → Node) : Graph :=
  { g with slots := g.slots.modify id (Option.map f) }

theorem node?_adjust (g : Graph) (id x : NodeId) (f : Node → Node) :
    (g.adjust id f).node? x = if id = x then (g.node? x).map f else g.node? x := by
  simp only [node?, adjust, List.getElem?_modify]
  cases g.slots[x]? with
  | none => simp
  | some n => by_cases h : id = x <;> simp [h]

def setLayout (g : Graph) (id : NodeId) (l : Layout) : Graph :=
  g.adjust id fun n => { n with layout := some l }

def setState (g : Graph) (id : NodeId) (state : FusionState) : Graph :=
  g.adjust id fun n => { n with state }

def setAssumption (g : Graph) (id : NodeId) (assumption : Option Assumption) : Graph :=
  g.adjust id fun n => { n with assumption }

def setOp (g : Graph) (id : NodeId) (op : Operation) : Graph :=
  g.adjust id fun n => { n with op }

def setSharing (g : Graph) (sharing : Sharing) : Graph := { g with sharing }

end Graph
end BufferFusion
