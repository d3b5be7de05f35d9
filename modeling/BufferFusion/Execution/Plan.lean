import BufferFusion.Graph.Order
import BufferFusion.Memory

/-!
# Buffer plans

Each group of nodes that share a buffer becomes one allocation, every other node gets its own.
-/
namespace BufferFusion

/-- Hands out memories of at most `limit` elements and counts the requests it accepts. -/
structure Allocator where
  limit : Option Nat
  served : Nat
  deriving DecidableEq, Repr, Inhabited

namespace Allocator

def withLimit (limit : Option Nat) : Allocator := ⟨limit, 0⟩

/-- The limit, where a request goes over it. -/
def exceeded? (a : Allocator) (elements : Nat) : Option Nat := a.limit.filter (· < elements)

/-- A memory for a request within the limit. Such a request counts before the memory is made, so
also when there is no room for it. -/
def allocate (a : Allocator) (label : String) (elements : Nat) (element : ElementType) :
    Allocator × Result Memory :=
  match a.exceeded? elements with
  | some limit => (a, .error (.allocationLimit label elements limit))
  | none => ({ a with served := a.served + 1 }, Memory.zeroed elements element)

end Allocator

structure LogicalBuffer where
  label : String
  /-- The nodes bound to the buffer, by ascending id. -/
  members : List NodeId
  /-- What the largest layout of a member takes. -/
  elements : Nat
  element : ElementType
  deriving DecidableEq, Repr, Inhabited

/-- The memories of an execution and the number of the one that each node is bound to. -/
structure Bindings where
  memories : List Memory
  bound : List (NodeId × Nat)
  deriving Inhabited

namespace Bindings

def empty : Bindings := ⟨[], []⟩

def number? (b : Bindings) (id : NodeId) : Option Nat := b.bound.lookup id

def memory? (b : Bindings) (id : NodeId) : Option Memory := do b.memories[← b.number? id]?

def setMemory (b : Bindings) (number : Nat) (m : Memory) : Bindings :=
  { b with memories := b.memories.set number m }

/-- Binds nodes to a new memory. -/
def bind (b : Bindings) (members : List NodeId) (m : Memory) : Bindings where
  memories := b.memories ++ [m]
  bound := b.bound ++ members.map fun id => (id, b.memories.length)

/-- Takes a node's memory away. -/
def unbind (b : Bindings) (id : NodeId) : Bindings :=
  { b with bound := b.bound.filter (·.1 != id) }

end Bindings

structure BufferPlan where
  buffers : List LogicalBuffer
  deriving DecidableEq, Repr, Inhabited

namespace BufferPlan

/-- The buffer that a node is bound to. -/
def bufferOf? (p : BufferPlan) (id : NodeId) : Option LogicalBuffer :=
  p.buffers.find? (·.members.contains id)

/-- Each member's name and the elements its layout takes. -/
def measure (g : Graph) (id : NodeId) : Result (String × Nat) := do
  let elements ← (← g.layout id).footprint
  return ((← g.get id).name, elements)

/-- One buffer for all the members; none for no members. -/
def buffer? (g : Graph) (members : List NodeId) : Result (Option LogicalBuffer) := do
  let measured ← members.mapM (measure g)
  match members with
  | [] => return none
  | first :: _ =>
    return some
      { label := "+".intercalate (measured.map (·.1))
        members
        elements := (measured.map (·.2)).foldl max 0
        element := (← g.layout first).element }

/-- The node sets of the buffers: the groups, then the rest in topological order. -/
def memberSets (g : Graph) : List (List NodeId) :=
  let groups := g.sharing.groups
  groups ++ (g.order.filter fun id => !groups.any (·.contains id)).map fun id => [id]

def ofGraph (g : Graph) : Result BufferPlan := do
  return ⟨(← (memberSets g).mapM (buffer? g)).filterMap id⟩

/-- Allocates buffers one after the other. The allocator has counted those up to a failure. -/
def allocateFrom : List LogicalBuffer → Allocator → Bindings → Allocator × Result Bindings
  | [], a, b => (a, .ok b)
  | buffer :: buffers, a, b =>
    match a.allocate buffer.label buffer.elements buffer.element with
    | (a', .error e) => (a', .error e)
    | (a', .ok m) => allocateFrom buffers a' (b.bind buffer.members m)

def allocate (p : BufferPlan) (a : Allocator) : Allocator × Result Bindings :=
  allocateFrom p.buffers a .empty

end BufferPlan
end BufferFusion
