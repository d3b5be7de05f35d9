import BufferFusion.Graph.Basic

/-!
# Order and reachability

A topological order of a graph, and whether one node is reached from another.

The order is found with a stack of nodes whose producers are all listed. Listing a node pushes
those of its consumers that are ready then, with the consumer of the oldest edge on top, which is
listed next.
-/
namespace BufferFusion.Graph

/-- The nodes without inputs, by ascending id. -/
def roots (g : Graph) : List NodeId :=
  (g.nodes.filter fun n => (g.incoming n.id).isEmpty).map (·.id)

def isReady (g : Graph) (done : List NodeId) (id : NodeId) : Bool :=
  (g.incoming id).all done.contains

/-- Pushes the consumers of `id` that are ready, each once. -/
def pushReady (g : Graph) (done : List NodeId) (id : NodeId) (stack : List NodeId) : List NodeId :=
  (g.outgoing id).reverse.eraseDups.filter (g.isReady done) ++ stack

/-- Takes at most as many nodes off the stack as given; `done` is the order so far, reversed. -/
def orderFrom (g : Graph) : Nat → List NodeId → List NodeId → List NodeId
  | 0, _, done => done
  | _, [], done => done
  | fuel + 1, id :: stack, done =>
    if done.contains id then orderFrom g fuel stack done
    else orderFrom g fuel (g.pushReady (id :: done) id stack) (id :: done)

/-- Every node after its producers. A node comes to the stack at the start or by one of its edges,
which bounds how often one is taken off. -/
def order (g : Graph) : List NodeId :=
  (g.orderFrom (g.slots.length + g.edges.length) g.roots.reverse []).reverse

/-- Whether `b` is `a` or reached from it along data edges. -/
def reaches (g : Graph) (a b : NodeId) : Bool :=
  (closure g.outgoing g.slots.length a).contains b

/-- Like `reaches`, for ids that come from outside: the search knows ids below the bound only. -/
def hasPath (g : Graph) (a b : NodeId) : Result Bool :=
  if a < g.bound then .ok (g.reaches a b) else Result.fault .outOfRange

/-- The marked outputs, or every node without consumers where none is marked. -/
def outputs (g : Graph) : List NodeId :=
  if g.marked.isEmpty then g.order.filter fun id => (g.outgoing id).isEmpty else g.marked

/-- Whether a node is one of the outputs. Its consumers are looked at before the order is. -/
def isOutput (g : Graph) (id : NodeId) : Bool :=
  if g.marked.isEmpty then (g.outgoing id).isEmpty && g.order.contains id
  else g.marked.contains id

theorem isOutput_iff {g : Graph} {id : NodeId} : g.isOutput id = true ↔ id ∈ g.outputs := by
  simp only [isOutput, outputs]
  split
  · simp [and_comm]
  · simp

end BufferFusion.Graph
