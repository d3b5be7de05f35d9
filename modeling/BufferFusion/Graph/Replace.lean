import BufferFusion.Graph.Order

/-!
# Replacing nodes

A node is removed, with another one taking its place in the slots of its consumers and among the
outputs. A replacement that is refused changes nothing.
-/
namespace BufferFusion.Graph

def checkReplace (g : Graph) (old new : NodeId) (rewire : Bool) : Result Unit := do
  let name := (← g.get old).name
  let _ ← g.get new
  if old = new then .error (.replaceItself name)
  else if ← g.hasPath old new then .error (.replaceCycle name)
  else if rewire = false ∧ g.consumers old ≠ [] then
    .error (.stillConsumed name (g.consumers old).length)
  else if rewire = false ∧ g.marked.contains old then .error (.replaceOutput name)

def substitute (old new id : NodeId) : NodeId := if id = old then new else id

/-- The edges that a consumer gets in place of those from `old`, in the order of its slots. -/
def rewiredEdges (g : Graph) (old new consumer : NodeId) : List DataEdge :=
  match g.node? consumer with
  | none => []
  | some n =>
    ((n.inputs.mapIdx fun slot producer => (⟨producer, consumer, slot⟩ : DataEdge)).filter
      (·.producer == old)).map fun e => { e with producer := new }

/-- Redirects one consumer. -/
def rewireConsumer (g : Graph) (old new consumer : NodeId) : Graph :=
  { g.adjust consumer fun n => { n with inputs := n.inputs.map (substitute old new) } with
    edges := (g.rewiredEdges old new consumer).reverse ++ g.edges }

/-- Takes a node out together with its edges. -/
def remove (g : Graph) (id : NodeId) : Graph :=
  { g with
    slots := g.slots.set id none
    vacant := id :: g.vacant
    edges := g.edges.filter fun e => e.producer != id && e.consumer != id
    names := g.names.filter (·.2 != id)
    sharing := g.sharing.removeNode id }

def replaceOutputs (g : Graph) (old new : NodeId) : Graph :=
  { g with marked := (g.marked.map (substitute old new)).eraseDups }

/-- Removes `old`. With `rewire` its consumers and its place among the outputs go to `new`;
without, it must have neither. -/
def replace (g : Graph) (old new : NodeId) (rewire : Bool) : Result Graph := do
  g.checkReplace old new rewire
  let rewired := (g.consumers old).foldl (fun h c => h.rewireConsumer old new c) g
  return (rewired.replaceOutputs old new).remove old

end BufferFusion.Graph
