import BufferFusion.Graph.Basic

/-!
# Building graphs

A node is added with producers that are already there, which keeps the graph acyclic. Adding one
node either succeeds or changes nothing; a split adds its windows one after the other, and those
added before a failure stay.
-/
namespace BufferFusion.Graph

/-- A source's layout is sound, and a constant has as many values as its shape has elements. -/
def checkSource (name : String) : Operation → Result Unit
  | .constant layout values => do
    layout.validate
    if (← layout.count) ≠ some values.length then
      .error (.constantCount name values.length layout.shape)
  | .input layout => layout.validate
  | _ => .ok ()

def checkNode (g : Graph) (name : String) (op : Operation) (inputs : List NodeId) :
    Result Unit := do
  if (g.names.lookup name).isSome then .error (.duplicateName name)
  else if op.takes inputs.length = false then .error (.arity name op.tag inputs.length)
  else
    match inputs.find? fun id => !g.contains id with
    | some id => .error (.missingProducer id name)
    | none => checkSource name op

/-- The id that the next node gets. -/
def nextId (g : Graph) : NodeId := g.vacant.head?.getD g.slots.length

def inputEdges (id : NodeId) (inputs : List NodeId) : List DataEdge :=
  inputs.mapIdx fun slot producer => ⟨producer, id, slot⟩

/-- Puts a node that has passed the checks into the graph. -/
def place (g : Graph) (name : String) (op : Operation) (inputs : List NodeId) : Graph :=
  let id := g.nextId
  let node := Node.fresh id name op inputs
  { g with
    slots := if g.vacant.isEmpty then g.slots ++ [some node] else g.slots.set id (some node)
    vacant := g.vacant.tail
    edges := (inputEdges id inputs).reverse ++ g.edges
    names := (name, id) :: g.names }

/-- Adds a node that consumes the outputs of `inputs`, in the order of its slots. -/
def add (g : Graph) (name : String) (op : Operation) (inputs : List NodeId) :
    Result (Graph × NodeId) := do
  g.checkNode name op inputs
  return (g.place name op inputs, g.nextId)

/-- The sizes of the tensor that a split cuts, inferred or declared. -/
def splitSizes (g : Graph) (split : String) (input : NodeId) : Result (List Nat) := do
  let n ← g.get input
  match (n.layout.or n.op.declared?).bind (·.shape.sizes?) with
  | some sizes => return sizes
  | none => .error (.splitNeedsSizes split n.name)

/-- The pieces fill the axis. -/
def checkSplit (split : String) (shape : List Nat) (axis : Nat) (sizes : List Nat) :
    Result Unit :=
  match shape[axis]? with
  | none => .error (.splitUncovered split sizes axis shape)
  | some n => do
    if (← Size.sum sizes) ≠ n then .error (.splitUncovered split sizes axis shape)

/-- One window per size, the first at `start` and named with number `i`. -/
def addWindows (g : Graph) (split : String) (input : NodeId) (shape : List Nat) (axis : Nat) :
    Nat → Nat → List Nat → Graph × Result (List NodeId)
  | _, _, [] => (g, .ok [])
  | i, start, size :: sizes =>
    let offsets := (List.replicate shape.length 0).set axis start
    match g.add (split ++ ":" ++ toString i) (.crop offsets (shape.set axis size)) [input] with
    | .error e => (g, .error e)
    | .ok (g', id) =>
      let (g'', ids) := addWindows g' split input shape axis (i + 1) (start + size) sizes
      (g'', (id :: ·) <$> ids)

/-- Cuts a tensor of known shape along an axis into windows of the given sizes. -/
def split (g : Graph) (name : String) (input : NodeId) (axis : Nat) (sizes : List Nat) :
    Graph × Result (List NodeId) :=
  let shape : Result (List Nat) := do
    let shape ← g.splitSizes name input
    checkSplit name shape axis sizes
    return shape
  match shape with
  | .error e => (g, .error e)
  | .ok shape => g.addWindows name input shape axis 0 0 sizes

def mark (g : Graph) (id : NodeId) : Result Graph := do
  let _ ← g.get id
  return if g.marked.contains id then g else { g with marked := g.marked ++ [id] }

end BufferFusion.Graph
