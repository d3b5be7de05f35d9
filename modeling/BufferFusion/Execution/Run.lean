import BufferFusion.Execution.Plan
import BufferFusion.Inference.Rules
import BufferFusion.Kernel

/-!
# Running kernels

The nodes that are not optimized run in topological order. A node reads its inputs and writes its
output through their layouts, so the nodes that share a buffer meet where the layouts say.
-/
namespace BufferFusion

namespace Run

/-- The values of an input as they lie in memory. -/
def readInput (g : Graph) (b : Bindings) (id : NodeId) (slot : Nat) : Result Logical := do
  let producer ← g.input id slot
  let l ← g.layout producer
  match b.memory? producer with
  | none => .error (.unboundInput slot id)
  | some m => return { values := (← m.read l).toArray, sizes := ← l.sizes }

/-- What a node's kernel computes. -/
def compute (g : Graph) (b : Bindings) (inputs : InputValues) (n : Node) (l : Layout) :
    Result (List Float) :=
  let input := readInput g b n.id
  match n.op with
  | .input _ =>
    match inputs.lookup n.id with
    | some values => .ok values
    | none => .error (.inputNotSet n.name)
  | .constant _ values => .ok values
  | .permute order => do Kernel.permute (← input 0) order
  | .reshape .. => do return (← input 0).values.toList
  | .concatenation axis => do
    let parts ← (List.range n.inputs.length).mapM input
    Kernel.concatenate parts axis (← l.sizes)
  | .crop offsets sizes => do Kernel.crop (← input 0) offsets sizes
  | .reorder _ element => do return (← input 0).values.toList.map element.convert
  | .fullyConnected => do
    let bias ← if 2 < n.inputs.length then some <$> input 2 else pure none
    Kernel.fullyConnected (← input 0) (← input 1) (bias.map (·.values.toList))

/-- Runs one node. A write that fails midway leaves what it has written. -/
def node (g : Graph) (inputs : InputValues) (id : NodeId) (b : Bindings) :
    Bindings × Result Unit :=
  let work : Result (Option (Nat × Memory × Layout × List Float)) := do
    let n ← g.get id
    if n.state.isOptimized then return none
    else
      let l ← g.layout id
      let values ← compute g b inputs n l
      match b.number? id, b.memory? id with
      | some number, some m => return some (number, m, l, values)
      | _, _ => .error (.unboundNode n.name)
  match work with
  | .error e => (b, .error e)
  | .ok none => (b, .ok ())
  | .ok (some (number, m, l, values)) =>
    let (m', r) := m.write l values
    (b.setMemory number m', r)

def along (g : Graph) (inputs : InputValues) : List NodeId → Bindings → Bindings × Result Unit
  | [], b => (b, .ok ())
  | id :: ids, b =>
    match node g inputs id b with
    | (b', .error e) => (b', .error e)
    | (b', .ok ()) => along g inputs ids b'

end Run

/-- Runs every kernel of a resolved graph on the memories of its nodes. -/
def Graph.run (g : Graph) (b : Bindings) (inputs : InputValues) : Bindings × Result Unit :=
  Run.along g inputs g.order b

end BufferFusion
