import BufferFusion.Execution.Recheck
import BufferFusion.Execution.Resolve
import BufferFusion.Execution.Run
import BufferFusion.Program

/-!
# Networks

A network runs a program on input tensors. The program stays as it was compiled: every execution
works on a copy of its graph, with the shapes of the inputs and memories of its own.
-/
namespace BufferFusion

/-- An output with the memory it lies in and the layout to read it through. -/
structure Output where
  name : String
  memory : Memory
  layout : Layout
  deriving Inhabited

namespace Output

def sizes (o : Output) : List Nat := o.layout.shape.sizes?.getD []

def lanes (o : Output) : Result (List Float) := o.memory.read o.layout

def tensor (o : Output) : Result Tensor := do
  Tensor.ofLanes (← o.lanes) o.sizes o.layout.element

/-- Puts an output into a list that is ordered by name. -/
def insert (o : Output) : List Output → List Output
  | [] => [o]
  | x :: xs => if o.name < x.name then o :: x :: xs else x :: insert o xs

end Output

/-- The state after an execution. -/
structure Execution where
  graph : Graph
  bindings : Bindings
  report : RecheckReport
  deriving Inhabited

namespace Execution

def output (e : Execution) (id : NodeId) : Result Output := do
  let n ← e.graph.get id
  match e.bindings.memory? id with
  | none => .error (.unboundNode n.name)
  | some memory => return { name := n.name, memory, layout := ← e.graph.layout id }

/-- The outputs by name. -/
def outputs (e : Execution) : Result (List Output) := do
  return (← e.graph.outputs.mapM e.output).foldr Output.insert []

end Execution

structure Network where
  program : Program
  allocator : Allocator
  inputs : List (NodeId × Tensor)
  /-- The last execution that succeeded. -/
  last : Option Execution
  deriving Inhabited

namespace Network

/-- A network with an allocator of its own limit. -/
def withLimit (p : Program) (limit : Option Nat) : Network :=
  { program := p, allocator := .withLimit limit, inputs := [], last := none }

def ofProgram (p : Program) : Network := withLimit p p.limit

/-- Binds a tensor to an input. -/
def setInput (w : Network) (name : String) (t : Tensor) : Result Network := do
  let id ← w.program.graph.find name
  let n ← w.program.graph.get id
  match n.op with
  | .input declared =>
    if t.element ≠ declared.element then .error (.inputElement name declared.element t.element)
    else
      let _ ← declared.realize t.shape
      return { w with inputs := (id, t) :: w.inputs.filter (·.1 != id) }
  | op => .error (.notAnInput name op.tag)

/-- The graph of an execution, resolved and rechecked, with the values of the inputs. -/
def prepare (w : Network) : Result (Graph × InputValues × RecheckReport) := do
  let (resolved, values) := w.program.graph.resolve w.inputs
  let values ← values
  let (graph, report) := resolved.recheck .standard
  return (graph, values, ← report)

/-- Runs the program on the tensors that are bound. -/
def execute (w : Network) : Network × Result (List Output) :=
  match (do let (g, v, r) ← w.prepare; return (g, v, r, ← BufferPlan.ofGraph g)) with
  | .error e => (w, .error e)
  | .ok (graph, values, report, plan) =>
    let (allocator, allocated) := plan.allocate w.allocator
    let w' := { w with allocator }
    let outcome : Result (Execution × List Output) := do
      let (bindings, done) := graph.run (← allocated) values
      done
      let e : Execution := { graph, bindings, report }
      return (e, ← e.outputs)
    match outcome with
    | .error e => (w', .error e)
    | .ok (e, outputs) => ({ w' with last := some e }, .ok outputs)

def lastExecution (w : Network) : Result Execution :=
  match w.last with
  | some e => .ok e
  | none => .error .notExecuted

/-- The number of a node's memory in the last execution, and the memory. -/
def memory (w : Network) (name : String) : Result (Nat × Memory) := do
  let e ← w.lastExecution
  let id ← e.graph.find name
  match e.bindings.number? id, e.bindings.memory? id with
  | some number, some m => return (number, m)
  | _, _ => .error (.unboundNode name)

def outputMemory (w : Network) (name : String) : Result (Nat × Memory) := do
  let e ← w.lastExecution
  let id ← e.graph.find name
  if e.graph.isOutput id then w.memory name else .error (.notAnOutput name)

def layout (w : Network) (name : String) : Result Layout := do
  let e ← w.lastExecution
  e.graph.layout (← e.graph.find name)

def state (w : Network) (name : String) : Result FusionState := do
  let e ← w.lastExecution
  return (← e.graph.get (← e.graph.find name)).state

end Network
end BufferFusion
