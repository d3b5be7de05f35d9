import BufferFusion.Decimal
import BufferFusion.Network

/-!
# Text reports

What a graph, a program and an execution look like to a reader.
-/
namespace BufferFusion.Report

/-- A field of at least `width` characters. -/
def column (width : Nat) (s : String) : String :=
  s ++ String.ofList (List.replicate (width - s.length) ' ')

def nodeLine (n : Node) : String :=
  "  " ++ column 18 n.name ++ " " ++ n.tag.name ++ " " ++ column 36 n.layoutText ++ " " ++
    n.state.text ++
    (match n.assumption with
      | some a => "  [assumes " ++ a.text ++ "]"
      | none => "") ++ "\n"

/-- One line per node in topological order: name, kind, layout and state. -/
def graph (g : Graph) : String :=
  String.join (g.order.filterMap fun id => (g.node? id).map nodeLine)

def groupLine (g : Graph) (group : List NodeId) : String :=
  "  " ++ ", ".intercalate (group.filterMap fun id => (g.node? id).map (·.name)) ++ "\n"

/-- The nodes, how many are fused, and which share a buffer. -/
def program (p : Program) : String :=
  let groups := p.graph.sharing.groups
  "Nodes (" ++ toString p.graph.size ++ "):\n" ++ graph p.graph ++ "\nFusion: " ++ p.stats.text ++
    "\nBuffer groups (" ++ toString groups.length ++ "):\n" ++
    String.join (groups.map (groupLine p.graph))

def values (xs : List Float) : String := Text.list (xs.map (Decimal.text Decimal.value))

/-- The values of an output, or why they cannot be read; a fault is nothing to report. -/
def outputLine (o : Output) : Result String :=
  match o.lanes with
  | .ok xs => .ok (o.name ++ " " ++ Text.nats o.sizes ++ " = " ++ values xs ++ "\n")
  | .error (.fault f) => .error (.fault f)
  | .error e => .ok (o.name ++ ": " ++ e.message ++ "\n")

def recheckLine (r : RecheckReport) : String :=
  "Revalidation: " ++ toString r.checked ++ " checked, " ++ toString r.demoted.length ++
    " demoted\n"

/-- How the decisions held in the last execution, and the outputs. -/
def execution (w : Network) (outputs : List Output) : Result String := do
  let recheck := (w.last.map fun e => recheckLine e.report).getD ""
  return recheck ++ String.join (← outputs.mapM outputLine)

end BufferFusion.Report
