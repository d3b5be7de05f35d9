import BufferFusion.Graph.Order

/-!
# Drawings

A graph in the DOT language. Data edges are solid and carry the slot of the consumer, sharing
edges are dashed; optimized nodes are green, rejected ones grey.
-/
namespace BufferFusion.Drawing

/-- Escapes what would end a quoted string. -/
def escape (s : String) : String :=
  String.ofList (s.toList.flatMap fun c => if c = '\\' ∨ c = '"' then ['\\', c] else [c])

def fill : FusionState → String
  | .optimized .. => "palegreen"
  | .rejected _ => "lightgrey"
  | _ => "white"

def nodeLine (n : Node) : String :=
  "  n" ++ toString n.id ++ " [label=\"" ++ escape n.name ++ "\\n" ++ n.tag.name ++ "\\n" ++
    escape n.layoutText ++ "\\n" ++ n.state.text ++ "\", fillcolor=" ++ fill n.state ++ "];\n"

def arrow (a b : NodeId) : String := "  n" ++ toString a ++ " -> n" ++ toString b

def dataLine (e : DataEdge) : String :=
  arrow e.producer e.consumer ++ " [label=\"" ++ toString e.slot ++ "\"];\n"

def placementText : Placement → String
  | .view offset => "view+" ++ toString offset
  | .slice index axis _ _ => "slice " ++ toString index ++ " @" ++ toString axis

def sharingLine (e : SharingEdge) : String :=
  arrow e.owner e.member ++ " [style=dashed, color=blue, label=\"" ++ placementText e.placement ++
    "\", constraint=false];\n"

def ofGraph (g : Graph) : String :=
  "digraph weld \x7b\n  rankdir=TB;\n" ++
    "  node [shape=box, style=\"rounded,filled\", fillcolor=white];\n\n" ++
    String.join (g.order.filterMap fun id => (g.node? id).map nodeLine) ++ "\n" ++
    String.join (g.dataEdges.map dataLine) ++
    String.join (g.sharing.edges.map sharingLine) ++ "\x7d\n"

end BufferFusion.Drawing
