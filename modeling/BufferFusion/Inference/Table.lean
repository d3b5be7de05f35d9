import BufferFusion.Inference.Rules
import BufferFusion.Graph.Order

/-!
# Inferring a graph

A table gives the rule for each kind of node. A graph is inferred in topological order; where a
node fails, the nodes before it keep the layouts they got.
-/
namespace BufferFusion

abbrev InferenceTable := Tag → Option InferenceRule

namespace InferenceTable

def empty : InferenceTable := fun _ => none

def standard : InferenceTable := fun tag => some (Infer.rule tag)

def register (t : InferenceTable) (tag : Tag) (rule : InferenceRule) : InferenceTable :=
  fun tag' => if tag' = tag then some rule else t tag'

/-- Ties an error to a node. -/
def blame (n : Node) : Error → Error
  | .misfit cause => .atNode n.tag n.name (.misfit cause)
  | e => e

/-- The layout of the node in `c`, by the rule of its kind. -/
def infer (t : InferenceTable) (c : InferenceContext) : Result Layout :=
  match t c.node.tag with
  | none => .error (.noInferenceRule c.node.tag)
  | some rule => do
    let l ← (rule c).mapError (blame c.node)
    (l.validate).mapError (.atNode c.node.tag c.node.name)
    return l

/-- The layout of a node of `g` as its producers stand now. -/
def inferNode (t : InferenceTable) (g : Graph) (values : InputValues) (id : NodeId) :
    Result Layout := do
  t.infer ⟨g, ← g.get id, values⟩

/-- Infers the nodes of a list one after the other; also whether a layout changed. -/
def inferAlong (t : InferenceTable) (values : InputValues) :
    List NodeId → Graph → Graph × Result Bool
  | [], g => (g, .ok false)
  | id :: ids, g =>
    match t.inferNode g values id with
    | .error e => (g, .error e)
    | .ok l =>
      if (g.node? id).bind (·.layout) = some l then inferAlong t values ids g
      else
        let (g', r) := inferAlong t values ids (g.setLayout id l)
        (g', (fun _ => true) <$> r)

def inferGraph (t : InferenceTable) (values : InputValues) (g : Graph) : Graph × Result Bool :=
  t.inferAlong values g.order g

end InferenceTable
end BufferFusion
