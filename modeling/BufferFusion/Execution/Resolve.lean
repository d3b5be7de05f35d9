import BufferFusion.Inference.Table
import BufferFusion.Layout.Comparison
import BufferFusion.Tensor

/-!
# Resolving shapes

The shapes of the input tensors take the place of the declared ones, and every layout is inferred
again with the inputs' values at hand. Padding that fusion installed is gone afterwards.
-/
namespace BufferFusion

namespace Graph

/-- The input nodes by ascending id. -/
def inputNodes (g : Graph) : List Node := g.nodes.filter (·.tag == .input)

/-- An input's layout with the sizes of a tensor, and the tensor's lanes. -/
def bindInput (n : Node) (declared : Layout) (t : Tensor) : Result (Layout × List Float) := do
  if t.element ≠ declared.element then .error (.inputElement n.name declared.element t.element)
  else
    let realized ← declared.realize t.shape
    return (realized, ← t.lanes)

/-- Binds one input after the other; those before a failure keep the layout they got. -/
def bindInputs (tensors : List (NodeId × Tensor)) :
    List Node → Graph → Graph × Result InputValues
  | [], g => (g, .ok [])
  | n :: ns, g =>
    match n.op.declared?, tensors.lookup n.id with
    | none, _ => bindInputs tensors ns g
    | some _, none => (g, .error (.inputNotSet n.name))
    | some declared, some t =>
      match bindInput n declared t with
      | .error e => (g, .error e)
      | .ok (realized, lanes) =>
        let (g', r) := bindInputs tensors ns (g.setOp n.id (.input realized))
        (g', ((n.id, lanes) :: ·) <$> r)

/-- Every node has a layout with known sizes. -/
def checkResolved (g : Graph) : Result Unit :=
  match g.nodes.find? fun n => !n.layout.any (·.isStatic) with
  | some n => .error (.stillUnknown n.name)
  | none => .ok ()

/-- Resolves every layout against the tensors that are bound to the inputs. -/
def resolve (g : Graph) (tensors : List (NodeId × Tensor)) : Graph × Result InputValues :=
  match g.bindInputs tensors g.inputNodes with
  | (g', .error e) => (g', .error e)
  | (g', .ok values) =>
    let (g'', r) := InferenceTable.standard.inferGraph values g'
    (g'', do
      let _ ← r
      checkResolved g''
      return values)

end Graph
end BufferFusion
