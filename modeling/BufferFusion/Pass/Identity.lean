import BufferFusion.Pass.Basic
import BufferFusion.Graph.Replace

/-!
# Removing identities

A reorder to the layout that its input has already, a reshape to the same shape and a permute in
the identity order are bypassed: their consumers read the producer instead.
-/
namespace BufferFusion.Pass

/-- Whether an operation may do nothing. -/
def mayBeIdentity : Operation → Bool
  | .reorder .. => true
  | .reshape (.pattern _) _ => true
  | .permute order => order == List.range order.length
  | _ => false

def isIdentity (g : Graph) (n : Node) : Bool :=
  if mayBeIdentity n.op = false || g.isOutput n.id then false
  else
    match n.layout, g.inputLayout n.id 0 with
    | some output, .ok input => output.isStatic && output == input
    | _, _ => false

def removeAlong : List NodeId → Graph → Graph × Result Bool
  | [], g => (g, .ok false)
  | id :: ids, g =>
    match g.get id with
    | .error e => (g, .error e)
    | .ok n =>
      if isIdentity g n = false then removeAlong ids g
      else
        match (do g.replace id (← g.input id 0) true) with
        | .error e => (g, .error e)
        | .ok g' =>
          let (g'', r) := removeAlong ids g'
          (g'', (fun _ => true) <$> r)

def removeIdentity : Pass :=
  ⟨"remove_identity", .optimization, fun _ g => removeAlong g.order g⟩

end BufferFusion.Pass
