import BufferFusion.Fusion.Decision

/-!
# Views

A reshape, a permute that keeps the order of the elements and a reorder that changes nothing read
their input's buffer in place.
-/
namespace BufferFusion.Fuse

/-- What keeps a layout from being viewed as another: padding, blocks, another element type. -/
def viewObstacle? (input output : Layout) : Option RejectReason :=
  if input.padding.isZero = false then some .paddedInput
  else if input.format.isBlocked || output.format.isBlocked then some .notMetadataOnly
  else if input.element ≠ output.element then some .layoutMismatch
  else none

/-- A view of the first input, with an assumption where the comparison is still pending. -/
def view (c : FusionContext) (compared : Compatibility) (assumption : Assumption) :
    Result Decision :=
  if compared.isCompatible = false then reject .layoutMismatch
  else do
    let producer ← c.producer 0
    return .eligible
      { into := producer
        offset := 0
        edges := [⟨producer, c.node.id, .view 0⟩]
        layouts := []
        assumption := if compared.isPending then some assumption else none }

/-- Compares the layouts as rows of elements. -/
def compareFlat (input output : Layout) : Result Compatibility := do
  return (← input.flat).compare (← output.flat)

def reshape : FusionRule := fun c =>
  match c.node.op with
  | .reshape .. => do
    let input ← c.input 0
    let output ← c.output
    match viewObstacle? input output with
    | some reason => reject reason
    | none => view c (← compareFlat input output) .elementCount
  | _ => wrongKind c .reshape

/-- Why an order moves elements, if it does: two axes that may both be longer than one change
places. `previous` is the last such axis before and `unknown` whether one of them is unknown. -/
def orderObstacle? (dims : List Dim) : Option Nat → Bool → List Nat → Result (Option RejectReason)
  | _, _, [] => .ok none
  | previous, unknown, axis :: order => do
    let d ← Result.entry dims[axis]?
    if d.isUnit then orderObstacle? dims previous unknown order
    else
      let unknown := unknown || d == .unknown
      if previous.any (axis < ·) then
        return some (if unknown then .dynamicShape else .notMetadataOnly)
      else orderObstacle? dims (some axis) unknown order

def permute : FusionRule := fun c =>
  match c.node.op with
  | .permute order => do
    let input ← c.input 0
    let output ← c.output
    match viewObstacle? input output with
    | some reason => reject reason
    | none =>
      match ← orderObstacle? input.shape.dims none false order with
      | some reason => reject reason
      | none => view c (← compareFlat input output) .elementCount
  | _ => wrongKind c .permute

def reorder : FusionRule := fun c =>
  match c.node.op with
  | .reorder .. => do
    let input ← c.input 0
    let output ← c.output
    if input.padding.isZero = false then reject .paddedInput
    else view c (input.compare output) .sameLayout
  | _ => wrongKind c .reorder

end BufferFusion.Fuse
