import BufferFusion.Graph.Basic
import BufferFusion.Shape.Reshape
import BufferFusion.Shape.Fit

/-!
# Inference rules

The layout of a node's output from the layouts of its producers, one rule per kind of operation.
Rules accept unknown dims and pass them on: they run before execution on what is known then, and
again during execution. Inferred layouts never have padding.
-/
namespace BufferFusion

/-- The values of nodes that are known at execution. -/
abbrev InputValues := List (NodeId × List Float)

/-- A node in its graph, with the values of the inputs if there are any. -/
structure InferenceContext where
  graph : Graph
  node : Node
  values : InputValues

namespace InferenceContext

/-- The layout of the producer at a slot. -/
def input (c : InferenceContext) (slot : Nat) : Result Layout :=
  match c.node.inputs[slot]? with
  | none => .error (.missingInput c.node.name slot)
  | some producer => do
    let p ← c.graph.get producer
    match p.layout with
    | some l => return l
    | none => .error (.inputWithoutLayout slot p.name c.node.name)

/-- The values of the producer at a slot. A constant's are always known. -/
def inputValues? (c : InferenceContext) (slot : Nat) : Option (List Float) := do
  let producer ← c.node.inputs[slot]?
  let p ← c.graph.node? producer
  match p.op with
  | .constant _ values => some values
  | _ => c.values.lookup producer

end InferenceContext

/-- What a rule finds wrong about shapes, it says as a `misfit`; the table names the node. -/
abbrev InferenceRule := InferenceContext → Result Layout

namespace Infer

def misfit {α : Type} (cause : Misfit) : Result α := .error (.misfit cause)

/-- A source has the layout it declares, unpadded. -/
def source : InferenceRule := fun c =>
  match c.node.op.declared? with
  | some l => .ok (.unpadded l.shape l.element l.format)
  | none => misfit .notSource

/-- Every axis below the length occurs, and none twice. -/
def isPermutation (order : List Nat) : Bool :=
  order.all (· < order.length) && decide order.Nodup

def permute : InferenceRule := fun c =>
  match c.node.op with
  | .permute order => do
    let l ← c.input 0
    if order.length ≠ l.rank then misfit (.orderRank order l.rank)
    else if isPermutation order = false then misfit (.notPermutation order)
    else return .plain ⟨order.map fun axis => l.shape.dims.getD axis .unknown⟩ l.element
  | _ => misfit (.expected .permute)

/-- The pattern of a reshape, if it is known. -/
def pattern? (c : InferenceContext) : ReshapeTarget → Result (Option (List Int))
  | .pattern values => .ok (some values)
  | .fromInput rank =>
    match c.inputValues? 1 with
    | none => .ok none
    | some values =>
      if values.length ≠ rank then misfit (.patternLength values.length rank)
      else .ok (some (values.map (Lane.toIntIn Int64.minValue.toInt Int64.maxValue.toInt)))

def targetRank : ReshapeTarget → Nat
  | .pattern values => values.length
  | .fromInput rank => rank

def reshape : InferenceRule := fun c =>
  match c.node.op with
  | .reshape target copyZeros => do
    let l ← c.input 0
    let shape ← match ← pattern? c target with
      | some pattern => l.shape.reshape pattern copyZeros
      | none => Shape.ofRank (targetRank target)
    return .plain shape l.element
  | _ => misfit (.expected .reshape)

/-- The dims of a concatenation so far, `as`, with those of one more input: they add up along the
axis and agree elsewhere. -/
def joinDims (axis slot : Nat) (shape first : Shape) : Nat → List Dim → List Dim → Result (List Dim)
  | i, a :: as, b :: bs => do
    let d ←
      if i = axis then a.add b
      else
        match a.merge b with
        | some d => .ok d
        | none => misfit (.dimConflict i slot shape first)
    return d :: (← joinDims axis slot shape first (i + 1) as bs)
  | _, _, _ => .ok []

def joinInputs (c : InferenceContext) (axis : Nat) (first : Layout) :
    Nat → List Dim → List NodeId → Result (List Dim)
  | _, dims, [] => .ok dims
  | slot, dims, _ :: rest => do
    let l ← c.input slot
    if l.rank ≠ first.rank ∨ l.element ≠ first.element ∨ l.format ≠ first.format then
      misfit (.inputMismatch slot l first)
    else
      let joined ← joinDims axis slot l.shape first.shape 0 dims l.shape.dims
      joinInputs c axis first (slot + 1) joined rest

def concatenation : InferenceRule := fun c =>
  match c.node.op with
  | .concatenation axis => do
    let first ← c.input 0
    if first.rank ≤ axis then misfit (.axisOutOfRange axis first.shape)
    else
      let dims ← joinInputs c axis first 1 first.shape.dims c.node.inputs.tail
      return .unpadded ⟨dims⟩ first.element first.format
  | _ => misfit (.expected .concatenation)

/-- The window lies inside every dim that is known. -/
def fitsWindow : List Dim → List Nat → List Nat → Result Bool
  | .known n :: dims, o :: offsets, s :: sizes => do
    if n < (← Size.add o s) then return false else fitsWindow dims offsets sizes
  | .unknown :: dims, _ :: offsets, _ :: sizes => fitsWindow dims offsets sizes
  | _, _, _ => .ok true

def crop : InferenceRule := fun c =>
  match c.node.op with
  | .crop offsets sizes => do
    let l ← c.input 0
    if offsets.length ≠ l.rank ∨ sizes.length ≠ l.rank then misfit (.windowRank l.shape)
    else if ← fitsWindow l.shape.dims offsets sizes then
      return .unpadded (.ofSizes sizes) l.element l.format
    else misfit (.windowExceeds offsets sizes l.shape)
  | _ => misfit (.expected .crop)

def reorder : InferenceRule := fun c =>
  match c.node.op with
  | .reorder format element => do
    let l ← c.input 0
    return .unpadded (← l.shape.fit format) element format
  | _ => misfit (.expected .reorder)

/-- A bias has one value per output; one without dims counts as a single value. -/
def checkBias (outputs : Dim) (bias : Layout) : Result Unit :=
  if (outputs.merge (bias.shape.dims.getLast?.getD (.known 1))).isNone then
    misfit (.biasMismatch bias.shape outputs)
  else .ok ()

def fullyConnected : InferenceRule := fun c => do
  let data ← c.input 0
  let weights ← c.input 1
  match data.shape.dims.getLast?, weights.shape.dims with
  | none, _ => misfit .scalarData
  | some depth, [outputs, weightsDepth] =>
    if (depth.merge weightsDepth).isNone then misfit (.weightsMismatch data.shape weights.shape)
    else
      if c.node.inputs.length = 3 then checkBias outputs (← c.input 2)
      return .plain ⟨data.shape.dims.dropLast ++ [outputs]⟩
        (if data.element.isFloat then data.element else .f32)
  | _, _ => misfit (.weightsRank weights.shape)

/-- The rule of each kind. -/
def rule : Tag → InferenceRule
  | .input | .constant => source
  | .permute => permute
  | .reshape => reshape
  | .concatenation => concatenation
  | .crop => crop
  | .reorder => reorder
  | .fullyConnected => fullyConnected

end Infer
end BufferFusion
