import BufferFusion.Node

/-!
# Errors

Everything that can go wrong, by cause. `Error.kind` sorts the causes and `Error.message` is their
wording. A `fault` is not an answer of the program but the end of it: a size that does not fit a
machine word, or an index that is not there.
-/
namespace BufferFusion

namespace Text

/-- A list as messages show it. -/
def list (xs : List String) : String := "[" ++ ", ".intercalate xs ++ "]"

def nats (xs : List Nat) : String := list (xs.map toString)

def ints (xs : List Int) : String := list (xs.map toString)

def quoted (s : String) : String := "'" ++ s ++ "'"

end Text

open Text

inductive Fault where
  | overflow
  | underflow
  | outOfRange
  /-- More elements than one allocation can have. -/
  | capacity
  | countMismatch
  deriving DecidableEq, Repr, Inhabited

/-- Why the shapes of an operation's inputs do not fit it. -/
inductive Misfit where
  | severalInferred (pattern : List Int)
  | copiesMissing (pattern : List Int) (axis : Nat)
  | invalidValue (pattern : List Int) (value : Int)
  | indivisible (input : Shape) (count : Nat) (pattern : List Int)
  | countDiffers (input : Shape) (count product : Nat)
  | cannotDrop (dim : Dim) (shape : Shape) (format : Format)
  | expected (tag : Tag)
  | notSource
  | orderRank (order : List Nat) (rank : Nat)
  | notPermutation (order : List Nat)
  | patternLength (count rank : Nat)
  | axisOutOfRange (axis : Nat) (shape : Shape)
  | inputMismatch (slot : Nat) (layout first : Layout)
  | dimConflict (axis slot : Nat) (shape first : Shape)
  | windowRank (shape : Shape)
  | windowExceeds (offsets sizes : List Nat) (shape : Shape)
  | scalarData
  | weightsRank (shape : Shape)
  | weightsMismatch (data weights : Shape)
  | biasMismatch (bias : Shape) (outputs : Dim)
  deriving DecidableEq, Repr, Inhabited

def Misfit.message : Misfit → String
  | severalInferred p => "pattern " ++ ints p ++ " has more than one -1"
  | copiesMissing p axis => "pattern " ++ ints p ++ " copies missing dim " ++ toString axis
  | invalidValue p v => "pattern " ++ ints p ++ " has invalid value " ++ toString v
  | indivisible input count p =>
    "cannot reshape " ++ input.text ++ " (" ++ toString count ++ " elements) with pattern " ++
      ints p
  | countDiffers input count product =>
    "cannot reshape " ++ input.text ++ " (" ++ toString count ++ " elements) into " ++
      toString product ++ " elements"
  | cannotDrop d shape format =>
    "cannot drop dim " ++ d.text ++ " of " ++ shape.text ++ " to fit " ++ format.name
  | expected tag => "expected " ++ tag.name
  | notSource => "not a source node"
  | orderRank order rank =>
    "order " ++ nats order ++ " does not match input rank " ++ toString rank
  | notPermutation order => "order " ++ nats order ++ " is not a permutation"
  | patternLength count rank =>
    "pattern has " ++ toString count ++ " values, expected " ++ toString rank
  | axisOutOfRange axis shape => "axis " ++ toString axis ++ " out of range for " ++ shape.text
  | inputMismatch slot layout first =>
    "input " ++ toString slot ++ " " ++ layout.text ++ " does not match " ++ first.text
  | dimConflict axis slot shape first =>
    "dim " ++ toString axis ++ " of input " ++ toString slot ++ " (" ++ shape.text ++
      ") conflicts with " ++ first.text
  | windowRank shape => "window rank does not match " ++ shape.text
  | windowExceeds offsets sizes shape =>
    "window " ++ nats offsets ++ "+" ++ nats sizes ++ " exceeds " ++ shape.text
  | scalarData => "data must have rank 1 or more"
  | weightsRank shape => "weights " ++ shape.text ++ " must be rank 2"
  | weightsMismatch data weights =>
    "data " ++ data.text ++ " does not match weights " ++ weights.text
  | biasMismatch bias n => "bias " ++ bias.text ++ " does not match " ++ n.text ++ " outputs"

/-- The sorts of errors that callers tell apart. -/
inductive ErrorKind where
  | shapeInference | shapeMismatch | bufferConflict | invalidGraph | nodeNotFound
  | layoutNotResolved | allocation | inputNotSet | tensor | execution
  /-- A bare message, not yet tied to a node. -/
  | plain
  | fault
  deriving DecidableEq, Repr, Inhabited

/-- What the message of an error of this kind starts with. -/
def ErrorKind.label : ErrorKind → String
  | shapeInference => "Shape inference error: "
  | shapeMismatch => "Shape mismatch: "
  | bufferConflict => "Buffer conflict: "
  | invalidGraph => "Invalid graph structure: "
  | nodeNotFound => "Node not found: "
  | layoutNotResolved => "Layout not resolved: "
  | allocation => "Allocation error: "
  | inputNotSet => "Input not set: "
  | tensor => "Invalid tensor: "
  | execution => "Execution failed: "
  | plain | fault => ""

inductive Error where
  | fault (fault : Fault)
  -- layouts
  | paddingRanks (lower upper : Nat)
  | formatRank (format : Format) (rank : Nat)
  | paddingRank (padding shape : Nat)
  | realizeRank (shape : Shape) (sizes : List Nat)
  | realizeDim (axis : Nat) (shape : Shape) (size got : Nat)
  | shapeNotStatic (shape : Shape)
  | paddingNotResolved (layout : Layout)
  -- inference
  | misfit (cause : Misfit)
  | atNode (tag : Tag) (name : String) (cause : Error)
  | noInferenceRule (tag : Tag)
  | missingInput (name : String) (slot : Nat)
  | inputWithoutLayout (slot : Nat) (producer name : String)
  | splitNeedsSizes (split name : String)
  | splitUncovered (split : String) (sizes : List Nat) (axis : Nat) (shape : List Nat)
  | dynamicShape (name : String) (shape : Shape)
  -- graphs
  | missingNode (id : NodeId)
  | missingName (name : String)
  | missingProducer (id : NodeId) (name : String)
  | duplicateName (name : String)
  | arity (name : String) (tag : Tag) (count : Nat)
  | constantCount (name : String) (count : Nat) (shape : Shape)
  | noInput (name : String) (slot : Nat)
  | noLayout (name : String)
  | replaceItself (name : String)
  | replaceCycle (name : String)
  | stillConsumed (name : String) (consumers : Nat)
  | replaceOutput (name : String)
  -- sharing
  | wrongFusionRule (expected tag : Tag) (name : String)
  | aliasItself (name : String)
  | twoRegions (name : String)
  | unorderedWriters (first second : String)
  | allocationLimit (label : String) (elements limit : Nat)
  -- tensors
  | valueCount (count : Nat) (shape : List Nat)
  | unsupportedElement (element : ElementType)
  | noExactLane (element : ElementType) (value : Int)
  | wrongElement (held requested : ElementType)
  | inputElement (name : String) (expected got : ElementType)
  | notAnInput (name : String) (tag : Tag)
  -- execution
  | inputNotSet (name : String)
  | unresolvedLayout (layout : Layout)
  | outOfBounds (offset size : Nat)
  | layoutCount (count : Nat) (layout : Layout)
  | unboundNode (name : String)
  | unboundInput (slot : Nat) (id : NodeId)
  | connectedScalar
  | connectedWeights (sizes : List Nat)
  | connectedDepth (data weights : Nat)
  | stillUnknown (name : String)
  | notExecuted
  | notAnOutput (name : String)
  deriving DecidableEq, Repr

namespace Error

instance : Inhabited Error := ⟨fault .overflow⟩

def kind : Error → ErrorKind
  | fault _ => .fault
  | paddingRanks .. | formatRank .. | paddingRank .. | realizeRank .. | realizeDim .. =>
    .shapeMismatch
  | shapeNotStatic _ | paddingNotResolved _ | noLayout _ => .layoutNotResolved
  | misfit _ => .plain
  | atNode .. | noInferenceRule _ | missingInput .. | inputWithoutLayout .. | splitNeedsSizes ..
  | splitUncovered .. | dynamicShape .. => .shapeInference
  | missingNode _ | missingName _ | missingProducer .. => .nodeNotFound
  | duplicateName _ | arity .. | constantCount .. | noInput .. | replaceItself _
  | replaceCycle _ | stillConsumed .. | replaceOutput _ | wrongFusionRule .. => .invalidGraph
  | aliasItself _ | twoRegions _ | unorderedWriters .. => .bufferConflict
  | allocationLimit .. => .allocation
  | valueCount .. | unsupportedElement _ | noExactLane .. | wrongElement .. | inputElement ..
  | notAnInput .. => .tensor
  | inputNotSet _ => .inputNotSet
  | unresolvedLayout _ | outOfBounds .. | layoutCount .. | unboundNode _ | unboundInput ..
  | connectedScalar | connectedWeights _ | connectedDepth .. | stillUnknown _ | notExecuted
  | notAnOutput _ => .execution

def isFault : Error → Bool
  | fault _ => true
  | _ => false

/-- The wording of a cause, without the label of its kind. -/
def detail : Error → String
  | fault _ => ""
  | paddingRanks lower upper =>
    "padding lower rank " ++ toString lower ++ " differs from upper rank " ++ toString upper
  | formatRank format rank =>
    "format " ++ format.name ++ " cannot hold a rank " ++ toString rank ++ " tensor"
  | paddingRank padding shape =>
    "padding rank " ++ toString padding ++ " differs from shape rank " ++ toString shape
  | realizeRank shape sizes =>
    "cannot realize " ++ shape.text ++ " with rank " ++ toString sizes.length ++ " shape " ++
      nats sizes
  | realizeDim axis shape size got =>
    "dim " ++ toString axis ++ " of " ++ shape.text ++ " is " ++ toString size ++ ", got " ++
      toString got
  | shapeNotStatic shape => "shape " ++ shape.text ++ " is not static"
  | paddingNotResolved layout => "padding of " ++ layout.text ++ " is not resolved"
  | misfit cause => cause.message
  | atNode tag name cause =>
    tag.name ++ " " ++ quoted name ++ ": " ++ (cause.kind.label ++ cause.detail)
  | noInferenceRule tag => "no inference rule for " ++ tag.name
  | missingInput name slot => "node " ++ quoted name ++ " has no input " ++ toString slot
  | inputWithoutLayout slot producer name =>
    "input " ++ toString slot ++ " (" ++ quoted producer ++ ") of " ++ quoted name ++
      " has no layout yet"
  | splitNeedsSizes split name =>
    "split " ++ quoted split ++ " needs a static shape for " ++ quoted name
  | splitUncovered split sizes axis shape =>
    "split " ++ quoted split ++ " sizes " ++ nats sizes ++ " do not cover axis " ++ toString axis ++
      " of " ++ nats shape
  | dynamicShape name shape =>
    "node " ++ quoted name ++ " has dynamic shape " ++ shape.text ++
      " but dynamic shapes are disabled"
  | missingNode id => id.text
  | missingName name => quoted name
  | missingProducer id name => "input " ++ id.text ++ " of node " ++ quoted name
  | duplicateName name => "duplicate node name " ++ quoted name
  | arity name tag count =>
    "node " ++ quoted name ++ ": " ++ tag.name ++ " does not take " ++ toString count ++
      " inputs"
  | constantCount name count shape =>
    "constant " ++ quoted name ++ " has " ++ toString count ++ " values for shape " ++ shape.text
  | noInput name slot => "node " ++ quoted name ++ " has no input " ++ toString slot
  | noLayout name => "node " ++ quoted name
  | replaceItself name => "cannot replace " ++ quoted name ++ " with itself"
  | replaceCycle name => "replacing " ++ quoted name ++ " would create a cycle"
  | stillConsumed name consumers =>
    quoted name ++ " still has " ++ toString consumers ++ " consumers"
  | replaceOutput name => quoted name ++ " is a graph output"
  | wrongFusionRule expected tag name =>
    "fusion rule for " ++ expected.name ++ " called on " ++ tag.name ++ " " ++ quoted name
  | aliasItself name => quoted name ++ " cannot alias itself"
  | twoRegions name => quoted name ++ " would occupy two regions"
  | unorderedWriters first second =>
    "unordered writers " ++ quoted first ++ " and " ++ quoted second ++ " overlap"
  | allocationLimit label elements limit =>
    quoted label ++ " needs " ++ toString elements ++ " elements, limit is " ++ toString limit
  | valueCount count shape => toString count ++ " values for shape " ++ nats shape
  | unsupportedElement element => element.name ++ " tensors are not supported on the host"
  | noExactLane element value =>
    element.name ++ " value " ++ toString value ++ " has no exact host lane"
  | wrongElement held requested => "tensor holds " ++ held.name ++ ", requested " ++ requested.name
  | inputElement name expected got =>
    "input " ++ quoted name ++ " expects " ++ expected.name ++ ", got " ++ got.name
  | notAnInput name tag => quoted name ++ " is a " ++ tag.name ++ ", not an input"
  | inputNotSet name => name
  | unresolvedLayout layout => "layout " ++ layout.text ++ " is not resolved"
  | outOfBounds offset size =>
    "offset " ++ toString offset ++ " outside buffer of " ++ toString size ++ " elements"
  | layoutCount count layout => toString count ++ " values for layout " ++ layout.text
  | unboundNode name => "no memory bound to " ++ quoted name
  | unboundInput slot id => "no memory bound to input " ++ toString slot ++ " of " ++ id.text
  | connectedScalar => "fully connected on a scalar"
  | connectedWeights sizes => "fully connected weights must be rank 2, got " ++ nats sizes
  | connectedDepth data weights =>
    "fully connected K mismatch: " ++ toString data ++ " vs " ++ toString weights
  | stillUnknown name => "shape of " ++ quoted name ++ " is still unknown after resolution"
  | notExecuted => "network has not been executed"
  | notAnOutput name => quoted name ++ " is not a graph output"

def message (e : Error) : String := e.kind.label ++ e.detail

end Error

/-- The answer of an operation that can fail. -/
abbrev Result (α : Type) := Except Error α

namespace Result

def fault {α : Type} (f : Fault) : Result α := .error (.fault f)

/-- An entry that has to be there. -/
def entry {α : Type} (x : Option α) : Result α :=
  match x with
  | some a => .ok a
  | none => fault .outOfRange

/-- A sequence of two steps answers what the second does with the first one's answer. -/
theorem bind_eq_ok {α β : Type} {x : Result α} {f : α → Result β} {b : β} :
    (x >>= f) = .ok b ↔ ∃ a, x = .ok a ∧ f a = .ok b := by
  cases x <;> simp [bind, Except.bind]

theorem entry_eq_ok {α : Type} {x : Option α} {a : α} : entry x = .ok a ↔ x = some a := by
  cases x <;> simp [entry, fault]

end Result
end BufferFusion
