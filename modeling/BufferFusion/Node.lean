import BufferFusion.Operation

/-!
# Nodes

A node has one output. Besides its operation and producers it carries what the analyses found
out: its layout, where it stands with respect to buffer fusion, and the condition left to check
at execution.
-/
namespace BufferFusion

abbrev NodeId := Nat

namespace NodeId

/-- Ids are 32 bits wide. -/
def ofRaw (n : Nat) : NodeId := n % UInt32.size

def text (id : NodeId) : String := "NodeIndex(" ++ toString id ++ ")"

end NodeId

/-- Why a node keeps a buffer of its own. -/
inductive RejectReason where
  | noFusionRule
  /-- The operation moves data. -/
  | notMetadataOnly
  | layoutMismatch
  | paddedInput
  /-- An unknown dim prevents proving the decision safe. -/
  | dynamicShape
  /-- The producer's kernel cannot write into a slice. -/
  | producerNotWritable
  | producerAliased
  | sharedProducer
  | invalidLayout
  | bufferConflict
  /-- The decision did not hold for the concrete shapes of an execution. -/
  | runtimeShapeMismatch
  deriving DecidableEq, Repr, Inhabited

namespace RejectReason

def name : RejectReason → String
  | noFusionRule => "no_fusion_rule"
  | notMetadataOnly => "not_metadata_only"
  | layoutMismatch => "layout_mismatch"
  | paddedInput => "padded_input"
  | dynamicShape => "dynamic_shape"
  | producerNotWritable => "producer_not_writable"
  | producerAliased => "producer_aliased"
  | sharedProducer => "shared_producer"
  | invalidLayout => "invalid_layout"
  | bufferConflict => "buffer_conflict"
  | runtimeShapeMismatch => "runtime_shape_mismatch"

def all : List RejectReason :=
  [noFusionRule, notMetadataOnly, layoutMismatch, paddedInput, dynamicShape, producerNotWritable,
    producerAliased, sharedProducer, invalidLayout, bufferConflict, runtimeShapeMismatch]

end RejectReason

/-- Where a node stands. An optimized node runs no kernel: its output lies in the buffer of
`into`, `offset` elements in. An in-place concatenation names itself, for it owns the buffer that
its producers write their slices into. -/
inductive FusionState where
  | unanalyzed
  | eligible
  | optimized (into : NodeId) (offset : Nat)
  | rejected (reason : RejectReason)
  deriving DecidableEq, Repr, Inhabited

namespace FusionState

def isOptimized : FusionState → Bool
  | optimized _ _ => true
  | _ => false

def isTerminal : FusionState → Bool
  | optimized _ _ | rejected _ => true
  | unanalyzed | eligible => false

def reason? : FusionState → Option RejectReason
  | rejected reason => some reason
  | _ => none

def text : FusionState → String
  | unanalyzed => "unanalyzed"
  | eligible => "eligible"
  | optimized into offset =>
    "optimized(into " ++ toString into ++ "+" ++ toString offset ++ ")"
  | rejected reason => "rejected(" ++ reason.name ++ ")"

end FusionState

/-- A condition that could only be checked in part before execution. -/
inductive Assumption where
  /-- Input and output have equally many elements. -/
  | elementCount
  /-- Input and output layout are the same. -/
  | sameLayout
  /-- Every slice of a concatenation along the axis is a valid padded layout. -/
  | sliceLayout (axis : Nat)
  /-- The window fits its input and its padding is valid. -/
  | cropWindow
  deriving DecidableEq, Repr, Inhabited

def Assumption.text : Assumption → String
  | elementCount => "ElementCount"
  | sameLayout => "SameLayout"
  | sliceLayout axis => "SliceLayout \x7b axis: " ++ toString axis ++ " \x7d"
  | cropWindow => "CropWindow"

structure Node where
  id : NodeId
  name : String
  op : Operation
  /-- Producers, in the order of the input slots. -/
  inputs : List NodeId
  layout : Option Layout
  state : FusionState
  assumption : Option Assumption
  deriving Inhabited

namespace Node

def tag (n : Node) : Tag := n.op.tag

/-- A node before any analysis. -/
def fresh (id : NodeId) (name : String) (op : Operation) (inputs : List NodeId) : Node :=
  { id, name, op, inputs, layout := none, state := .unanalyzed, assumption := none }

def layoutText (n : Node) : String := (n.layout.map Layout.text).getD "?"

end Node
end BufferFusion
