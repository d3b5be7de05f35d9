import BufferFusion.Layout.Basic

/-!
# Operations

What a node of the graph computes, and how many inputs it takes for that.
-/
namespace BufferFusion

/-- Target of a reshape: `-1` marks the inferred dim, and where the operation says so `0` copies
the input's dim. -/
inductive ReshapeTarget where
  | pattern (values : List Int)
  /-- The pattern is the value of the second input, which has this many elements. -/
  | fromInput (rank : Nat)
  deriving DecidableEq, Repr, Inhabited

inductive Operation where
  | input (layout : Layout)
  | constant (layout : Layout) (values : List Float)
  /-- Output dim `i` is input dim `order[i]`. -/
  | permute (order : List Nat)
  | reshape (target : ReshapeTarget) (copyZeros : Bool)
  | concatenation (axis : Nat)
  | crop (offsets sizes : List Nat)
  | reorder (format : Format) (element : ElementType)
  /-- Inputs are data `[.., K]`, weights `[N, K]` and a bias `[N]` that may be missing. -/
  | fullyConnected
  deriving Inhabited

/-- The kind of an operation; tables of rules are keyed by it. -/
inductive Tag where
  | input | constant | permute | reshape | concatenation | crop | reorder | fullyConnected
  deriving DecidableEq, Repr, Inhabited

namespace Tag

def name : Tag → String
  | input => "input"
  | constant => "constant"
  | permute => "permute"
  | reshape => "reshape"
  | concatenation => "concatenation"
  | crop => "crop"
  | reorder => "reorder"
  | fullyConnected => "fully_connected"

def all : List Tag :=
  [input, constant, permute, reshape, concatenation, crop, reorder, fullyConnected]

end Tag

namespace Operation

def tag : Operation → Tag
  | input _ => .input
  | constant _ _ => .constant
  | permute _ => .permute
  | reshape _ _ => .reshape
  | concatenation _ => .concatenation
  | crop _ _ => .crop
  | reorder _ _ => .reorder
  | fullyConnected => .fullyConnected

/-- The layout that a source brings with it. -/
def declared? : Operation → Option Layout
  | input layout | constant layout _ => some layout
  | _ => none

def takes : Operation → Nat → Bool
  | input _, n | constant _ _, n => n == 0
  | permute _, n | crop _ _, n | reorder _ _, n => n == 1
  | reshape (.pattern _) _, n => n == 1
  | reshape (.fromInput _) _, n => n == 2
  | concatenation _, n => 1 ≤ n
  | fullyConnected, n => n == 2 || n == 3

end Operation
end BufferFusion
