import BufferFusion.Size

/-!
# Tensors

Data on its way in and out: little-endian bytes in logical row-major order. An element is read and
written as an integer, two's complement for the signed types and the bits for single precision.
-/
namespace BufferFusion

namespace ElementType

def isSigned : ElementType → Bool
  | i64 | i32 => true
  | _ => false

/-- The `width` low bytes of an integer, lowest first. -/
def bytesOf : Nat → Int → List UInt8
  | 0, _ => []
  | width + 1, n => UInt8.ofNat (n % 256).toNat :: bytesOf width (n / 256)

@[simp] theorem length_bytesOf (width : Nat) (n : Int) : (bytesOf width n).length = width := by
  induction width generalizing n with
  | zero => rfl
  | succ width ih => simp [bytesOf, ih]

def natOfBytes : List UInt8 → Nat
  | [] => 0
  | b :: bs => b.toNat + 256 * natOfBytes bs

def encode (e : ElementType) (n : Int) : List UInt8 := bytesOf e.size n

@[simp] theorem length_encode (e : ElementType) (n : Int) : (e.encode n).length = e.size :=
  length_bytesOf ..

def decode (e : ElementType) (bytes : List UInt8) : Int :=
  let n := natOfBytes bytes
  let range : Nat := 1 <<< (8 * bytes.length)
  if e.isSigned && range ≤ 2 * n then (n : Int) - range else n

/-- The element a lane is stored as; integer types saturate. -/
def ofLane : ElementType → Float → Int
  | f32, x => Lane.toSingleBits x
  | i64, x => Lane.toIntIn Int64.minValue.toInt Int64.maxValue.toInt x
  | i32, x => Lane.toIntIn Int32.minValue.toInt Int32.maxValue.toInt x
  | u8, x => Lane.toIntIn 0 255 x
  | f16, _ => 0

/-- The lane that holds an element exactly. -/
def toLane? : ElementType → Int → Option Float
  | f32, n => some (Lane.ofSingleBits n.toNat)
  | i64, n => if n.natAbs ≤ Lane.exactLimit then some (Lane.ofInt n) else none
  | i32, n | u8, n => some (Lane.ofInt n)
  | f16, _ => none

end ElementType

/-- The first `count` pieces of `size` entries. -/
def pieces {α : Type} (size : Nat) : Nat → List α → List (List α)
  | 0, _ => []
  | count + 1, xs => xs.take size :: pieces size count (xs.drop size)

structure Tensor where
  shape : List Nat
  element : ElementType
  bytes : List UInt8
  deriving DecidableEq, Repr, Inhabited

namespace Tensor

/-- A tensor of as many elements as its shape has; another number of them is a fault. -/
def ofElements (element : ElementType) (elements : List Int) (shape : List Nat) :
    Result Tensor := do
  if elements.length = (← Size.product shape) then
    return { shape, element, bytes := elements.flatMap element.encode }
  else Result.fault .countMismatch

def ofLanes (lanes : List Float) (shape : List Nat) (element : ElementType) : Result Tensor := do
  if lanes.length ≠ (← Size.product shape) then .error (.valueCount lanes.length shape)
  else if element = .f16 then .error (.unsupportedElement element)
  else
    return { shape, element, bytes := lanes.flatMap fun x => element.encode (element.ofLane x) }

def elements (t : Tensor) : List Int :=
  (pieces t.element.size (t.bytes.length / t.element.size) t.bytes).map t.element.decode

/-- The elements, for a reader that expects them to be of a type. -/
def elementsAs (t : Tensor) (requested : ElementType) : Result (List Int) :=
  if requested = t.element then .ok t.elements else .error (.wrongElement t.element requested)

def laneOf (element : ElementType) (n : Int) : Result Float :=
  match element.toLane? n with
  | some x => .ok x
  | none => .error (.noExactLane element n)

/-- The elements as lanes; one without a lane fails the tensor. -/
def lanes (t : Tensor) : Result (List Float) :=
  if t.element = .f16 then .error (.unsupportedElement t.element)
  else t.elements.mapM (laneOf t.element)

/-- The number of elements. -/
def size (t : Tensor) : Nat := t.shape.foldl (· * ·) 1

end Tensor
end BufferFusion
