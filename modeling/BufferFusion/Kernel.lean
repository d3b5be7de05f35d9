import BufferFusion.Memory
import BufferFusion.Tensor

/-!
# Kernels

The reference computation of each operation, on the logical values of its inputs in row-major
order. An index outside a list is a fault.
-/
namespace BufferFusion

/-- The values of a tensor together with its sizes. -/
structure Logical where
  values : Array Float
  sizes : List Nat
  deriving Inhabited

namespace Logical

/-- The value at an index. -/
def fetch (v : Logical) (index : List Nat) : Result Float :=
  Result.entry v.values[Index.ravel index v.sizes]?

end Logical

namespace Kernel

/-- A value for each index of `sizes`, in row-major order. -/
def build {α : Type} (sizes : List Nat) (f : List Nat → Result α) : Result (List α) := do
  let count ← Size.product sizes
  Size.reserve 8 count
  tabulate count fun n => f (Index.unravel sizes n)

/-- The input index whose axis `order[i]` has coordinate `i` of an output index. -/
def scatter (rank : Nat) (order index : List Nat) : List Nat :=
  (order.zip index).foldl (fun input (axis, i) => input.set axis i) (List.replicate rank 0)

def permute (v : Logical) (order : List Nat) : Result (List Float) := do
  let sizes ← order.mapM fun axis => Result.entry v.sizes[axis]?
  build sizes fun index => v.fetch (scatter v.sizes.length order index)

/-- The value at an index whose coordinate on the axis, counted from the first of `parts`, is
`coord`; `none` past the last part. -/
def fetchPart (axis : Nat) (index : List Nat) : Nat → List Logical → Result (Option Float)
  | _, [] => .ok none
  | coord, part :: parts => do
    let extent ← Result.entry part.sizes[axis]?
    if coord < extent then some <$> part.fetch (index.set axis coord)
    else fetchPart axis index (coord - extent) parts

def concatenate (parts : List Logical) (axis : Nat) (sizes : List Nat) : Result (List Float) := do
  let values ← build sizes fun index => do
    fetchPart axis index (← Result.entry index[axis]?) parts
  return values.filterMap id

/-- Moves an index by the offsets of a window. -/
def shift : List Nat → List Nat → Result (List Nat)
  | i :: index, o :: offsets => do
    let moved ← Size.add i o
    return moved :: (← shift index offsets)
  | index, _ => .ok index

def crop (v : Logical) (offsets sizes : List Nat) : Result (List Float) :=
  build sizes fun index => do v.fetch (← shift index offsets)

/-- The sum of the products, from the left, over a negative zero. -/
def dot (xs ys : List Float) : Float :=
  (List.zipWith (· * ·) xs ys).foldl (· + ·) Lane.negativeZero

/-- What is added to the `n` outputs of a row: the bias, which has to reach that far, or nothing. -/
def addends (n : Nat) : Option (List Float) → Result (List Float)
  | none => .ok (List.replicate n 0)
  | some bias => if n ≤ bias.length then .ok bias else Result.fault .outOfRange

/-- One output per row of weights. -/
def connectRow (weights : List (List Float)) (added row : List Float) : List Float :=
  List.zipWith (fun w b => dot row w + b) weights added

/-- Data `[.., K]` times the transposed weights `[N, K]`, plus the bias. Where there is no row, the
bias is not looked at. -/
def fullyConnected (data weights : Logical) (bias : Option (List Float)) :
    Result (List Float) :=
  match data.sizes.getLast?, weights.sizes with
  | none, _ => .error .connectedScalar
  | some k, [n, depth] =>
    if depth ≠ k then .error (.connectedDepth k depth)
    else do
      let rows := if k = 0 then 0 else data.values.size / k
      Size.reserve 8 (← Size.mul rows n)
      let matrix := pieces k (min n (weights.values.size / max k 1)) weights.values.toList
      let added ← if rows = 0 then pure [] else addends matrix.length bias
      return (pieces k rows data.values.toList).flatMap (connectRow matrix added)
  | some _, _ => .error (.connectedWeights weights.sizes)

end Kernel
end BufferFusion
