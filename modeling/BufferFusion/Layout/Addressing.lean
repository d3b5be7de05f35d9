import BufferFusion.Layout.Size

/-!
# Addressing

Where the element at a logical index lies in the buffer. On a plain axis the coordinate counts
strides; on the blocked axis whole blocks count strides and the rest counts elements.
-/
namespace BufferFusion

structure Addressing where
  lower : List Nat
  strides : List Nat
  /-- The blocked axis and the size of its blocks. -/
  block : Option (Nat × Nat)
  deriving DecidableEq, Repr, Inhabited

namespace Addressing

/-- Row-major strides over cells of `inner` elements, with the size of the whole. -/
def stridesOf (inner : Nat) : List Nat → Result (List Nat × Nat)
  | [] => .ok ([], inner)
  | d :: ds => do
    let (strides, size) ← stridesOf inner ds
    return (size :: strides, ← Size.mul size d)

/-- The part of an offset that one axis gives. -/
def axisOffset (a : Addressing) (axis coord stride : Nat) : Result Nat :=
  match a.block with
  | some (blocked, size) =>
    if blocked = axis then do Size.add (← Size.mul (coord / size) stride) (coord % size)
    else Size.mul coord stride
  | none => Size.mul coord stride

/-- Sums the parts from `axis` on; an index with more axes than the buffer is a fault. -/
def offsetFrom (a : Addressing) : Nat → Nat → List Nat → Result Nat
  | _, acc, [] => .ok acc
  | axis, acc, i :: index => do
    let coord ← Size.add i (← Result.entry a.lower[axis]?)
    let part ← a.axisOffset axis coord (← Result.entry a.strides[axis]?)
    a.offsetFrom (axis + 1) (← Size.add acc part) index

def offset (a : Addressing) (index : List Nat) : Result Nat := a.offsetFrom 0 0 index

end Addressing

namespace Layout

def addressing (l : Layout) : Result Addressing := do
  let stored ← l.storedDims
  let block := l.format.block?.filter fun (axis, _) => axis < stored.length
  let (outer, inner) := match block with
    | some (axis, size) => (stored.modify axis (· / size), size)
    | none => (stored, 1)
  let (strides, _) ← Addressing.stridesOf inner outer
  return { lower := l.padding.lower, strides, block }

/-- The offset of one logical index. -/
def offset (l : Layout) (index : List Nat) : Result Nat := do (← l.addressing).offset index

end Layout
end BufferFusion
