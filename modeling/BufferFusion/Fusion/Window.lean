import BufferFusion.Fusion.Decision

/-!
# Windows

A crop reads a window of its input's buffer: everything outside the window becomes padding.
-/
namespace BufferFusion

/-- The answer if there is one; a fault stays a fault. -/
def Result.answer? {α : Type} : Result α → Result (Option α)
  | .ok a => .ok (some a)
  | .error (.fault f) => .error (.fault f)
  | .error _ => .ok none

namespace Fuse

/-- The padding around a window on one axis whose input has padding `a`. Around an unknown dim it
stays open. -/
def windowAxis (a : AxisPadding) (offset size : Option Nat) : Dim → Result AxisPadding
  | .unknown => .ok .pending
  | .known n => do
    let o ← Result.entry offset
    let lower ← Size.add a.lower o
    let stop ← Size.add o (← Result.entry size)
    return .fixed lower (← Size.add a.upper (n - stop))

def windowPadding : List Dim → List AxisPadding → List Nat → List Nat → Result (List AxisPadding)
  | [], axes, _, _ => .ok axes
  | _ :: _, [], _, _ => Result.fault .outOfRange
  | d :: dims, a :: axes, offsets, sizes => do
    let axis ← windowAxis a offsets.head? sizes.head? d
    return axis :: (← windowPadding dims axes offsets.tail sizes.tail)

/-- How far the window's first element lies behind the input's. -/
def windowOffset (input : Layout) (offsets : List Nat) : Result Nat := do
  let start ← (input.offset offsets).answer?
  let base ← (input.offset (List.replicate input.rank 0)).answer?
  match start, base with
  | some s, some b => Size.sub s b
  | _, _ => return 0

def crop : FusionRule := fun c =>
  match c.node.op with
  | .crop offsets sizes => do
    let input ← c.input 0
    let output ← c.output
    if input.element ≠ output.element ∨ input.format ≠ output.format then reject .layoutMismatch
    else if input.padding.hasDynamic then reject .dynamicShape
    else
      let axes ← windowPadding input.shape.dims input.padding.axes offsets sizes
      let window := output.withPadding ⟨axes⟩
      if window.isAllocatable = false then reject .invalidLayout
      else
        let pending := !input.isStatic
        let offset ← if pending then pure 0 else windowOffset input offsets
        let producer ← c.producer 0
        return .eligible
          { into := producer
            offset
            edges := [⟨producer, c.node.id, .view offset⟩]
            layouts := [(c.node.id, window)]
            assumption := if pending then some .cropWindow else none }
  | _ => wrongKind c .crop

end Fuse
end BufferFusion
