/-!
# Padding

Room around a tensor inside its buffer, axis by axis. An axis with dynamic padding gets its
amounts only once the shapes around it are known.
-/
namespace BufferFusion

structure AxisPadding where
  lower : Nat
  upper : Nat
  dynamic : Bool
  deriving DecidableEq, Repr, Inhabited

namespace AxisPadding

def zero : AxisPadding := ⟨0, 0, false⟩

def fixed (lower upper : Nat) : AxisPadding := ⟨lower, upper, false⟩

def pending : AxisPadding := ⟨0, 0, true⟩

def text (p : AxisPadding) : String :=
  if p.dynamic then "?" else toString p.lower ++ ":" ++ toString p.upper

end AxisPadding

structure Padding where
  axes : List AxisPadding
  deriving DecidableEq, Repr, Inhabited

namespace Padding

def zero (rank : Nat) : Padding := ⟨List.replicate rank .zero⟩

def rank (p : Padding) : Nat := p.axes.length

def lower (p : Padding) : List Nat := p.axes.map (·.lower)

def upper (p : Padding) : List Nat := p.axes.map (·.upper)

def isDynamic (p : Padding) (axis : Nat) : Bool := (p.axes[axis]?.map (·.dynamic)).getD false

def hasDynamic (p : Padding) : Bool := p.axes.any (·.dynamic)

def isZero (p : Padding) : Bool := p.axes.all (· == .zero)

/-- Replaces the padding of one axis; an axis outside the rank changes nothing. -/
def set (p : Padding) (axis : Nat) (a : AxisPadding) : Padding := ⟨p.axes.set axis a⟩

def text (p : Padding) : String := ",".intercalate (p.axes.map AxisPadding.text)

@[simp] theorem rank_zero (n : Nat) : (zero n).rank = n := by simp [rank, zero]

@[simp] theorem isZero_zero (n : Nat) : (zero n).isZero = true := by
  simp [isZero, zero, List.all_replicate]

@[simp] theorem hasDynamic_zero (n : Nat) : (zero n).hasDynamic = false := by
  simp [hasDynamic, zero, List.any_replicate, AxisPadding.zero]

@[simp] theorem rank_set (p : Padding) (axis : Nat) (a : AxisPadding) :
    (p.set axis a).rank = p.rank := by simp [rank, set]

end Padding
end BufferFusion
