import BufferFusion.Layout.Size

/-!
# Comparing layouts

Whether two layouts describe the same bytes as far as their dims are known, and what a layout
becomes once its dims are.
-/
namespace BufferFusion

inductive Compatibility where
  /-- The same on every quantity, and all of them known. -/
  | compatible
  /-- The same as far as known. -/
  | pending
  | incompatible
  deriving DecidableEq, Repr, Inhabited

namespace Compatibility

def name : Compatibility → String
  | compatible => "compatible"
  | pending => "pending"
  | incompatible => "incompatible"

def isCompatible (c : Compatibility) : Bool := c != incompatible

def isPending (c : Compatibility) : Bool := c == pending

/-- The weaker of two results. -/
def and : Compatibility → Compatibility → Compatibility
  | incompatible, _ | _, incompatible => incompatible
  | pending, _ | _, pending => pending
  | compatible, compatible => compatible

theorem and_comm (a b : Compatibility) : a.and b = b.and a := by cases a <;> cases b <;> rfl

theorem and_assoc (a b c : Compatibility) : (a.and b).and c = a.and (b.and c) := by
  cases a <;> cases b <;> cases c <;> rfl

end Compatibility

def Dim.compare : Dim → Dim → Compatibility
  | known a, known b => if a = b then .compatible else .incompatible
  | _, _ => .pending

theorem Dim.compare_comm (a b : Dim) : a.compare b = b.compare a := by
  cases a <;> cases b <;> simp only [compare]
  split <;> split <;> simp_all

namespace Layout

/-- All axes together; a single clash decides. -/
def compareDims : List Dim → List Dim → Compatibility
  | a :: as, b :: bs => (a.compare b).and (compareDims as bs)
  | _, _ => .compatible

def compare (a b : Layout) : Compatibility :=
  if a.rank = b.rank ∧ a.element = b.element ∧ a.format = b.format ∧ a.padding = b.padding then
    (if a.padding.hasDynamic then Compatibility.pending else .compatible).and
      (compareDims a.shape.dims b.shape.dims)
  else .incompatible

def isCompatible (a b : Layout) : Bool := (a.compare b).isCompatible

/-- The first axis on which concrete sizes differ from a known dim: axis, dim and size. -/
def firstClash : Nat → List Dim → List Nat → Option (Nat × Nat × Nat)
  | axis, .known n :: ds, m :: ms =>
    if n = m then firstClash (axis + 1) ds ms else some (axis, n, m)
  | axis, .unknown :: ds, _ :: ms => firstClash (axis + 1) ds ms
  | _, _, _ => none

/-- The layout with concrete sizes for its unknown dims. -/
def realize (l : Layout) (sizes : List Nat) : Result Layout :=
  if sizes.length ≠ l.rank then .error (.realizeRank l.shape sizes)
  else
    match firstClash 0 l.shape.dims sizes with
    | some (axis, n, m) => .error (.realizeDim axis l.shape n m)
    | none => .ok { l with shape := .ofSizes sizes }

end Layout
end BufferFusion
