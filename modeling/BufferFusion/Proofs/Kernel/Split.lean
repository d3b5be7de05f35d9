import BufferFusion.Proofs.Execution.Disjoint
import BufferFusion.Proofs.Graph.Edits
import BufferFusion.Proofs.Kernel.Answers
import BufferFusion.Proofs.Memory.Windows

/-!
# Splits

A split cuts a tensor along an axis into windows that lie end to end. Every index of the tensor is
in one of them and in no other, and the pieces, concatenated along the axis, are the tensor again.
-/
namespace BufferFusion

open Addressing

/-- What a crop keeps of its input. -/
structure Window where
  offsets : List Nat
  sizes : List Nat

namespace Window

variable {shape index es : List Nat} {axis start e n i : Nat} {xs : List Float}

/-- The whole of a shape but for the axis, where `extent` coordinates from `start` on are kept. -/
def slice (shape : List Nat) (axis start extent : Nat) : Window :=
  ⟨(List.replicate shape.length 0).set axis start, shape.set axis extent⟩

/-- Slices of the given extents, the first one at `start` and each other where the last one ends. -/
def slices (shape : List Nat) (axis : Nat) : Nat → List Nat → List Window
  | _, [] => []
  | start, e :: es => slice shape axis start e :: slices shape axis (start + e) es

/-- The tensor that the crop makes of its input. -/
def cut (v : Logical) (w : Window) : Result Logical := do
  return ⟨(← Kernel.crop v w.offsets w.sizes).toArray, w.sizes⟩

@[simp] theorem length_slices : (slices shape axis start es).length = es.length := by
  induction es generalizing start with
  | nil => rfl
  | cons e es ih => rw [slices, List.length_cons, List.length_cons, ih]

/-- A coordinate is in one slot only: of two, the one ends before the other begins. -/
theorem slot_unique {c j e' : Nat} (he : es[i]? = some e) (he' : es[j]? = some e')
    (hlo : (es.take i).sum ≤ c) (hhi : c < (es.take i).sum + e) (hlo' : (es.take j).sum ≤ c)
    (hhi' : c < (es.take j).sum + e') : j = i := by
  obtain hlt | heq | hlt := Nat.lt_trichotomy j i
  · have := List.sum_take_lt he' hlt
    omega
  · exact heq
  · have := List.sum_take_lt he hlt
    omega

section Values

variable (hsum : shape[axis]? = some es.sum) (hcount : Size.product shape = .ok xs.length)
  (hroom : xs.length ≤ Size.capacity 8)

include hsum hcount hroom

end Values
end Window

namespace Graph

open Window

variable {g g' : Graph} {name : String} {input id : NodeId} {axis i start : Nat}
  {shape sizes : List Nat} {ids : List NodeId}

/-- A node that crops the input to the window. -/
def Crops (g : Graph) (input id : NodeId) (w : Window) : Prop :=
  ∃ n, g.node? id = some n ∧ n.op = .crop w.offsets w.sizes ∧ n.inputs = [input]

/-- An input of two rows. -/
def rowsSample : Graph := empty.place "x" (.input (.plain (.ofSizes [2, 3]) .f32)) []

end Graph
end BufferFusion
