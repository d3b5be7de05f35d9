import Mathlib.Algebra.Order.BigOperators.GroupWithZero.List
import Mathlib.Algebra.Order.Ring.Nat
import BufferFusion.Proofs.Fusion.Concrete
import BufferFusion.Proofs.Inference.Resolve
import BufferFusion.Proofs.Kernel.Entries
import BufferFusion.Proofs.Memory.RoundTrip

/-!
# Permutes that move nothing

A step along one axis skips as many elements as the axes behind it have. So a permute that keeps
every list of values as it is keeps the order of the axes that are longer than one, and only such a
permute is viewed in place.
-/
namespace BufferFusion

open Addressing

/-- The index that is one step along an axis. -/
def Index.step (rank axis : Nat) : List Nat := (List.replicate rank 0).set axis 1

namespace Addressing

variable {dims : List Nat} {i j : Nat}

end Addressing

namespace Kernel

variable {xs : List Float} {dims order index : List Nat}

theorem forall₂_getD (ho : ∀ a ∈ order, a < dims.length) :
    List.Forall₂ (fun axis n => dims[axis]? = some n) order (order.map (dims.getD · 0)) := by
  refine List.forall₂_map_right_iff.2 (List.forall₂_same.2 fun a ha => ?_)
  simp [ho a ha]

/-- A permute is a table over the dims in their new order. -/
theorem permute_eq_build (ho : ∀ a ∈ order, a < dims.length) : permute ⟨xs.toArray, dims⟩ order =
    build (order.map (dims.getD · 0)) fun index =>
      Logical.fetch ⟨xs.toArray, dims⟩ (scatter dims.length order index) := by
  have hfound : (order.mapM fun axis => Result.entry dims[axis]?) =
      .ok (order.map (dims.getD · 0)) :=
    Result.mapM_eq_ok.2 ((forall₂_getD ho).imp fun _ _ hn => Result.entry_eq_ok.2 hn)
  rw [permute, hfound]
  rfl

end Kernel

/-! ### Permutes that are views -/

/-- The layout that a permute infers. -/
def Layout.permuted (l : Layout) (order : List Nat) : Layout :=
  .plain ⟨order.map fun axis => l.shape.dims.getD axis .unknown⟩ l.element

namespace Fuse

variable {g : Graph} {n : Node} {order sizes : List Nat} {input output : Layout}
  {values : InputValues} {into : NodeId} {p : Proposal}

section Permutes

variable (hn : g.node? n.id = some n) (hop : n.op = .permute order)
  (hinto : g.input n.id 0 = .ok into) (hinput : g.layout into = .ok input)

include hop hinto hinput

include hn

end Permutes

end Fuse
end BufferFusion
