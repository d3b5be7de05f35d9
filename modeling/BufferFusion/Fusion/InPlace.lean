import BufferFusion.Fusion.Decision

/-!
# In-place concatenation

Every producer writes straight into its slice of the concatenated buffer. The slice is padding on
the producer's layout: below it the slices before, above it the slices after.
-/
namespace BufferFusion.Fuse

/-- Whether a node's kernel can write into a slice. -/
def writesSlices : Operation → Bool
  | .permute _ | .reorder .. | .fullyConnected | .concatenation _ => true
  | _ => false

/-- Why a producer cannot give up its buffer, or the layout it has. -/
def sliceProducer (c : FusionContext) (output : Layout) (producer : NodeId) :
    Result (RejectReason ⊕ Layout) := do
  let p ← c.graph.get producer
  let elsewhere := (c.graph.sharing.edgeOf? producer).any (·.owner != c.node.id)
  if p.state.isOptimized || elsewhere then return .inl .producerAliased
  else if writesSlices p.op = false then return .inl .producerNotWritable
  else if c.graph.consumers producer ≠ [c.node.id] ∨ c.graph.isOutput producer then
    return .inl .sharedProducer
  else
    let l ← c.graph.layout producer
    if l.element ≠ output.element ∨ l.format ≠ output.format then return .inl .layoutMismatch
    else if l.padding.isZero = false then return .inl .paddedInput
    else return .inr l

/-- The layouts of all producers, or the first reason against one. -/
def sliceProducers (c : FusionContext) (output : Layout) :
    List NodeId → Result (RejectReason ⊕ List (NodeId × Layout))
  | [] => .ok (.inr [])
  | id :: ids => do
    match ← sliceProducer c output id with
    | .inl reason => return .inl reason
    | .inr l =>
      match ← sliceProducers c output ids with
      | .inl reason => return .inl reason
      | .inr rest => return .inr ((id, l) :: rest)

/-- For each extent the sum of those after it. -/
def extentsAfter : List Dim → Result (List Dim)
  | [] => .ok []
  | [_] => .ok [.known 0]
  | _ :: next :: rest => do
    let later ← extentsAfter (next :: rest)
    return (← (later.headD (.known 0)).add next) :: later

/-- The padding of a slice, open where an extent before or after it is unknown. -/
def slicePadding : Dim → Dim → AxisPadding
  | .known lower, .known upper => .fixed lower upper
  | _, _ => .pending

structure Slice where
  producer : NodeId
  layout : Layout
  extent : Dim
  after : Dim

/-- The edges and padded layouts of the slices from `index` on, whose extents before sum up to
`before`; `none` if a slice cannot be laid out. -/
def placeSlices (owner axis : Nat) :
    Nat → Dim → List Slice → Result (Option (List SharingEdge × List (NodeId × Layout)))
  | _, _, [] => .ok (some ([], []))
  | index, before, s :: slices => do
    let padding ← (Padding.zero s.layout.rank).place axis (slicePadding before s.after)
    let padded := s.layout.withPadding padding
    if padded.isAllocatable = false then return none
    else
      let edge : SharingEdge := ⟨owner, s.producer, .slice index axis before s.extent⟩
      match ← placeSlices owner axis (index + 1) (← before.add s.extent) slices with
      | none => return none
      | some (edges, layouts) => return some (edge :: edges, (s.producer, padded) :: layouts)

def concatenation : FusionRule := fun c =>
  match c.node.op with
  | .concatenation axis => do
    let output ← c.output
    match ← sliceProducers c output c.node.inputs with
    | .inl reason => reject reason
    | .inr producers =>
      let extents ← producers.mapM fun (_, l) => Result.entry l.shape.dims[axis]?
      let after ← extentsAfter extents
      let slices := List.zipWith
        (fun (id, l) (extent, after) => (⟨id, l, extent, after⟩ : Slice))
        producers (extents.zip after)
      match ← placeSlices c.node.id axis 0 (.known 0) slices with
      | none => reject .invalidLayout
      | some (edges, layouts) =>
        return .eligible
          { into := c.node.id
            offset := 0
            edges
            layouts
            assumption :=
              if layouts.any (·.2.padding.hasDynamic) then some (.sliceLayout axis) else none }
  | _ => wrongKind c .concatenation

end BufferFusion.Fuse
