import BufferFusion.Closure
import BufferFusion.Layout.Size

/-!
# Shared buffers

Which nodes lie in one buffer. An edge joins an owner to a member that lives inside the owner's
buffer; the connected components of the edges are the logical buffers.
-/
namespace BufferFusion

/-- How a member sits inside its owner's buffer. -/
inductive Placement where
  /-- The member reads the owner's buffer from an offset on. -/
  | view (offset : Nat)
  /-- The member writes slice `index` of a concatenation along `axis`. -/
  | slice (index axis : Nat) (offset extent : Dim)
  deriving DecidableEq, Repr, Inhabited

namespace Placement

def isView : Placement → Bool
  | view _ => true
  | slice .. => false

def isSlice (p : Placement) : Bool := !p.isView

def index? : Placement → Option Nat
  | view _ => none
  | slice index .. => some index

end Placement

structure SharingEdge where
  owner : NodeId
  member : NodeId
  placement : Placement
  deriving DecidableEq, Repr, Inhabited

def SharingEdge.touches (e : SharingEdge) (id : NodeId) : Bool := e.owner == id || e.member == id

/-- The edges in the order they were committed. -/
structure Sharing where
  edges : List SharingEdge
  deriving DecidableEq, Repr, Inhabited

namespace Sharing

def empty : Sharing := ⟨[]⟩

/-- The edge that places `member` inside another buffer. -/
def edgeOf? (s : Sharing) (member : NodeId) : Option SharingEdge :=
  s.edges.find? (·.member == member)

/-- Puts an edge before those of the same or a higher slice index. -/
def insertSlice (e : SharingEdge) : List SharingEdge → List SharingEdge
  | [] => [e]
  | x :: xs =>
    if (e.placement.index?.getD 0) ≤ (x.placement.index?.getD 0) then e :: x :: xs
    else x :: insertSlice e xs

/-- The slices that `owner` hands out, by index; equal indices keep their order. -/
def slicesOf (s : Sharing) (owner : NodeId) : List SharingEdge :=
  (s.edges.filter fun e => e.owner == owner && e.placement.isSlice).foldr insertSlice []

/-- The ends of edges that are not in `frontier`, ascending. -/
def beyond (frontier : List NodeId) (edges : List SharingEdge) : List NodeId :=
  Ascending.ofList
    ((edges.flatMap fun e => [e.owner, e.member]).filter fun id => !frontier.contains id)

/-- Goes on from `frontier` along edges that no earlier round has used, for at most as many rounds
as given. What is seen last stands first. -/
def grow : Nat → List NodeId → List SharingEdge → List NodeId → List NodeId
  | 0, _, _, seen => seen
  | rounds + 1, frontier, edges, seen =>
    let (near, far) := edges.partition fun e => frontier.any e.touches
    match beyond frontier near with
    | [] => seen
    | new => grow rounds new far (new ++ seen)

theorem mem_grow_of_mem {rounds : Nat} {frontier seen : List NodeId} {edges : List SharingEdge}
    {id : NodeId} (h : id ∈ seen) : id ∈ grow rounds frontier edges seen := by
  induction rounds generalizing frontier edges seen with
  | zero => exact h
  | succ n ih =>
    simp only [grow]
    split
    · exact h
    · exact ih (List.mem_append_right _ h)

/-- The connected component of a node, ascending. A round that goes on uses up an edge. -/
def component (edges : List SharingEdge) (id : NodeId) : List NodeId :=
  Ascending.ofList (grow edges.length [id] edges [id])

theorem self_mem_component (edges : List SharingEdge) (id : NodeId) : id ∈ component edges id :=
  Ascending.mem_ofList.2 (mem_grow_of_mem (List.mem_singleton.2 rfl))

/-- Every node in one buffer with `id`, which is one of them. -/
def bufferOf (s : Sharing) (id : NodeId) : List NodeId := component s.edges id

/-- Every node that an edge names, ascending. -/
def nodes (s : Sharing) : List NodeId :=
  Ascending.ofList (s.edges.flatMap fun e => [e.owner, e.member])

/-- The components of `ids`, in the order of their first nodes there; `found` are earlier ones. -/
def components (edges : List SharingEdge) : List NodeId → List (List NodeId) → List (List NodeId)
  | [], found => found.reverse
  | id :: ids, found =>
    if found.any (·.contains id) then components edges ids found
    else components edges ids (component edges id :: found)

/-- The buffers of more than one node, by their least nodes. -/
def groups (s : Sharing) : List (List NodeId) := components s.edges s.nodes []

def commit (s : Sharing) (edges : List SharingEdge) : Sharing := ⟨s.edges ++ edges⟩

@[simp] theorem edges_commit (s : Sharing) (es : List SharingEdge) :
    (s.commit es).edges = s.edges ++ es := rfl

/-- Gives the first edge from the update's owner to its member the update's placement; also whether
that changed anything. -/
def refreshEdge (update : SharingEdge) : List SharingEdge → List SharingEdge × Bool
  | [] => ([], false)
  | e :: es =>
    if e.owner = update.owner ∧ e.member = update.member then
      ({ e with placement := update.placement } :: es, e.placement ≠ update.placement)
    else
      let (es', changed) := refreshEdge update es
      (e :: es', changed)

/-- Moves committed pairs to new placements. Pairs that are not there are ignored. -/
def refresh (s : Sharing) : List SharingEdge → Sharing × Nat
  | [] => (s, 0)
  | update :: updates =>
    let (edges, changed) := refreshEdge update s.edges
    let (s', n) := refresh ⟨edges⟩ updates
    (s', (if changed then 1 else 0) + n)

/-- Drops every edge that touches a node. -/
def removeNode (s : Sharing) (id : NodeId) : Sharing := ⟨s.edges.filter fun e => !e.touches id⟩

@[simp] theorem mem_removeNode {s : Sharing} {id : NodeId} {e : SharingEdge} :
    e ∈ (s.removeNode id).edges ↔ e ∈ s.edges ∧ e.touches id = false := by
  simp [removeNode]

/-- Whether `e` lends memory to the node: as its place in another buffer, or as a slice that it
hands out. -/
def lendsTo (id : NodeId) (e : SharingEdge) : Bool :=
  e.member == id || (e.owner == id && e.placement.isSlice)

/-- Drops the edges through which a node borrows memory. Its views stay: they read what it will
write itself. -/
def detach (s : Sharing) (id : NodeId) : Sharing := ⟨s.edges.filter fun e => !lendsTo id e⟩

@[simp] theorem mem_detach {s : Sharing} {id : NodeId} {e : SharingEdge} :
    e ∈ (s.detach id).edges ↔ e ∈ s.edges ∧ lendsTo id e = false := by
  simp [detach]

end Sharing
end BufferFusion
