import BufferFusion.Node

/-!
# Closures of node sets

All that is reached from a node along a successor function, and sets of nodes as ascending lists.
-/
namespace BufferFusion

namespace Closure

/-- The successors of `frontier` that are not yet seen, each once. -/
def fresh (next : NodeId → List NodeId) (frontier seen : List NodeId) : List NodeId :=
  ((frontier.flatMap next).filter fun id => !seen.contains id).eraseDups

/-- Goes on from `frontier` for at most as many rounds as given, or until nothing is new. What is
seen last stands first. -/
def spread (next : NodeId → List NodeId) : Nat → List NodeId → List NodeId → List NodeId
  | 0, _, seen => seen
  | rounds + 1, frontier, seen =>
    match fresh next frontier seen with
    | [] => seen
    | new => spread next rounds new (new ++ seen)

theorem mem_spread_of_mem {next : NodeId → List NodeId} {rounds : Nat} {frontier seen : List NodeId}
    {id : NodeId} (h : id ∈ seen) : id ∈ spread next rounds frontier seen := by
  induction rounds generalizing frontier seen with
  | zero => exact h
  | succ n ih =>
    simp only [spread]
    split
    · exact h
    · exact ih (List.mem_append_right _ h)

end Closure

/-- Everything reached from `start`; `bound` is at least the number of nodes there are. -/
def closure (next : NodeId → List NodeId) (bound : Nat) (start : NodeId) : List NodeId :=
  Closure.spread next bound [start] [start]

theorem self_mem_closure (next : NodeId → List NodeId) (bound : Nat) (start : NodeId) :
    start ∈ closure next bound start := Closure.mem_spread_of_mem (List.mem_singleton.2 rfl)

namespace Ascending

def insert (id : NodeId) : List NodeId → List NodeId
  | [] => [id]
  | x :: xs => if id < x then id :: x :: xs else if id = x then x :: xs else x :: insert id xs

/-- The members of a list in ascending order, each once. -/
def ofList (ids : List NodeId) : List NodeId := ids.foldr insert []

@[simp] theorem mem_insert {id x : NodeId} {xs : List NodeId} :
    x ∈ insert id xs ↔ x = id ∨ x ∈ xs := by
  induction xs with
  | nil => simp [insert]
  | cons y ys ih =>
    simp only [insert]
    split
    · simp
    · split
      · simp_all
      · simp only [List.mem_cons, ih]
        constructor <;> intro h <;> rcases h with h | h | h <;> simp [h]

@[simp] theorem mem_ofList {x : NodeId} {ids : List NodeId} : x ∈ ofList ids ↔ x ∈ ids := by
  induction ids with
  | nil => simp [ofList]
  | cons y ys ih =>
    simp only [ofList, List.foldr_cons, mem_insert, List.mem_cons]
    simp only [ofList] at ih
    rw [ih]

end Ascending
end BufferFusion
