import BufferFusion.Graph.Order

/-!
# Proposals

A set of sharing edges is checked before it is committed: every node lies in at most one other
buffer, and of two nodes of one buffer that write overlapping regions one is reached from the
other. A proposal that is refused changes nothing.
-/
namespace BufferFusion

/-- What a node writes of its logical buffer. -/
inductive Region where
  | full
  | slice (owner : NodeId) (index axis : Nat) (offset extent : Dim)
  deriving DecidableEq, Repr, Inhabited

namespace Region

/-- Whether the intervals of `n` from `s` and of `m` from `t` on meet. -/
def meet (s n t m : Nat) : Result Bool := do
  if s < (← Size.add t m) then return t < (← Size.add s n) else return false

/-- Slices of one concatenation overlap if they are the same slice. Others overlap unless they are
known to lie apart on one axis. -/
def overlaps : Region → Region → Result Bool
  | slice o i a s n, slice p j b t m =>
    if o = p then .ok (i == j)
    else
      match s, n, t, m with
      | .known s, .known n, .known t, .known m => if a = b then meet s n t m else .ok true
      | _, _, _, _ => .ok true
  | _, _ => .ok true

end Region

namespace Sharing

/-- Whether an edge makes a node one that writes nothing: a view, or a concatenation whose
producers write its slices. -/
def silences (id : NodeId) (e : SharingEdge) : Bool :=
  if e.placement.isView then e.member == id else e.owner == id

/-- The slice that an edge has a node write. -/
def sliceRegion? (id : NodeId) (e : SharingEdge) : Option Region :=
  match e.placement with
  | .slice index axis offset extent =>
    if e.member = id then some (.slice e.owner index axis offset extent) else none
  | .view _ => none

/-- The region that a node writes, or `none` for a node that writes nothing. -/
def writeRegion (g : Graph) (edges : List SharingEdge) (id : NodeId) : Option Region :=
  if (g.node? id).any (·.state.isOptimized) then none
  else if edges.any (silences id) then none
  else some (((edges.filterMap (sliceRegion? id)).getLast?).getD .full)

/-- Both nodes of each edge are there and differ, and no member has a place already. -/
def checkMembers (g : Graph) : List NodeId → List SharingEdge → Result Unit
  | _, [] => .ok ()
  | placed, e :: es => do
    let _ ← g.get e.owner
    let member ← g.get e.member
    if e.owner = e.member then .error (.aliasItself member.name)
    else if placed.contains e.member then .error (.twoRegions member.name)
    else checkMembers g (e.member :: placed) es

/-- Two writers whose regions overlap are ordered. -/
def checkPair (g : Graph) (a b : NodeId × Region) : Result Unit := do
  if ← a.2.overlaps b.2 then
    if ← g.hasPath a.1 b.1 then return
    if ← g.hasPath b.1 a.1 then return
    .error (.unorderedWriters (← g.get a.1).name (← g.get b.1).name)

def checkPairs (g : Graph) : List (NodeId × Region) → Result Unit
  | [] => .ok ()
  | w :: ws => do
    ws.forM (checkPair g w)
    checkPairs g ws

/-- The nodes of the buffers that a proposal touches once it is merged, ascending. -/
def touched (merged proposed : List SharingEdge) : List NodeId :=
  Ascending.ofList (components merged (proposed.map (·.owner)) []).flatten

def validate (s : Sharing) (g : Graph) (proposed : List SharingEdge) : Result Unit := do
  checkMembers g (s.edges.map (·.member)) proposed
  let merged := s.edges ++ proposed
  let writers := (touched merged proposed).filterMap fun id =>
    (writeRegion g merged id).map fun r => (id, r)
  checkPairs g writers

end Sharing

/-- Commits sharing edges after a check. -/
def Graph.propose (g : Graph) (edges : List SharingEdge) : Result Graph := do
  g.sharing.validate g edges
  return g.setSharing (g.sharing.commit edges)

end BufferFusion
