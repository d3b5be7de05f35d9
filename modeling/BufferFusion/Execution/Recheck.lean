import BufferFusion.Pass.Fusing

/-!
# Rechecking decisions

Once every shape is concrete, the rule of each optimized node runs again. It gives the padded
layouts and offsets for the concrete shapes; a node that it no longer accepts is demoted to one
that runs its kernel.
-/
namespace BufferFusion

structure RecheckReport where
  /-- How many optimized nodes were looked at. -/
  checked : Nat
  demoted : List NodeId
  deriving DecidableEq, Repr, Inhabited

def RecheckReport.isClean (r : RecheckReport) : Bool := r.demoted.isEmpty

namespace Recheck

/-- Takes the decision about a node back. -/
def demote (g : Graph) (id : NodeId) : Graph :=
  ((g.setSharing (g.sharing.detach id)).setState id (.rejected .runtimeShapeMismatch)).setAssumption
    id none

/-- Moves a node to where a new proposal places it. -/
def renew (g : Graph) (id : NodeId) (p : Proposal) : Graph :=
  ((g.setSharing (g.sharing.refresh p.edges).1).setLayouts p.layouts).setState id p.state

/-- Rechecks the optimized nodes of a list one after the other. -/
def along (t : FusionRules) : List NodeId → Graph → Graph × Result RecheckReport
  | [], g => (g, .ok ⟨0, []⟩)
  | id :: ids, g =>
    match g.get id with
    | .error e => (g, .error e)
    | .ok n =>
      if n.state.isOptimized = false then along t ids g
      else
        match t.judge g id with
        | .error e => (g, .error e)
        | .ok (.eligible p) =>
          let (g', r) := along t ids (renew g id p)
          (g', (fun r => { r with checked := r.checked + 1 }) <$> r)
        | .ok (.rejected _) =>
          let (g', r) := along t ids (demote g id)
          (g', (fun r => ⟨r.checked + 1, id :: r.demoted⟩) <$> r)

end Recheck

def Graph.recheck (g : Graph) (t : FusionRules) : Graph × Result RecheckReport :=
  Recheck.along t g.order g

end BufferFusion
