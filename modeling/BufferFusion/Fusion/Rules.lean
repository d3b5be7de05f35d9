import BufferFusion.Fusion.InPlace
import BufferFusion.Fusion.View
import BufferFusion.Fusion.Window

/-!
# Fusion rules

The table of rules, and how a graph's decisions are counted.
-/
namespace BufferFusion

abbrev FusionRules := Tag → Option FusionRule

namespace FusionRules

def empty : FusionRules := fun _ => none

def register (t : FusionRules) (tag : Tag) (rule : FusionRule) : FusionRules :=
  fun tag' => if tag' = tag then some rule else t tag'

/-- Reshapes, permutes and reorders become views, crops windows, and concatenations are done in
place. -/
def standard : FusionRules
  | .reshape => some Fuse.reshape
  | .permute => some Fuse.permute
  | .reorder => some Fuse.reorder
  | .crop => some Fuse.crop
  | .concatenation => some Fuse.concatenation
  | .input | .constant | .fullyConnected => none

/-- The decision about a node. A kind without a rule is rejected. -/
def judge (t : FusionRules) (g : Graph) (id : NodeId) : Result Decision := do
  let n ← g.get id
  match t n.tag with
  | none => reject .noFusionRule
  | some rule => rule ⟨g, n⟩

end FusionRules

structure FusionStats where
  optimized : Nat
  /-- Optimized nodes with an assumption left to check. -/
  pending : Nat
  rejected : Nat
  /-- Nodes rejected because of overlapping writers. -/
  conflicts : Nat
  unanalyzed : Nat
  deriving DecidableEq, Repr, Inhabited

namespace FusionStats

def ofNodes (ns : List Node) : FusionStats where
  optimized := ns.countP (·.state.isOptimized)
  pending := ns.countP fun n => n.state.isOptimized && n.assumption.isSome
  rejected := ns.countP (·.state.reason?.isSome)
  conflicts := ns.countP fun n => n.state.reason? == some .bufferConflict
  unanalyzed := ns.countP fun n => !n.state.isTerminal

def ofGraph (g : Graph) : FusionStats := ofNodes g.nodes

def text (s : FusionStats) : String :=
  toString s.optimized ++ " optimized (" ++ toString s.pending ++ " pending), " ++
    toString s.rejected ++ " rejected (" ++ toString s.conflicts ++ " conflicts)"

end FusionStats
end BufferFusion
