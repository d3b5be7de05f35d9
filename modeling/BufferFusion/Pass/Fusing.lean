import BufferFusion.Pass.Basic
import BufferFusion.Fusion.Rules
import BufferFusion.Sharing.Region

/-!
# Fusing buffers

The nodes are asked in topological order whether they can live in a neighbour's buffer. The first
decision about a node is final, so a producer that became a view cannot become a slice later.
-/
namespace BufferFusion

/-- Installs padded layouts. -/
def Graph.setLayouts (g : Graph) (layouts : List (NodeId × Layout)) : Graph :=
  layouts.foldl (fun g (id, l) => g.setLayout id l) g

namespace Pass

/-- Does what a proposal says for a node whose edges are committed. -/
def accept (g : Graph) (id : NodeId) (p : Proposal) : Graph :=
  ((g.setLayouts p.layouts).setAssumption id p.assumption).setState id p.state

/-- Decides about one node. A conflict with other writers rejects it. -/
def fuseNode (t : FusionRules) (g : Graph) (id : NodeId) : Graph × Result Unit :=
  match t.judge g id with
  | .error e => (g, .error e)
  | .ok (.rejected reason) => (g.setState id (.rejected reason), .ok ())
  | .ok (.eligible p) =>
    let asked := g.setState id .eligible
    match asked.propose p.edges with
    | .ok committed => (accept committed id p, .ok ())
    | .error e =>
      if e.kind = .bufferConflict then (asked.setState id (.rejected .bufferConflict), .ok ())
      else (asked, .error e)

def fuseAlong (t : FusionRules) : List NodeId → Graph → Graph × Result Bool
  | [], g => (g, .ok false)
  | id :: ids, g =>
    match g.node? id with
    | none => fuseAlong t ids g
    | some n =>
      if n.state.isTerminal then fuseAlong t ids g
      else
        match fuseNode t g id with
        | (g', .error e) => (g', .error e)
        | (g', .ok ()) =>
          let (g'', r) := fuseAlong t ids g'
          (g'', (fun _ => true) <$> r)

def fusing (t : FusionRules) : Pass := ⟨"buffer_fusing", .fusion, fun _ g => fuseAlong t g.order g⟩

end Pass
end BufferFusion
