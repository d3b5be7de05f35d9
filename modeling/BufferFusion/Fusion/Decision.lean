import BufferFusion.Graph.Order
import BufferFusion.Layout.Addressing
import BufferFusion.Layout.Comparison

/-!
# Decisions

A fusion rule looks at one node and the layouts around it and decides whether the node can do
without memory of its own. It changes nothing; what is to be done about a node that can is its
proposal.
-/
namespace BufferFusion

structure Proposal where
  /-- The node whose buffer the output lies in. -/
  into : NodeId
  /-- Where the node's elements begin, relative to those of `into`. -/
  offset : Nat
  edges : List SharingEdge
  /-- Padded layouts to install once the edges are accepted. -/
  layouts : List (NodeId × Layout)
  assumption : Option Assumption
  deriving DecidableEq, Repr, Inhabited

def Proposal.state (p : Proposal) : FusionState := .optimized p.into p.offset

inductive Decision where
  | eligible (proposal : Proposal)
  | rejected (reason : RejectReason)
  deriving DecidableEq, Repr, Inhabited

structure FusionContext where
  graph : Graph
  node : Node

namespace FusionContext

def output (c : FusionContext) : Result Layout := c.graph.layout c.node.id

def input (c : FusionContext) (slot : Nat) : Result Layout := c.graph.inputLayout c.node.id slot

def producer (c : FusionContext) (slot : Nat) : Result NodeId := c.graph.input c.node.id slot

end FusionContext

abbrev FusionRule := FusionContext → Result Decision

/-- The error of a rule that is called on another kind of node. -/
def wrongKind (c : FusionContext) (expected : Tag) : Result Decision :=
  .error (.wrongFusionRule expected c.node.tag c.node.name)

def reject (reason : RejectReason) : Result Decision := .ok (.rejected reason)

end BufferFusion
