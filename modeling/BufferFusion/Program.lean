import BufferFusion.Pass.Inference
import BufferFusion.Pass.Identity
import BufferFusion.Pass.Fusing

/-!
# Programs

A program is a compiled graph with the configuration and the allocation limit it was built for.
-/
namespace BufferFusion

structure Program where
  graph : Graph
  config : BuildConfig
  /-- Most elements of one allocation, if there is a limit. -/
  limit : Option Nat
  deriving Inhabited

namespace Program

/-- The passes that a configuration asks for. -/
def passes (config : BuildConfig) : List Pass :=
  Pass.inference .standard ::
    (if config.optimize then
      (if config.removeIdentities then [Pass.removeIdentity] else []) ++ [Pass.fusing .standard]
    else [])

/-- Compiles a graph with further passes, each in its stage after those of the configuration. -/
def compile (config : BuildConfig) (limit : Option Nat) (extra : List Pass) (g : Graph) :
    Result Program := do
  return { graph := ← runPasses config (byStage (passes config ++ extra)) g, config, limit }

def build (config : BuildConfig) (g : Graph) : Result Program := compile config none [] g

def node (p : Program) (name : String) : Result Node := do p.graph.get (← p.graph.find name)

def hasTag (p : Program) (tag : Tag) : Bool := p.graph.nodes.any (·.tag == tag)

def stats (p : Program) : FusionStats := .ofGraph p.graph

def apply (p : Program) (pass : Pass) : Program × Result Bool :=
  let (graph, r) := pass.run p.config p.graph
  ({ p with graph }, r)

/-- Gives a layout to each node of a list that `target` depends on and that has none. -/
def resolveAlong (target : NodeId) : List NodeId → Graph → Graph × Result Unit
  | [], g => (g, .ok ())
  | id :: ids, g =>
    if !g.reaches id target || ((g.node? id).bind (·.layout)).isSome then resolveAlong target ids g
    else
      match InferenceTable.standard.inferNode g [] id with
      | .error e => (g, .error e)
      | .ok l => resolveAlong target ids (g.setLayout id l)

/-- The layout of a node. With `force` a missing one is inferred, together with those missing
before it, and kept. -/
def layout (p : Program) (name : String) (force : Bool) : Program × Result Layout :=
  match p.graph.find name with
  | .error e => (p, .error e)
  | .ok id =>
    match p.graph.get id with
    | .error e => (p, .error e)
    | .ok n =>
      match n.layout with
      | some l => (p, .ok l)
      | none =>
        if force = false then (p, .error (.noLayout name))
        else
          match resolveAlong id p.graph.order p.graph with
          | (graph, .ok ()) => ({ p with graph }, graph.layout id)
          | (graph, .error e) => ({ p with graph }, .error e)

end Program
end BufferFusion
