import BufferFusion.Graph.Basic

/-!
# Passes

A pass works on a graph in one stage of a compilation and says whether it changed anything. Where
it fails, the graph keeps what was done before.
-/
namespace BufferFusion

structure BuildConfig where
  /-- Remove identities and fuse buffers. -/
  optimize : Bool
  /-- Accept dims that stay unknown after inference. -/
  allowDynamic : Bool
  /-- Remove nodes that do nothing. -/
  removeIdentities : Bool
  deriving DecidableEq, Repr, Inhabited

namespace BuildConfig

def standard : BuildConfig := ⟨true, true, true⟩

def text (c : BuildConfig) : String :=
  "BuildConfig \x7b optimize_data: " ++ toString c.optimize ++ ", allow_dynamic_shapes: " ++
    toString c.allowDynamic ++ ", remove_identities: " ++ toString c.removeIdentities ++ " \x7d"

end BuildConfig

/-- The stages in the order they run. -/
inductive Stage where
  | inference
  | optimization
  | fusion
  deriving DecidableEq, Repr, Inhabited

namespace Stage

def name : Stage → String
  | inference => "Inference"
  | optimization => "Optimization"
  | fusion => "Fusion"

def all : List Stage := [inference, optimization, fusion]

end Stage

structure Pass where
  name : String
  stage : Stage
  run : BuildConfig → Graph → Graph × Result Bool

/-- Runs passes one after the other up to the first failure. -/
def runPasses (config : BuildConfig) : List Pass → Graph → Result Graph
  | [], g => .ok g
  | p :: ps, g =>
    match p.run config g with
    | (g', .ok _) => runPasses config ps g'
    | (_, .error e) => .error e

/-- The passes by stage; those of one stage stay in order. -/
def byStage (ps : List Pass) : List Pass :=
  Stage.all.flatMap fun stage => ps.filter (·.stage = stage)

theorem mem_byStage {p : Pass} {ps : List Pass} : p ∈ byStage ps ↔ p ∈ ps := by
  simp only [byStage, List.mem_flatMap, List.mem_filter, decide_eq_true_eq]
  constructor
  · rintro ⟨_, _, h, _⟩
    exact h
  · intro h
    exact ⟨p.stage, by cases p.stage <;> simp [Stage.all], h, rfl⟩

end BufferFusion
