import BufferFusion.Pass.Basic
import BufferFusion.Inference.Table

/-!
# Inferring shapes

Every node gets its layout. Where dynamic shapes are not allowed, one that is left is an error.
-/
namespace BufferFusion.Pass

/-- No inferred layout has an unknown dim. -/
def checkStatic (g : Graph) : Result Unit :=
  match g.nodes.find? fun n => n.layout.any (!·.isStatic) with
  | some n => .error (.dynamicShape n.name ((n.layout.map (·.shape)).getD ⟨[]⟩))
  | none => .ok ()

def runInference (t : InferenceTable) (config : BuildConfig) (g : Graph) : Graph × Result Bool :=
  let (g', r) := t.inferGraph [] g
  (g', do
    let changed ← r
    if config.allowDynamic = false then checkStatic g'
    return changed)

def inference (t : InferenceTable) : Pass := ⟨"shape_inference", .inference, runInference t⟩

end BufferFusion.Pass
