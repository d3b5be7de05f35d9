import BufferFusion.Graph.Build
import BufferFusion.Tensor

/-!
# Scenarios

Built-in graphs that show each way of fusing, with sample inputs for one execution.
-/
namespace BufferFusion

structure Scenario where
  name : String
  description : String
  graph : Result Graph
  /-- Inputs drawn from a seed. -/
  inputs : Nat → Result (List (String × Tensor))

namespace Scenario

/-- Building a graph step by step. -/
abbrev Build := StateT Graph Result

def node (name : String) (op : Operation) (inputs : List NodeId) : Build NodeId := fun g => do
  let (g', id) ← g.add name op inputs
  return (id, g')

def windows (name : String) (input : NodeId) (axis : Nat) (sizes : List Nat) :
    Build (List NodeId) := fun g =>
  match g.split name input axis sizes with
  | (g', .ok ids) => .ok (ids, g')
  | (_, .error e) => .error e

def single (name : String) (dims : List Dim) : Build NodeId :=
  node name (.input (.plain ⟨dims⟩ .f32)) []

def reorderTo (name : String) (input : NodeId) (format : Format) : Build NodeId :=
  node name (.reorder format .f32) [input]

def built (b : Build Unit) : Result Graph := do return (← b.run .empty).2

/-- A tensor of halves between -10 and 10, different for each seed. -/
def sample (seed : Nat) (sizes : List Nat) : Result Tensor :=
  let count := sizes.foldl (· * ·) 1
  let lane := fun i => (Float.ofNat ((seed + 17 * i + i * i) % 40) - 20) / 2
  Tensor.ofLanes ((List.range count).map lane) sizes .f32

def permuteReshape : Build Unit := do
  let input ← single "input" (List.replicate 4 .unknown)
  let pattern ← node "pattern" (.input (.plain (.unknowns 1) .i64)) []
  let first ← node "permute1" (.permute [0, 2, 3, 1]) [input]
  let reshaped ← node "reshape" (.reshape (.fromInput 4) false) [first, pattern]
  let second ← node "permute2" (.permute [0, 3, 2, 1]) [reshaped]
  let _ ← reorderTo "reorder" second .bfyx

def connectedAfterReshape : Build Unit := do
  let input ← single "input" [.known 1, .known 2, .unknown]
  let weights ← node "weights"
    (.constant (.plain (.ofSizes [2, 4]) .f32) (List.replicate 8 1)) []
  let permuted ← node "permute1" (.permute [0, 2, 1]) [input]
  let reshaped ← node "reshape" (.reshape (.pattern [2, 4]) false) [permuted]
  let connected ← node "fc" .fullyConnected [reshaped, weights]
  let _ ← reorderTo "reorder" connected .bfyx

def splitConcat : Build Unit := do
  let input ← single "input" ([1, 4, 3, 3].map .known)
  let crops ← windows "split" input 1 [2, 2]
  let reordered ← (List.range crops.length).zip crops |>.mapM fun (i, crop) =>
    reorderTo ("crop_" ++ toString i ++ "_reorder") crop .bfzyx
  let joined ← node "concat" (.concatenation 1) reordered
  let _ ← reorderTo "output" joined .bfyx

def inPlaceConcat (dynamic : Bool) : Build Unit := do
  let dims := fun sizes : List Nat => sizes.map fun n => if dynamic then .unknown else Dim.known n
  let input1 ← single "input1" (dims [1, 2, 3, 4])
  let input2 ← single "input2" (dims [1, 2, 4, 1])
  let permuted1 ← node "permute1" (.permute [0, 3, 2, 1]) [input1]
  let permuted2 ← node "permute2" (.permute [3, 2, 0, 1]) [input2]
  let joined ← node "concat" (.concatenation 2) [permuted1, permuted2]
  let _ ← node "output" (.permute [0, 2, 3, 1]) [joined]

def blockedConcat : Build Unit := do
  let producers ← (List.range 2).mapM fun i => do
    let input ← single ("x" ++ toString i) [.known 1, .unknown, .known 2, .known 2]
    reorderTo ("to_blocked" ++ toString i) input .blocked16
  let joined ← node "concat" (.concatenation 1) producers
  let _ ← reorderTo "output" joined .bfyx

/-- Sample tensors for the inputs of these names and sizes. -/
def samples (sizes : List (String × List Nat)) (seed : Nat) : Result (List (String × Tensor)) :=
  sizes.mapM fun (name, sizes) => do return (name, ← sample seed sizes)

def concatSizes : List (String × List Nat) :=
  [("input1", [1, 2, 3, 4]), ("input2", [1, 2, 4, 1])]

def catalog : List Scenario :=
  [{ name := "permute-reshape"
     description := "permute, reshape with a runtime pattern, permute, reorder"
     graph := built permuteReshape
     inputs := fun seed => do
      let pattern ← Tensor.ofElements .i64 [1, 4, 1, -1] [4]
      return [("input", ← sample seed [1, 2, 2, 4]), ("pattern", pattern)] },
   { name := "fc-after-reshape"
     description := "fully connected layer after a reshape of a partially known shape"
     graph := built connectedAfterReshape
     inputs := samples [("input", [1, 2, 4])] },
   { name := "split-concat"
     description := "split into crops, reorder each, concatenate back"
     graph := built splitConcat
     inputs := samples [("input", [1, 4, 3, 3])] },
   { name := "in-place-concat"
     description := "two permuted inputs concatenated in place"
     graph := built (inPlaceConcat false)
     inputs := samples concatSizes },
   { name := "in-place-concat-dynamic"
     description := "in-place concatenation declared with unknown shapes"
     graph := built (inPlaceConcat true)
     inputs := samples concatSizes },
   { name := "blocked-concat"
     description := "blocked-format concatenation that revalidation must demote"
     graph := built blockedConcat
     inputs := samples [("x0", [1, 3, 2, 2]), ("x1", [1, 5, 2, 2])] },
   { name := "blocked-concat-aligned"
     description := "blocked-format concatenation with block-aligned slices"
     graph := built blockedConcat
     inputs := samples [("x0", [1, 16, 2, 2]), ("x1", [1, 5, 2, 2])] }]

def find? (name : String) : Option Scenario := catalog.find? (·.name == name)

end Scenario
end BufferFusion
