import BufferFusion.Network
import BufferFusion.Decimal
import BufferFusion.Scenario

/-!
# Trials

A trial compiles a scenario and runs it on sample inputs. Two trials, one without fusion, tell
whether fusing changed the outputs.
-/
namespace BufferFusion

/-- What stopped a trial, with what was being done. -/
inductive TrialError where
  | building (scenario : String) (cause : Error)
  | compiling (scenario : String) (cause : Error)
  | binding (input : String) (cause : Error)
  | executing (scenario : String) (cause : Error)
  | reading (cause : Error)
  | missingOutput (name : String)
  | outputCount (name : String) (fused unfused : Nat)
  | differ (difference : Float)

/-- The message and its causes, the outermost first. -/
def TrialError.chain : TrialError → List String
  | building s e => ["Failed to build scenario " ++ Text.quoted s, e.message]
  | compiling s e => ["Failed to compile scenario " ++ Text.quoted s, e.message]
  | binding i e => ["Failed to bind input " ++ Text.quoted i, e.message]
  | executing s e => ["Failed to execute scenario " ++ Text.quoted s, e.message]
  | reading e => [e.message]
  | missingOutput name => ["Unfused run has no output " ++ Text.quoted name]
  | outputCount name a b =>
    ["Output " ++ Text.quoted name ++ " has " ++ toString a ++ " values, unfused has " ++
      toString b]
  | differ d => ["Fused and unfused outputs differ by " ++ Decimal.text Decimal.measure d]

namespace Trial

abbrev Attempt := Except TrialError

def compile (s : Scenario) (config : BuildConfig) : Attempt Program := do
  let g ← s.graph.mapError (.building s.name)
  (Program.build config g).mapError (.compiling s.name)

def bindAll (w : Network) : List (String × Tensor) → Attempt Network
  | [] => .ok w
  | (name, t) :: rest => do
    let w' ← (w.setInput name t).mapError (.binding name)
    bindAll w' rest

/-- Compiles a scenario and executes it on the inputs drawn from a seed. -/
def run (s : Scenario) (config : BuildConfig) (seed : Nat) : Attempt (Network × List Output) := do
  let p ← compile s config
  let inputs ← (s.inputs seed).mapError .reading
  let w ← bindAll (.ofProgram p) inputs
  match w.execute with
  | (w', .ok outputs) => return (w', outputs)
  | (_, .error e) => .error (.executing s.name e)

/-- The largest distance between two lists of lanes, at least `start`; where there is no number
there is no distance. -/
def distance (start : Float) (xs ys : List Float) : Float :=
  (List.zipWith (fun x y => (x - y).abs) xs ys).foldl (fun m d => if m < d then d else m) start

/-- The largest difference between outputs and those of an unfused run. -/
def difference (unfused : List Output) : Float → List Output → Attempt Float
  | d, [] => .ok d
  | d, o :: outputs => do
    match unfused.find? (·.name == o.name) with
    | none => .error (.missingOutput o.name)
    | some reference =>
      let actual ← o.lanes.mapError .reading
      let expected ← reference.lanes.mapError .reading
      if actual.length ≠ expected.length then
        .error (.outputCount o.name actual.length expected.length)
      else difference unfused (distance d actual expected) outputs

def compare (s : Scenario) (config : BuildConfig) (seed : Nat) : Attempt Float := do
  let (_, fused) ← run s config seed
  let (_, unfused) ← run s { config with optimize := false } seed
  difference unfused 0 fused

end Trial
end BufferFusion
