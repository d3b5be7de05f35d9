import BufferFusion.Report.Drawing
import BufferFusion.Report.Text
import BufferFusion.Trial

/-!
# The command line

Lists, inspects, draws and runs the scenarios. Everything up to the saving of a drawing is decided
here; only the saving itself is left to the caller.
-/
namespace BufferFusion

structure DrawOptions where
  scenario : String
  /-- The file to save to, instead of standard output. -/
  output : Option String
  config : BuildConfig

structure RunOptions where
  scenario : String
  seed : Nat
  /-- Also run unfused and report the largest difference. -/
  compare : Bool
  config : BuildConfig

inductive Command where
  | list
  | inspect (scenario : String) (config : BuildConfig)
  | draw (options : DrawOptions)
  | run (options : RunOptions)
  | version
  | help

namespace Arguments

/-- An option with a value. -/
structure Valued where
  long : String
  short : Option Char
  /-- Which values it takes. -/
  accepts : String → Bool

/-- What a command takes: how many arguments by place, and which options. -/
structure Spec where
  places : Nat
  flags : List String
  valued : List Valued

structure Parsed where
  positional : List String
  flags : List String
  values : List (String × String)

/-- A value that stands by itself does not begin like an option. -/
def looksLikeValue (s : String) : Bool := !s.startsWith "-" || s == "-"

/-- Splits `name=value`. -/
def splitAssignment (s : String) : String × Option String :=
  match s.splitOn "=" with
  | name :: v :: vs => (name, some ("=".intercalate (v :: vs)))
  | _ => (s, none)

inductive Outcome where
  | parsed (p : Parsed)
  | help
  | refused

/-- An option takes one value, which is judged where it stands: a later `--help` does not excuse
it. -/
def addValue (p : Parsed) (option : Valued) (value : String) : Option Parsed :=
  if option.accepts value && (p.values.lookup option.long).isNone then
    some { p with values := (option.long, value) :: p.values }
  else none

/-- Reads one argument. The value of an option may be the next one, so the answer also says how
many arguments of `rest` are used up; `none` is a refusal. -/
def readOption (spec : Spec) (p : Parsed) (arg : String) (rest : List String) :
    Option (Parsed × Nat) :=
  let (name, attached) :=
    if arg.startsWith "--" then splitAssignment arg
    else
      let value := (arg.drop 2).toString
      ((arg.take 2).toString,
        if value.isEmpty then none
        else some (if value.startsWith "=" then (value.drop 1).toString else value))
  let option := spec.valued.find? fun o =>
    name == o.long || o.short.any fun c => name == String.ofList ['-', c]
  match option, attached, rest with
  | some o, some value, _ => (addValue p o value).map fun p => (p, 0)
  | some o, none, value :: _ =>
    if looksLikeValue value then (addValue p o value).map fun p => (p, 1) else none
  | some _, none, [] => none
  | none, some _, _ => none
  | none, none, _ =>
    if spec.flags.contains name && !p.flags.contains name then
      some ({ p with flags := name :: p.flags }, 0)
    else none

/-- Letters may stand together, so what follows an `h` does not count. -/
def asksForHelp (arg : String) : Bool := arg == "--help" || arg.startsWith "-h"

def asksForVersion (arg : String) : Bool := arg == "--version" || arg.startsWith "-V"

/-- Takes arguments by place, as long as there is a place. -/
def addPlaces (spec : Spec) (p : Parsed) (args : List String) : Option Parsed :=
  let positional := p.positional ++ args
  if positional.length ≤ spec.places then some { p with positional } else none

/-- Reads arguments from the left; `skip` of them are values that were read before. -/
def read (spec : Spec) : Nat → Parsed → List String → Outcome
  | _, p, [] => .parsed p
  | skip + 1, p, _ :: rest => read spec skip p rest
  | 0, p, arg :: rest =>
    if arg = "--" then
      match addPlaces spec p rest with
      | some p' => .parsed p'
      | none => .refused
    else if asksForHelp arg then .help
    else if looksLikeValue arg then
      match addPlaces spec p [arg] with
      | some p' => read spec 0 p' rest
      | none => .refused
    else
      match readOption spec p arg rest with
      | some (p', used) => read spec used p' rest
      | none => .refused

def buildFlags : List String := ["--no-optimize", "--static-shapes", "--keep-identities"]

def config (p : Parsed) : BuildConfig where
  optimize := !p.flags.contains "--no-optimize"
  allowDynamic := !p.flags.contains "--static-shapes"
  removeIdentities := !p.flags.contains "--keep-identities"

/-- A decimal word, which may have a plus sign. -/
def seed? (s : String) : Option Nat :=
  let digits := if s.startsWith "+" then s.toList.tail else s.toList
  if digits.isEmpty || digits.any (!·.isDigit) then none
  else
    let n := digits.foldl (fun n c => 10 * n + (c.toNat - '0'.toNat)) 0
    if n < Size.limit then some n else none

def seed : Valued := ⟨"--seed", none, fun value => (seed? value).isSome⟩

def output : Valued := ⟨"--output", some 'o', fun value => !value.isEmpty⟩

/-- The command of a parse that has one scenario. -/
def withScenario (o : Outcome) (f : Parsed → String → Option Command) : Option Command :=
  match o with
  | .refused => none
  | .help => some .help
  | .parsed p =>
    match p.positional with
    | [scenario] => f p scenario
    | _ => none

def start : Parsed := ⟨[], [], []⟩

def list (args : List String) : Option Command :=
  match read ⟨0, [], []⟩ 0 start args with
  | .parsed _ => some .list
  | .help => some .help
  | .refused => none

def inspect (args : List String) : Option Command :=
  withScenario (read ⟨1, buildFlags, []⟩ 0 start args) fun p scenario =>
    some (.inspect scenario (config p))

def draw (args : List String) : Option Command :=
  withScenario (read ⟨1, buildFlags, [output]⟩ 0 start args) fun p scenario =>
    some (.draw { scenario, output := p.values.lookup output.long, config := config p })

def run (args : List String) : Option Command :=
  withScenario (read ⟨1, "--compare" :: buildFlags, [seed]⟩ 0 start args) fun p scenario =>
    some (.run
      { scenario
        seed := ((p.values.lookup seed.long).bind seed?).getD 0
        compare := p.flags.contains "--compare"
        config := config p })

/-- Help is asked for by a path of commands, and no command has commands of its own. -/
def helpOn : List String → Option Command
  | [] => some .help
  | [topic] =>
    if ["list", "inspect", "dot", "run", "help"].contains topic then some .help else none
  | _ => none

end Arguments

/-- The command that arguments ask for; `none` where they are wrong. -/
def Command.parse? : List String → Option Command
  | "list" :: args => Arguments.list args
  | "inspect" :: args => Arguments.inspect args
  | "dot" :: args => Arguments.draw args
  | "run" :: args => Arguments.run args
  | "help" :: args => Arguments.helpOn args
  | arg :: _ =>
    if Arguments.asksForVersion arg then some .version
    else if Arguments.asksForHelp arg then some .help
    else none
  | [] => none

/-- What a command leaves behind. -/
structure CommandResult where
  code : Nat
  stdout : String
  stderr : String
  deriving DecidableEq, Repr, Inhabited

inductive CommandStep where
  | done (result : CommandResult)
  /-- A drawing is left to be saved. -/
  | save (path contents : String)

namespace Command

def succeed (stdout : String) : CommandResult := ⟨0, stdout, ""⟩

/-- Fails with a message and its causes, after some output. -/
def fail (stdout : String) (chain : List String) : CommandResult :=
  let causes := chain.tail
  let listed :=
    if causes.length = 1 then causes.map ("    " ++ ·)
    else causes.mapIdx fun i c => "    " ++ toString i ++ ": " ++ c
  let below := if causes.isEmpty then "" else "\n\nCaused by:\n" ++ "\n".intercalate listed
  ⟨1, stdout, "Error: " ++ chain.headD "" ++ below ++ "\n"⟩

def usage : String :=
  "Buffer fusing for tensor dataflow graphs\n\nUsage: weld <COMMAND>\n\nCommands:\n" ++
    "  list     List the built-in scenarios\n" ++
    "  inspect  Show per-node layouts, fusion states and buffer groups\n" ++
    "  dot      Generate a Graphviz DOT file of the fused graph\n" ++
    "  run      Execute a scenario on random inputs\n" ++
    "  help     Print this message or the help of the given subcommand(s)\n\n" ++
    "Options:\n  -h, --help     Print help\n  -V, --version  Print version\n"

def unknownScenario (name : String) : CommandResult :=
  fail "" ["Unknown scenario " ++ Text.quoted name ++ " (known: " ++
    ", ".intercalate (Scenario.catalog.map (·.name)) ++ ")"]

def listLine (s : Scenario) : String := Report.column 24 s.name ++ " " ++ s.description ++ "\n"

def listText : String := String.join (Scenario.catalog.map listLine)

/-- Looks a scenario up and compiles it. -/
def compiled (name : String) (config : BuildConfig) (f : Scenario → Program → CommandStep) :
    CommandStep :=
  match Scenario.find? name with
  | none => .done (unknownScenario name)
  | some s =>
    match Trial.compile s config with
    | .error e => .done (fail "" e.chain)
    | .ok p => f s p

def inspection (s : Scenario) (p : Program) : String :=
  "Scenario: " ++ s.name ++ " - " ++ s.description ++ "\n\n" ++ Report.program p

/-- The most that fused outputs may differ from unfused ones. -/
def tolerance : Float := Float.ofScientific 1 true 5

def runComparison (s : Scenario) (o : RunOptions) (report : String) : CommandResult :=
  match Trial.compare s o.config o.seed with
  | .error e => fail report e.chain
  | .ok d =>
    let stdout :=
      report ++ "Max difference to unfused run: " ++ Decimal.text Decimal.measure d ++ "\n"
    if d ≤ tolerance then succeed stdout else fail stdout (TrialError.differ d).chain

def runScenario (o : RunOptions) : CommandResult :=
  match Scenario.find? o.scenario with
  | none => unknownScenario o.scenario
  | some s =>
    match Trial.run s o.config o.seed with
    | .error e => fail "" e.chain
    | .ok (w, outputs) =>
      match Report.execution w outputs with
      | .error e => fail "" (TrialError.reading e).chain
      | .ok report => if o.compare then runComparison s o report else succeed report

def perform : Command → CommandStep
  | list => .done (succeed listText)
  | inspect name config => compiled name config fun s p => .done (succeed (inspection s p))
  | draw o => compiled o.scenario o.config fun _ p =>
    let drawing := Drawing.ofGraph p.graph
    match o.output with
    | some path => .save path drawing
    | none => .done (succeed drawing)
  | run o => .done (runScenario o)
  | version => .done (succeed "weld 0.1.0\n")
  | help => .done (succeed usage)

def saved (path : String) : CommandResult := ⟨0, "", "Wrote DOT output to " ++ path ++ "\n"⟩

def notSaved (path reason : String) : CommandResult :=
  fail "" ["Failed to write DOT to " ++ path, reason]

def refused : CommandResult := ⟨2, "", usage⟩

/-- What the program does with its arguments. -/
def ofArguments (args : List String) : CommandStep :=
  match parse? args with
  | some c => c.perform
  | none => .done refused

end Command
end BufferFusion
