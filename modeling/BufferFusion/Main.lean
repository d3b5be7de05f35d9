import BufferFusion.Command

/-!
# The program

Hands the arguments to the command line and does what it leaves to be done.
-/
namespace BufferFusion

/-- Prints what a command leaves behind; the answer is the exit code. -/
def CommandResult.emit (r : CommandResult) : IO UInt32 := do
  IO.print r.stdout
  IO.eprint r.stderr
  return UInt32.ofNat r.code

/-- What kept a file from being written, in the system's own words where it gives any. -/
def writeFailure : IO.Error → String
  | .noFileOrDirectory _ code details | .permissionDenied _ code details
  | .inappropriateType _ code details | .invalidArgument _ code details
  | .resourceExhausted _ code details | .noSuchThing _ code details
  | .alreadyExists _ code details | .interrupted _ code details
  | .otherError code details | .resourceBusy code details | .resourceVanished code details
  | .unsupportedOperation code details | .hardwareFault code details
  | .unsatisfiedConstraints code details | .illegalOperation code details
  | .protocolError code details | .timeExpired code details =>
    details ++ " (os error " ++ toString code ++ ")"
  | e => toString e

end BufferFusion

open BufferFusion

def main (args : List String) : IO UInt32 := do
  match Command.ofArguments args with
  | .done r => r.emit
  | .save path contents =>
    try
      IO.FS.writeFile path contents
      (Command.saved path).emit
    catch e => (Command.notSaved path (writeFailure e)).emit
