import TracePeel.Cli.Program

/-! The program in the real world. -/
namespace TracePeel.Cli

/-- The words of the system for the number of an error. -/
def systemWords? : UInt32 → Option String
  | 2 => some "No such file or directory"
  | 13 => some "Permission denied"
  | 20 => some "Not a directory"
  | 21 => some "Is a directory"
  | 36 => some "File name too long"
  | _ => none

/-- An error of the system, in its own words and with its number. Some calls give
the number with its sign turned. -/
def systemMessage : IO.Error → String
  | .userError message => message
  | .noFileOrDirectory _ code text => withNumber code text
  | .permissionDenied _ code text => withNumber code text
  | .inappropriateType _ code text => withNumber code text
  | .invalidArgument _ code text => withNumber code text
  | other => toString other
where
  withNumber (code : UInt32) (text : String) : String :=
    let number := min code (0 - code)
    s!"{(systemWords? number).getD text} (os error {number})"

def readAll (path : String) : IO String := do
  let bytes ← if path = "-" then (← IO.getStdin).readBinToEnd else IO.FS.readBinFile path
  match String.fromUTF8? bytes with
  | some text => pure text
  | none => throw (IO.userError "stream did not contain valid UTF-8")

def caught {α : Type} (action : IO α) : IO (Except String α) := do
  match ← action.toBaseIO with
  | .ok a => pure (.ok a)
  | .error e => pure (.error (systemMessage e))

/-- Runs a session and gives its code. -/
def Session.perform : Session → IO Nat
  | .exit code => pure code
  | .out text next => do
    IO.print text
    next.perform
  | .err text next => do
    IO.eprint text
    next.perform
  | .read path next => do (next (← caught (readAll path))).perform
  | .write path text next => do (next (← caught (IO.FS.writeFile path text))).perform
  | .clock next => do (next (← IO.monoNanosNow)).perform

/-- The variables that the program reads. -/
def environment : IO Environment := do
  let keys := ["TJ_UNROLL", "TJ_DISABLE_REWRITE", "TJ_DISABLE_VIRTUALS", "TJ_VERIFY_EACH_PHASE",
    "TJ_MAX_TRACE_OPS", "TJ_FORCE_COLOR", "TJ_VERBOSE_LOG", "NO_COLOR"]
  keys.filterMapM fun key => do
    return (← IO.getEnv key).map fun text => (key, text)

end TracePeel.Cli

open TracePeel.Cli in
def main (args : List String) : IO UInt32 := do
  let terminal ← (← IO.getStderr).isTty
  let code ← (program (← environment) terminal args).perform
  return code.toUInt32
