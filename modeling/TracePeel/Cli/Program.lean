import TracePeel.Cli.Options
import TracePeel.Cli.Progress
import TracePeel.Cli.Session
import TracePeel.Optimize.Loop
import TracePeel.Source.Parser

/-! The program: reads a trace, optimizes it and writes the loop.

The loop goes to the output or to a file, progress and errors to the error output.
The result may be peeled again as often as is asked for; the first failure ends the
run with its report. -/
namespace TracePeel.Cli

def usage : String :=
  String.join (List.map (· ++ "\n")
    ["Usage:",
      "  tj <trace-file|-> [options]",
      "Options:",
      "  -o <file>          Write the optimized dump to <file>",
      "  --no-unroll        Do not peel the loop",
      "  --no-virtuals      Disable allocation removal",
      "  --no-rewrite       Disable folding, CSE and guard elimination",
      "  --verify           Verify input and result after every phase",
      "  --snapshots        Print guard snapshot chains",
      "  --guard-numbers    Print guard descriptors",
      "  --repeel <n>       Peel the resulting body <n> more times",
      "  --stats            Print optimizer statistics"])

def statsText (s : Stats) : String :=
  String.join (List.map (· ++ "\n")
    ["# stats",
      s!"#   ops in/out      {s.opsIn} / {s.opsOut}",
      s!"#   preamble/body   {s.preambleOps} / {s.bodyOps}",
      s!"#   loop inputs     {s.inputs} (+{s.fixupInputs} from fixup)",
      s!"#   folded          {s.folded}",
      s!"#   cse hits        {s.cseHits}",
      s!"#   guards removed  {s.guardsRemoved}",
      s!"#   virtuals        {s.virtualsCreated} created, {s.virtualsForced} forced",
      s!"#   peeled          {s.peeled}"])

/-- One run: the options, the console and the text that was read. -/
structure Run where
  options : Options
  console : Console
  source : String

namespace Run

/-- The number of steps, a 64-bit word. -/
def total (r : Run) : Nat :=
  (2 + r.options.repeel) % UInt64.size

/-- Ends the run with the report of a failure. -/
def report (r : Run) (d : Diagnostic) : Session :=
  .err (d.render r.console.colour (some r.source) (some r.options.input)) (.exit 1)

/-- A step of the work: announced, timed, and its end told. -/
def timed {α : Type} (r : Run) (index : Nat) (title detail : String)
    (work : Except Diagnostic α) (told : α → String) (next : α → Session) : Session :=
  .err (r.console.step index r.total title detail) <|
  .clock fun before =>
    match work with
    | .error d => r.report d
    | .ok a =>
      .clock fun after =>
        .err (r.console.stepDone s!"{told a} ({Console.durationText (after - before)})") (next a)

/-- A trace through the optimizer of this run. -/
def optimize (r : Run) (t : Trace) : Except Diagnostic (Loop × Stats) :=
  (r.options.config.optimize t).result.mapError (·.diagnostic)

/-- So many more rounds, each on the loop of the one before. -/
def repeel (r : Run) (next : Loop → Stats → Session) : Nat → Loop → Stats → Session
  | 0, loop, stats => next loop stats
  | left + 1, loop, stats =>
    let round := r.options.repeel - left
    r.timed (2 + round) "Re-peel" s!"round {round}" (r.optimize loop.toTrace)
      (fun (loop, _) => s!"{loop.ops.length} body ops")
      fun (loop, more) => r.repeel next left loop (stats.add more)

/-- The counts, if they are asked for, and the end of a run that began at `started`. -/
def finish (r : Run) (started : Nat) (stats : Stats) : Session :=
  .out (if r.options.stats then statsText stats else "") <|
  .clock fun now => .err (r.console.success (now - started)) (.exit 0)

/-- Writes the loop where it is wanted. -/
def deliver (r : Run) (started : Nat) (loop : Loop) (stats : Stats) : Session :=
  let text := loop.dump r.options.dump
  match r.options.output with
  | none => .out text (r.finish started stats)
  | some path =>
    .write path text fun
      | .ok () => r.finish started stats
      | .error reason =>
        .err (r.console.error s!"Failed to write output file '{path}': {reason}") (.exit 1)

/-- The work on a text that was read. -/
def session (r : Run) : Session :=
  .err (r.console.banner r.options.input) <|
  .clock fun started =>
    r.timed 1 "Parse" r.options.input
      ((Trace.parse r.source).mapError (·.diagnostic))
      (fun t => s!"{t.inputs.length} inputs, {t.ops.length} ops")
      fun t =>
        r.timed 2 "Optimize" (if r.options.config.peel then "peel" else "no peel")
          (r.optimize t)
          (fun (_, stats) => s!"{stats.opsIn} -> {stats.opsOut} ops")
          fun (loop, stats) => r.repeel (r.deliver started) r.options.repeel loop stats

end Run

/-- The program with its arguments, in an environment. -/
def program (e : Environment) (terminal : Bool) (args : List String) : Session :=
  let console : Console := ⟨e.colour terminal, terminal || e.isSet "TJ_VERBOSE_LOG"⟩
  match args with
  | [] => .err usage (.exit 1)
  | _ =>
    match ({ config := .ofEnvironment e } : Options).read args with
    | .error u => .err (console.error u.message ++ usage) (.exit 1)
    | .ok options =>
      .read options.input fun
        | .error reason =>
          .err (console.error s!"Failed to read input file '{options.input}': {reason}")
            (.exit 1)
        | .ok source => ({ options, console, source } : Run).session

end TracePeel.Cli
