import TracePeel.Dump
import TracePeel.Environment

/-! The command line.

Options change the settings that the environment gives; what is no option names
the trace, and of several names the last counts. -/
namespace TracePeel.Cli

structure Options where
  input : String := ""
  output : Option String := none
  config : Config
  dump : DumpOptions := {}
  /-- How many more times the resulting loop is peeled. -/
  repeel : Nat := 0
  stats : Bool := false

inductive UsageError where
  | missingOutput
  | missingCount
  | badCount (text : String)
  | unknownOption (text : String)
  | missingInput
  deriving Repr, DecidableEq

def UsageError.message : UsageError → String
  | missingOutput => "Missing output file after -o"
  | missingCount => "Missing count after --repeel"
  | badCount text => s!"Invalid --repeel count '{text}'"
  | unknownOption text => s!"Unknown option '{text}'"
  | missingInput => "Missing input trace"

/-- The options after those already read. -/
def Options.read (o : Options) : List String → Except UsageError Options
  | [] => if o.input.isEmpty then .error .missingInput else .ok o
  | ["-o"] => .error .missingOutput
  | ["--repeel"] => .error .missingCount
  | "-o" :: path :: rest => {o with output := some path}.read rest
  | "--repeel" :: text :: rest =>
    match readSize? text with
    | some n => {o with repeel := n}.read rest
    | none => .error (.badCount text)
  | "--no-unroll" :: rest => {o with config := {o.config with peel := false}}.read rest
  | "--no-virtuals" :: rest => {o with config := {o.config with virtualize := false}}.read rest
  | "--no-rewrite" :: rest => {o with config := {o.config with rewrite := false}}.read rest
  | "--verify" :: rest => {o with config := {o.config with verify := true}}.read rest
  | "--snapshots" :: rest => {o with dump := {o.dump with snapshots := true}}.read rest
  | "--guard-numbers" :: rest => {o with dump := {o.dump with guardNumbers := true}}.read rest
  | "--stats" :: rest => {o with stats := true}.read rest
  | arg :: rest =>
    if arg ≠ "-" ∧ arg.startsWith "-" then .error (.unknownOption arg)
    else {o with input := arg}.read rest

end TracePeel.Cli
