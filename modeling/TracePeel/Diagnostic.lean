import TracePeel.Optimize.OptError
import TracePeel.Source.ParseError

/-! Reports of failures.

A report names the part of the program that failed, a code, a stage and a message,
and may point into the text, list what it passed through on its way, give hints,
and hold the reports of which it is the sum. Every error of the library has one. -/
namespace TracePeel

inductive Code where
  /-- An unexpected token. -/
  | e0001
  /-- An unknown operation. -/
  | e0002
  /-- An undefined box. -/
  | e1001
  /-- A box defined twice. -/
  | e1002
  /-- A kind that does not fit. -/
  | e1003
  /-- A loop that cannot be optimized. -/
  | e2001
  /-- A list that is not well formed. -/
  | e3001
  /-- An internal error: the loop is given up and goes on being interpreted. -/
  | ice9001
  deriving Repr, DecidableEq

namespace Code

def all : List Code :=
  [e0001, e0002, e1001, e1002, e1003, e2001, e3001, ice9001]

def text : Code → String
  | e0001 => "E0001"
  | e0002 => "E0002"
  | e1001 => "E1001"
  | e1002 => "E1002"
  | e1003 => "E1003"
  | e2001 => "E2001"
  | e3001 => "E3001"
  | ice9001 => "ICE9001"

def isInternal (c : Code) : Bool :=
  c == ice9001

end Code

/-- Where in the work a failure arose. -/
inductive Phase where
  | lex
  | parse
  | opt
  | unroll
  | verify
  deriving Repr, DecidableEq

namespace Phase

def all : List Phase :=
  [lex, parse, opt, unroll, verify]

def text : Phase → String
  | lex => "Lex"
  | parse => "Parse"
  | opt => "Opt"
  | unroll => "Unroll"
  | verify => "Verify"

end Phase

structure Diagnostic where
  module : String
  code : Code
  phase : Phase
  message : String
  span : Option Span := none
  /-- What the failure passed through, the innermost first. -/
  frames : List (String × Option Span) := []
  notes : List String := []
  related : List Diagnostic := []

namespace Diagnostic

/-- The report on one line. -/
def text (d : Diagnostic) : String :=
  s!"({d.module}) error[{d.code.text}]: {d.message}"

/-- An internal error. -/
def internal (phase : Phase) (message : String) : Diagnostic :=
  { module := "TJ.ICE", code := .ice9001, phase, message }

end Diagnostic

def ParseCause.code : ParseCause → Code
  | unknownOpcode _ => .e0002
  | undefinedBox _ => .e1001
  | redefinedBox _ => .e1002
  | badBoxName _ | wrongKind _ _ _ _ => .e1003
  | _ => .e0001

/-- A piece of text that is no token is a failure of another part than the rest. -/
def ParseCause.origin : ParseCause → String × Phase
  | lexical _ => ("TJ.LexError", .lex)
  | _ => ("TJ.ParseError", .parse)

def ParseError.diagnostic (e : ParseError) : Diagnostic :=
  let (module, phase) := e.cause.origin
  { module, code := e.cause.code, phase, message := e.cause.message, span := some e.span }

def ParseFailure.diagnostic : ParseFailure → Diagnostic
  | one e => e.diagnostic
  | several errors =>
    { module := "TJ.ParseError"
      code := .e0001
      phase := .parse
      message := s!"{errors.length} operations failed to parse"
      related := errors.map (·.diagnostic) }

/-- The report of a cause alone. -/
def OptCause.diagnostic (c : OptCause) : Diagnostic :=
  match c with
  | tooLong _ _ =>
    { module := "TJ.OptError", code := .e2001, phase := .opt, message := c.message
      notes := ["raise TJ_MAX_TRACE_OPS to optimize longer traces"] }
  | malformed _ =>
    { module := "TJ.VerifyError", code := .e3001, phase := .verify, message := c.message }
  | alwaysFails _ _ | neverEqual _ _ | neverOfClass _ _ =>
    { module := "TJ.OptError", code := .e2001, phase := .opt, message := c.message }
  | jumpArity _ _ | noNextValue _ | emptyBody | bodyEnd _ => .internal .unroll c.message
  | missingPass _ | reenteredPass _ => .internal .opt c.message
  | invalidResult _ _ => .internal .verify c.message

def OptError.diagnostic (e : OptError) : Diagnostic :=
  {e.cause.diagnostic with frames := e.passes.map fun p => (p.name, none)}

end TracePeel
