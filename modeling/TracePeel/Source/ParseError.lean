import TracePeel.Opcode
import TracePeel.Source.Token

/-! Why a text is no trace.

Each cause is found at a span of the text. The header stops the reading at its
first error; operations are read line after line, and all of their errors are
reported together. -/
namespace TracePeel

inductive ParseCause where
  /-- A piece of text that is no token. -/
  | lexical (reason : LexError)
  | expected (wanted got : Token)
  | expectedName (got : Token)
  | expectedOperand (got : Token)
  | badAddress (got : Token)
  | unknownOpcode (name : String)
  | undefinedBox (name : String)
  | redefinedBox (name : String)
  /-- A box whose name begins with no kind's letter. -/
  | badBoxName (name : String)
  | badArity (opcode : Opcode) (wanted got : Nat)
  | missingField (opcode : Opcode)
  | unwantedResult (opcode : Opcode)
  | missingResult (opcode : Opcode)
  | wrongKind (opcode : Opcode) (produced : Kind) (name : String) (got : Kind)
  deriving Repr, DecidableEq

def ParseCause.message : ParseCause → String
  | lexical reason => reason.message
  | expected wanted got => s!"Expected {wanted.text}, got {got.text}"
  | expectedName got => s!"Expected a name, got {got.text}"
  | expectedOperand got => s!"Expected an argument, got {got.text}"
  | badAddress got => s!"ConstPtr takes a non-negative address, got {got.text}"
  | unknownOpcode name => s!"unknown operation '{name}'"
  | undefinedBox name => s!"undefined box '{name}'"
  | redefinedBox name => s!"box '{name}' is defined twice"
  | badBoxName name => s!"box name '{name}' must start with i, p or f"
  | badArity opcode wanted got =>
    s!"{opcode.name} takes {wanted} argument(s), got {got}"
  | missingField opcode => s!"{opcode.name} needs a field descr"
  | unwantedResult opcode => s!"{opcode.name} does not produce a value"
  | missingResult opcode => s!"{opcode.name} needs a result box"
  | wrongKind opcode produced name got =>
    s!"{opcode.name} produces {produced.name} but '{name}' is {got.name}"

structure ParseError where
  cause : ParseCause
  span : Span
  deriving Repr, DecidableEq

/-- One error, or those of several operations in the order of the text. -/
inductive ParseFailure where
  | one (error : ParseError)
  | several (errors : List ParseError)
  deriving Repr, DecidableEq

end TracePeel
