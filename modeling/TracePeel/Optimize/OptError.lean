import TracePeel.Verify

/-! Why a loop is given up.

A loop is refused when it is too long, malformed, or holds a guard known to fail;
the other causes say that an optimizer's own bookkeeping failed. On its way out of
the chain an error collects the passes it leaves. -/
namespace TracePeel

/-- The passes an operation goes through, each handing on what it keeps. -/
inductive Pass where
  | peel
  | rewrite
  | virtualize
  deriving Repr, DecidableEq

/-- The name of a pass in reports. -/
def Pass.name : Pass → String
  | peel => "unroll"
  | rewrite => "rewrite"
  | virtualize => "virtualize"

inductive OptCause where
  | tooLong (ops limit : Nat)
  | malformed (error : VerifyError)
  /-- A guard whose test is known to fail. -/
  | alwaysFails (opcode : Opcode) (operand : Operand)
  | neverEqual (wanted actual : Const)
  | neverOfClass (wanted actual : Const)
  /-- The jump back and the inputs differ in number. -/
  | jumpArity (args inputs : Nat)
  | noNextValue (b : Box)
  | emptyBody
  | bodyEnd (opcode : Opcode)
  | missingPass (stage : Nat)
  | reenteredPass (stage : Nat)
  /-- The result is not well formed. -/
  | invalidResult (error : VerifyError) (loop : String)
  deriving Repr, DecidableEq

def OptCause.message : OptCause → String
  | tooLong ops limit => s!"trace has {ops} operations, the limit is {limit}"
  | malformed error => s!"malformed input trace: {error.message}"
  | alwaysFails opcode operand => s!"{opcode.name}({operand.text}) always fails"
  | neverEqual wanted actual =>
    s!"guard_value expects {wanted.text} but the value is always {actual.text}"
  | neverOfClass wanted actual =>
    s!"guard_class expects {wanted.text} but the class is always {actual.text}"
  | jumpArity args inputs =>
    s!"jump carries {args} arguments but the loop has {inputs} inputs"
  | noNextValue b => s!"{b.name} has no value in the next iteration"
  | emptyBody => "peeled body is empty"
  | bodyEnd opcode => s!"peeled body ends in {opcode.name} instead of a jump"
  | missingPass stage => s!"pass #{stage} missing at setup"
  | reenteredPass stage => s!"pass #{stage} re-entered while it was running"
  | invalidResult error loop =>
    s!"Trace Verification Failed at End: {error.message}\nLoop: {loop}"

/-- A cause and the passes it came out of, the innermost first. -/
structure OptError where
  cause : OptCause
  passes : List Pass := []
  deriving Repr, DecidableEq

/-- The error after it left one more pass. -/
def OptError.leaving (e : OptError) (p : Pass) : OptError :=
  {e with passes := e.passes ++ [p]}

end TracePeel
