import TracePeel.Operand

/-! The operations of a trace and what is known of each.

The tables say how many operands an operation takes, what it produces, and what
an optimizer may do with it: an always-pure operation depends on its operands
alone, a guard leaves the loop when its test fails, a final operation ends the
list. -/
namespace TracePeel

inductive Opcode where
  | intAdd | intSub | intMul | intAnd | intOr | intXor | intLshift | intRshift
  | intLt | intLe | intEq | intNe | intGt | intGe | intNeg | intIsTrue
  | floatAdd | floatSub | floatMul | floatNeg | floatLt
  | sameAs | arraylenGc | getfieldGcPure | callPure
  | guardTrue | guardFalse | guardValue | guardNonnull | guardIsnull | guardClass
  | guardNoException
  | new | getfieldGc | setfieldGc | call
  | debugMergePoint | jump | finish
  deriving Repr, DecidableEq

namespace Opcode

/-- Every operation, in the order of the tables. -/
def all : List Opcode :=
  [intAdd, intSub, intMul, intAnd, intOr, intXor, intLshift, intRshift,
    intLt, intLe, intEq, intNe, intGt, intGe, intNeg, intIsTrue,
    floatAdd, floatSub, floatMul, floatNeg, floatLt,
    sameAs, arraylenGc, getfieldGcPure, callPure,
    guardTrue, guardFalse, guardValue, guardNonnull, guardIsnull, guardClass,
    guardNoException,
    new, getfieldGc, setfieldGc, call,
    debugMergePoint, jump, finish]

/-- The words of the name. -/
def words : Opcode → List String
  | intAdd => ["int", "add"]
  | intSub => ["int", "sub"]
  | intMul => ["int", "mul"]
  | intAnd => ["int", "and"]
  | intOr => ["int", "or"]
  | intXor => ["int", "xor"]
  | intLshift => ["int", "lshift"]
  | intRshift => ["int", "rshift"]
  | intLt => ["int", "lt"]
  | intLe => ["int", "le"]
  | intEq => ["int", "eq"]
  | intNe => ["int", "ne"]
  | intGt => ["int", "gt"]
  | intGe => ["int", "ge"]
  | intNeg => ["int", "neg"]
  | intIsTrue => ["int", "is", "true"]
  | floatAdd => ["float", "add"]
  | floatSub => ["float", "sub"]
  | floatMul => ["float", "mul"]
  | floatNeg => ["float", "neg"]
  | floatLt => ["float", "lt"]
  | sameAs => ["same", "as"]
  | arraylenGc => ["arraylen", "gc"]
  | getfieldGcPure => ["getfield", "gc", "pure"]
  | callPure => ["call", "pure"]
  | guardTrue => ["guard", "true"]
  | guardFalse => ["guard", "false"]
  | guardValue => ["guard", "value"]
  | guardNonnull => ["guard", "nonnull"]
  | guardIsnull => ["guard", "isnull"]
  | guardClass => ["guard", "class"]
  | guardNoException => ["guard", "no", "exception"]
  | new => ["new"]
  | getfieldGc => ["getfield", "gc"]
  | setfieldGc => ["setfield", "gc"]
  | call => ["call"]
  | debugMergePoint => ["debug", "merge", "point"]
  | jump => ["jump"]
  | finish => ["finish"]

/-- The name in traces: the words in lower case, joined by underscores. -/
def name (o : Opcode) : String :=
  "_".intercalate o.words

/-- The name as one word, each part capitalized. -/
def camelName (o : Opcode) : String :=
  String.join (o.words.map String.capitalize)

def ofName? (name : String) : Option Opcode :=
  all.find? (·.name == name)

/-- How many operands the operation takes; `none` when it takes any number. -/
def arity? : Opcode → Option Nat
  | intNeg | intIsTrue | floatNeg | sameAs | arraylenGc | getfieldGcPure | getfieldGc
  | guardTrue | guardFalse | guardNonnull | guardIsnull => some 1
  | new | guardNoException => some 0
  | callPure | call | debugMergePoint | jump | finish => none
  | _ => some 2

/-- The kind of what it produces, where the operation fixes it. -/
def resultKind? : Opcode → Option Kind
  | intAdd | intSub | intMul | intAnd | intOr | intXor | intLshift | intRshift
  | intLt | intLe | intEq | intNe | intGt | intGe | intNeg | intIsTrue
  | floatLt | arraylenGc => some .int
  | floatAdd | floatSub | floatMul | floatNeg => some .float
  | new => some .ref
  | _ => none

def isGuard : Opcode → Bool
  | guardTrue | guardFalse | guardValue | guardNonnull | guardIsnull | guardClass
  | guardNoException => true
  | _ => false

/-- Whether it can produce a value. -/
def hasResult (o : Opcode) : Bool :=
  !o.isGuard && match o with
    | setfieldGc | debugMergePoint | jump | finish => false
    | _ => true

/-- Whether it must produce a value; a call may leave it out. -/
def needsResult (o : Opcode) : Bool :=
  o.hasResult && match o with
    | call | callPure => false
    | _ => true

/-- Whether the result depends on the operands alone. -/
def isAlwaysPure : Opcode → Bool
  | intAdd | intSub | intMul | intAnd | intOr | intXor | intLshift | intRshift
  | intLt | intLe | intEq | intNe | intGt | intGe | intNeg | intIsTrue
  | floatAdd | floatSub | floatMul | floatNeg | floatLt
  | sameAs | arraylenGc | getfieldGcPure | callPure => true
  | _ => false

/-- Whether running it changes nothing; it may still read the heap. -/
def hasNoSideEffect (o : Opcode) : Bool :=
  o.isAlwaysPure || match o with
    | getfieldGc | new => true
    | _ => false

def isAllocation (o : Opcode) : Bool :=
  o == new

def canRaise (o : Opcode) : Bool :=
  o == call

/-- Whether it ends a list of operations. -/
def isFinal : Opcode → Bool
  | jump | finish => true
  | _ => false

theorem mem_all (o : Opcode) : o ∈ all := by
  cases o <;> decide

theorem hasResult_eq_false_of_isGuard {o : Opcode} (h : o.isGuard = true) :
    o.hasResult = false := by
  simp [hasResult, h]

theorem isAlwaysPure_eq_false_of_isGuard {o : Opcode} (h : o.isGuard = true) :
    o.isAlwaysPure = false := by
  cases o <;> first | rfl | cases h

theorem isGuard_eq_false_of_isAlwaysPure {o : Opcode} (h : o.isAlwaysPure = true) :
    o.isGuard = false := by
  cases o <;> first | rfl | cases h

theorem isGuard_eq_false_of_isFinal {o : Opcode} (h : o.isFinal = true) : o.isGuard = false := by
  cases o <;> first | rfl | cases h

theorem isAlwaysPure_eq_false_of_isFinal {o : Opcode} (h : o.isFinal = true) :
    o.isAlwaysPure = false := by
  cases o <;> first | rfl | cases h

end Opcode
end TracePeel
