import TracePeel.Opcode
import TracePeel.Snapshot

/-! Operations.

An operation reads operands, may produce one box, and may carry a descriptor: the
loop a jump goes to, the number and snapshot of a guard, the field or the size a
heap access is about. Guards also list what must be alive where they leave. -/
namespace TracePeel

/-- The identity of a compiled loop. -/
structure LoopToken where
  number : Nat
  deriving Repr, DecidableEq

def LoopToken.text (t : LoopToken) : String :=
  "Loop" ++ toString t.number

inductive Descr where
  | loop (token : LoopToken)
  | guard (number : Nat) (snapshot : Snapshot)
  | field (name : String)
  | size (name : String)
  deriving Repr, DecidableEq

structure Operation where
  opcode : Opcode
  args : List Operand
  result : Option Box := none
  descr : Option Descr := none
  failArgs : Option (List Operand) := none
  deriving Repr, DecidableEq

namespace Operation

def isGuard (op : Operation) : Bool :=
  op.opcode.isGuard

def token? (op : Operation) : Option LoopToken :=
  match op.descr with
  | some (.loop t) => some t
  | _ => none

/-- The number and the snapshot of a guard descriptor. -/
def guard? (op : Operation) : Option (Nat × Snapshot) :=
  match op.descr with
  | some (.guard number snapshot) => some (number, snapshot)
  | _ => none

/-- The chain of a guard descriptor, missing where there is none. -/
def snapshot (op : Operation) : Snapshot :=
  match op.descr with
  | some (.guard _ snapshot) => snapshot
  | _ => []

/-- The name of a field or size descriptor. -/
def descrName? (op : Operation) : Option String :=
  match op.descr with
  | some (.field name) => some name
  | some (.size name) => some name
  | _ => none

/-- All that must be kept alive for the operation: its operands, its fail-args and
the entries of its snapshot. -/
def usedArgs (op : Operation) : List Operand :=
  op.args ++ op.failArgs.getD [] ++ op.snapshot.operands

/-- Whether this is the jump back to the head of the loop `t`. -/
def closes (op : Operation) (t : LoopToken) : Bool :=
  op.opcode == .jump && op.token? == some t

/-- The jump to `t`. -/
def jumpTo (t : LoopToken) (args : List Operand) : Operation :=
  { opcode := .jump, args, descr := some (.loop t) }

/-- The write of `value` into a field of `object`. -/
def setField (object : Operand) (name : String) (value : Operand) : Operation :=
  { opcode := .setfieldGc, args := [object, value], descr := some (.field name) }

end Operation
end TracePeel
