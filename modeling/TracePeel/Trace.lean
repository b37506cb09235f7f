import TracePeel.Operation

/-! Traces and loops.

A trace is what was recorded: inputs, a straight list of operations and, as a
rule, a closing jump back to its own head. Optimizing gives a loop; where the
first iteration was peeled off, the loop has a preamble that runs once and jumps
into the list that goes round. Fresh names come from a pool that goes from the
trace to the loop and on to the next round. -/
namespace TracePeel

/-- The next free numbers of boxes, guards, loop tokens and snapshot frames. Numbers have no
end here: runs are meant that give out fewer than 2^32 of each, which is all that a counter of 32
bits can tell apart. -/
structure Pool where
  nextBox : Nat := 0
  nextGuard : Nat := 0
  nextToken : Nat := 0
  nextFrame : Nat := 0
  deriving Repr, DecidableEq

namespace Pool

def freshBox (p : Pool) (kind : Kind) : Box × Pool :=
  (⟨p.nextBox, kind⟩, {p with nextBox := p.nextBox + 1})

def freshGuard (p : Pool) : Nat × Pool :=
  (p.nextGuard, {p with nextGuard := p.nextGuard + 1})

def freshToken (p : Pool) : LoopToken × Pool :=
  (⟨p.nextToken⟩, {p with nextToken := p.nextToken + 1})

/-- A new frame in front of `outer`. -/
def pushFrame (p : Pool) (entries : List Operand) (outer : Snapshot) : Snapshot × Pool :=
  (⟨p.nextFrame, entries⟩ :: outer, {p with nextFrame := p.nextFrame + 1})

/-- The chain of new frames with the given entries, listed innermost first. -/
def chainOf (p : Pool) : List (List Operand) → Snapshot × Pool
  | [] => ([], p)
  | entries :: outer =>
    let (chain, p) := p.chainOf outer
    p.pushFrame entries chain

end Pool

structure Trace where
  name : String
  token : LoopToken
  inputs : List Box
  ops : List Operation
  pool : Pool
  deriving Repr, DecidableEq

namespace Trace

/-- An empty trace with a token of its own. -/
def start (name : String) : Trace :=
  let (token, pool) := ({} : Pool).freshToken
  { name, token, inputs := [], ops := [], pool }

def input (t : Trace) (kind : Kind) : Box × Trace :=
  let (b, pool) := t.pool.freshBox kind
  (b, {t with inputs := t.inputs ++ [b], pool})

def append (t : Trace) (op : Operation) : Trace :=
  {t with ops := t.ops ++ [op]}

/-- Records an operation that produces a new box. -/
def record (t : Trace) (opcode : Opcode) (args : List Operand) (kind : Kind) : Box × Trace :=
  let (b, pool) := t.pool.freshBox kind
  (b, {t with pool}.append { opcode, args, result := some b })

/-- Records an operation with a descriptor and, if a kind is given, a new box. -/
def recordWithDescr (t : Trace) (opcode : Opcode) (args : List Operand) (kind : Option Kind)
    (descr : Descr) : Option Box × Trace :=
  match kind with
  | none => (none, t.append { opcode, args, descr := some descr })
  | some k =>
    let (b, pool) := t.pool.freshBox k
    (some b, {t with pool}.append { opcode, args, result := some b, descr := some descr })

/-- Records a guard with the given snapshot under the next guard number. -/
def recordGuardWith (t : Trace) (opcode : Opcode) (args failArgs : List Operand)
    (snapshot : Snapshot) : Trace :=
  let (number, pool) := t.pool.freshGuard
  {t with pool}.append
    { opcode, args, descr := some (.guard number snapshot), failArgs := some failArgs }

/-- Records a guard whose snapshot is one frame that holds the fail-args. -/
def recordGuard (t : Trace) (opcode : Opcode) (args failArgs : List Operand) : Trace :=
  let (snapshot, pool) := t.pool.pushFrame failArgs []
  {t with pool}.recordGuardWith opcode args failArgs snapshot

/-- Appends the jump back to the head. -/
def close (t : Trace) (args : List Operand) : Trace :=
  t.append (.jumpTo t.token args)

end Trace

/-- What runs once before the loop; its last operation jumps into the loop. -/
structure Preamble where
  inputs : List Box
  ops : List Operation
  deriving Repr, DecidableEq

structure Loop where
  name : String
  token : LoopToken
  inputs : List Box
  ops : List Operation
  preamble : Option Preamble
  pool : Pool
  deriving Repr, DecidableEq

namespace Loop

def isPeeled (l : Loop) : Bool :=
  l.preamble.isSome

/-- The jump that ends the list. -/
def jump? (l : Loop) : Option Operation :=
  l.ops.getLast?.filter (·.opcode == .jump)

/-- The part that goes round, as a trace to be optimized again. -/
def toTrace (l : Loop) : Trace :=
  { name := l.name, token := l.token, inputs := l.inputs, ops := l.ops, pool := l.pool }

end Loop
end TracePeel
