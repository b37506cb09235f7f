import TracePeel.Optimize.Event
import TracePeel.Optimize.OptError
import TracePeel.Optimize.Stats
import TracePeel.Optimize.Values
import TracePeel.Snapshot.Relink

/-! The state of one optimization and the list it writes.

An operation enters the chain of passes at its head; what comes out at its end is
emitted: every box it reads, those of its snapshot included, is replaced by what
its value is emitted as, and virtual objects met on the way are forced in front of
it. Errors leave the state as it was when they arose, so what was written before
can still be seen. -/
namespace TracePeel

/-- What an always-pure operation computes, its operands as they are emitted. -/
structure PureKey where
  opcode : Opcode
  args : List Operand
  descr : Option String
  kind : Kind
  deriving Repr, DecidableEq

/-- What the peeling pass keeps: the recorded operations, until they were gone
through a second time, and what each box of one iteration is in the next. -/
structure Peeling where
  recorded : List Operation := []
  next : Bindings Box Operand := {}
  relinker : Relinker := .copying
  deriving Repr

/-- A place in the chain. It has no pass while its pass runs, or where none was put. -/
structure Stage where
  pass : Option Pass
  peeling : Peeling := {}
  deriving Repr

structure Optimizer where
  pool : Pool
  token : LoopToken
  inputs : List Box
  /-- The recorded operations that were not sent yet. -/
  pending : List Operation
  values : Values := {}
  /-- The pure operations computed so far and their values. -/
  known : Bindings PureKey ValueId := {}
  /-- The list being written. -/
  out : Array Operation := #[]
  /-- Whether a call was made since exceptions were last guarded against. -/
  mayRaise : Bool := false
  preamble : Option Preamble := none
  stats : Stats := {}
  /-- The snapshots of the list being written. -/
  sink : Relinker := .keeping
  chain : Array Stage
  /-- The stage whose pass runs. -/
  cursor : Nat := 0
  events : Array Event := #[]
  deriving Repr

/-- A step that cannot fail. -/
abbrev Step := StateM Optimizer

/-- A step that can fail; what it did before stays done. -/
abbrev Optimize := ExceptT OptError (StateM Optimizer)

namespace Optimizer

/-- An optimizer in front of a trace, with the given chain. -/
def ofTrace (t : Trace) (passes : List (Option Pass)) : Optimizer where
  pool := t.pool
  token := t.token
  inputs := t.inputs
  pending := t.ops
  stats := { opsIn := t.ops.length }
  chain := (passes.map fun pass => ({ pass } : Stage)).toArray

def refuse {α : Type} (cause : OptCause) : Optimize α :=
  throw { cause }

def tell (e : Event) : Step Unit :=
  modify fun o => {o with events := o.events.push e}

def count (f : Stats → Stats) : Step Unit :=
  modify fun o => {o with stats := f o.stats}

def valueOf (a : Operand) : Step ValueId :=
  modifyGet fun o =>
    let (id, values) := o.values.valueOf a
    (id, {o with values})

def slot (id : ValueId) : Step Slot := do
  return (← get).values.slot id

def modifyValues (f : Values → Values) : Step Unit :=
  modify fun o => {o with values := f o.values}

/-- The constant that an operand is known to be. -/
def constant? (a : Operand) : Step (Option Const) := do
  return (← slot (← valueOf a)).constant?

/-- Makes a value an ordinary one and gives the operand emitted for it. -/
def force (id : ValueId) : Step Operand :=
  modifyGet fun o =>
    let (a, values, out) := o.values.force id o.out
    (a, {o with values, out})

/-- What a box is emitted as. -/
def forwardBox (b : Box) : Step Operand := do
  match (← get).values.lookup b with
  | some id => force id
  | none => pure (.box b)

def forwardArg : Operand → Step Operand
  | .box b => forwardBox b
  | .const c => pure (.const c)

/-- The snapshot of an emitted guard. -/
def forwardSnapshot (s : Snapshot) : Step Snapshot := do
  let o ← get
  let (s, supply) ← Relinker.relink forwardBox s ⟨o.sink, o.pool.nextFrame⟩
  modify fun o =>
    {o with sink := supply.relinker, pool := {o.pool with nextFrame := supply.nextFrame}}
  pure s

def forwardDescr : Option Descr → Step (Option Descr)
  | some (.guard number snapshot) => return some (.guard number (← forwardSnapshot snapshot))
  | descr => pure descr

/-- Writes an operation behind the list, reading what its values are emitted as. -/
def emit (op : Operation) : Step Unit := do
  let args ← op.args.mapM forwardArg
  let failArgs ← op.failArgs.mapM (·.mapM forwardArg)
  let descr ← forwardDescr op.descr
  tell (.emitted op.opcode)
  modify fun o => {o with out := o.out.push {op with args, failArgs, descr}}

/-- The loop that the written lists make, and the counts. -/
def finish (o : Optimizer) (name : String) : Loop × Stats :=
  let preambleOps := (o.preamble.map (·.ops.length)).getD 0
  let loop : Loop :=
    { name, token := o.token, inputs := o.inputs, ops := o.out.toList, preamble := o.preamble,
      pool := o.pool }
  (loop, {o.stats with
    preambleOps
    bodyOps := o.out.size
    opsOut := preambleOps + o.out.size
    inputs := o.inputs.length
    virtualsForced := o.values.forced
    peeled := if o.preamble.isSome then 1 else 0})

end Optimizer
end TracePeel
