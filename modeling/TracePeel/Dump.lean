import TracePeel.Trace

/-! The text of traces and loops.

A dump names boxes in the order in which it meets them, so it does not depend on
the numbers that the boxes happen to have. The operands of an operation are named
before its result, and the result before the fail-args and the snapshot. The
sections of a loop share one naming. -/
namespace TracePeel

/-- What a dump shows beside the operations themselves. -/
structure DumpOptions where
  guardNumbers : Bool := false
  snapshots : Bool := false
  deriving Repr, DecidableEq

/-- The boxes met so far, each with its place in the order. -/
abbrev Naming := Bindings Box Nat

/-- Whose dump it is and what it shows. -/
structure Dump where
  name : String
  token : LoopToken
  options : DumpOptions := {}

namespace Dump

def box (b : Box) : StateM Naming String := do
  let naming ← get
  match naming.get? b with
  | some n => pure ({b with id := n} : Box).name
  | none =>
    set (naming.set b naming.size)
    pure ({b with id := naming.size} : Box).name

def operand : Operand → StateM Naming String
  | .box b => box b
  | .const c => pure c.text

def operands (args : List Operand) : StateM Naming String := do
  return ", ".intercalate (← args.mapM operand)

def bracketed (args : List Operand) : StateM Naming String := do
  return "[" ++ (← operands args) ++ "]"

/-- A descriptor as an argument, where it is shown. The loop's own token is written
as the loop's name. -/
def descr? (d : Dump) : Descr → Option String
  | .loop t => some (if t = d.token then d.name else t.text)
  | .guard number _ => if d.options.guardNumbers then some s!"<Guard{number}>" else none
  | .field name => some name
  | .size name => some name

/-- The operands and the descriptor, between the parentheses. -/
def arguments (d : Dump) (op : Operation) : StateM Naming String := do
  let args ← operands op.args
  match op.descr.bind d.descr? with
  | none => pure args
  | some text =>
    let separator := if args.isEmpty then "" else ", "
    pure (args ++ separator ++ "descr=" ++ text)

/-- The frames of a snapshot, each behind a blank. -/
def frames : Snapshot → StateM Naming String
  | [] => pure ""
  | frame :: outer => do
    let entries ← bracketed frame.entries
    return " " ++ entries ++ (← frames outer)

def operation (d : Dump) (op : Operation) : StateM Naming String := do
  let args ← d.arguments op
  let result ← match op.result with
    | none => pure ""
    | some r => pure ((← box r) ++ " = ")
  let failArgs ← match op.failArgs with
    | none => pure ""
    | some failArgs => pure (" " ++ (← bracketed failArgs))
  let snapshot ←
    if d.options.snapshots && !op.snapshot.isEmpty then pure (" @" ++ (← frames op.snapshot))
    else pure ""
  return result ++ op.opcode.name ++ "(" ++ args ++ ")" ++ failArgs ++ snapshot

/-- One line for each operation. -/
def lines (d : Dump) : List Operation → StateM Naming String
  | [] => pure ""
  | op :: rest => do
    let line ← d.operation op
    return line ++ "\n" ++ (← d.lines rest)

/-- A section: the header, the inputs and the operations. -/
def all (d : Dump) (inputs : List Box) (list : List Operation) : StateM Naming String := do
  let inputs ← inputs.mapM box
  let body ← d.lines list
  return "loop " ++ d.name ++ "\n[" ++ ", ".intercalate inputs ++ "]\n" ++ body

end Dump

def Trace.dump (t : Trace) : String :=
  (((⟨t.name, t.token, {}⟩ : Dump).all t.inputs t.ops).run {}).1

namespace Loop

/-- The part that goes round, readable by itself. -/
def dumpBody (l : Loop) (options : DumpOptions) : String :=
  (((⟨l.name, l.token, options⟩ : Dump).all l.inputs l.ops).run {}).1

/-- The preamble, if there is one, and the part that goes round. -/
def dump (l : Loop) (options : DumpOptions) : String :=
  let d : Dump := ⟨l.name, l.token, options⟩
  let sections : StateM Naming String := do
    let preamble ← match l.preamble with
      | none => pure ""
      | some p => do
        let text ← d.all p.inputs p.ops
        pure (s!"# preamble: {p.ops.length} ops\n" ++ text ++ s!"# loop: {l.ops.length} ops\n")
    return preamble ++ (← d.all l.inputs l.ops)
  (sections.run {}).1

end Loop
end TracePeel
