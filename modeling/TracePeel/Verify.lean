import TracePeel.Trace

/-! Well-formed lists of operations.

A list is accepted when its inputs are distinct, every box is defined once and
before it is read, arities, kinds and results agree with the tables, guards carry
what they need, and the last operation — and no other — is a jump or a finish that
fits the inputs it lands on. Each way to fail is a cause of its own. -/
namespace TracePeel

inductive VerifyError where
  | missingTerminator
  | misplacedTerminator (index : Nat)
  | duplicateInput (value : Box)
  | duplicateResult (index : Nat) (value : Box)
  | useBeforeDef (index : Nat) (value : Box)
  | badArity (index : Nat) (opcode : Opcode) (expected got : Nat)
  | missingResult (index : Nat) (opcode : Opcode)
  | unexpectedResult (index : Nat) (opcode : Opcode)
  | resultKind (index : Nat) (expected got : Kind)
  | argKind (index : Nat) (opcode : Opcode)
  | guardWithoutDescr (index : Nat)
  | guardWithoutFailArgs (index : Nat)
  | jumpWithoutToken (index : Nat)
  | jumpArity (expected got : Nat)
  | jumpKind (position : Nat) (expected got : Kind)
  deriving Repr, DecidableEq

def VerifyError.message : VerifyError → String
  | missingTerminator => "Trace does not end in jump or finish"
  | misplacedTerminator index => s!"Terminator at op {index} is not the last operation"
  | duplicateInput value => s!"Input {value.name} listed twice"
  | duplicateResult index value => s!"Op {index} redefines {value.name}"
  | useBeforeDef index value => s!"Use before def at op {index}: {value.name}"
  | badArity index opcode expected got =>
    s!"Op {index} ({opcode.name}) has wrong arg count. Expected {expected}, got {got}"
  | missingResult index opcode => s!"Op {index} ({opcode.name}) has no result box"
  | unexpectedResult index opcode => s!"Op {index} ({opcode.name}) cannot produce a result"
  | resultKind index expected got =>
    s!"Op {index} produces {expected.name} into a {got.name} box"
  | argKind index opcode => s!"Op {index} ({opcode.name}) mixes argument kinds"
  | guardWithoutDescr index => s!"Guard at op {index} has no guard descriptor"
  | guardWithoutFailArgs index => s!"Guard at op {index} has no fail-args"
  | jumpWithoutToken index => s!"Jump at op {index} has no loop token"
  | jumpArity expected got => s!"Jump has wrong arg count. Expected {expected}, got {got}"
  | jumpKind position expected got =>
    s!"Jump arg {position} is {got.name} but the loop input is {expected.name}"

namespace Verify

def ensure (ok : Bool) (e : VerifyError) : Except VerifyError Unit :=
  if ok then .ok () else .error e

/-- The inputs as the boxes defined at the start, each once. -/
def checkInputs : List Box → List Box → Except VerifyError (List Box)
  | defined, [] => .ok defined
  | defined, b :: rest =>
    if b ∈ defined then .error (.duplicateInput b) else checkInputs (b :: defined) rest

/-- Every box read is defined. -/
def checkUses (defined : List Box) (index : Nat) : List Operand → Except VerifyError Unit
  | [] => .ok ()
  | .const _ :: rest => checkUses defined index rest
  | .box b :: rest =>
    if b ∈ defined then checkUses defined index rest else .error (.useBeforeDef index b)

/-- Whether the two sides that an operation makes interchangeable agree in kind. -/
def kindsAgree (op : Operation) : Bool :=
  match op.opcode, op.args, op.result with
  | .guardValue, [a, b], _ => a.kind == b.kind
  | .sameAs, [a], some r => a.kind == r.kind
  | _, _, _ => true

def checkArity (index : Nat) (op : Operation) : Except VerifyError Unit :=
  match op.opcode.arity? with
  | some expected =>
    ensure (op.args.length == expected) (.badArity index op.opcode expected op.args.length)
  | none => .ok ()

def checkGuard (index : Nat) (op : Operation) : Except VerifyError Unit := do
  if op.isGuard then
    ensure op.guard?.isSome (.guardWithoutDescr index)
    ensure op.failArgs.isSome (.guardWithoutFailArgs index)

/-- The boxes defined after the operation. -/
def checkResult (defined : List Box) (index : Nat) (op : Operation) :
    Except VerifyError (List Box) := do
  match op.result with
  | some r =>
    ensure op.opcode.hasResult (.unexpectedResult index op.opcode)
    match op.opcode.resultKind? with
    | some expected => ensure (expected == r.kind) (.resultKind index expected r.kind)
    | none => pure ()
    if r ∈ defined then throw (.duplicateResult index r)
    pure (r :: defined)
  | none =>
    ensure (!op.opcode.needsResult) (.missingResult index op.opcode)
    pure defined

/-- One operation; `isLast` says whether a final operation may stand here. -/
def checkOp (defined : List Box) (index : Nat) (isLast : Bool) (op : Operation) :
    Except VerifyError (List Box) := do
  ensure (!op.opcode.isFinal || isLast) (.misplacedTerminator index)
  checkArity index op
  checkUses defined index op.usedArgs
  ensure (kindsAgree op) (.argKind index op.opcode)
  checkGuard index op
  checkResult defined index op

/-- The kinds of a jump's operands against those of the inputs it lands on. -/
def checkJumpKinds : Nat → List Operand → List Box → Except VerifyError Unit
  | position, a :: args, b :: inputs =>
    if a.kind = b.kind then checkJumpKinds (position + 1) args inputs
    else .error (.jumpKind position b.kind a.kind)
  | _, _, _ => .ok ()

/-- The last operation of a list, against the inputs of the loop `token`. -/
def checkTerminator (index : Nat) (token : LoopToken) (target : List Box) (op : Operation) :
    Except VerifyError Unit :=
  match op.opcode with
  | .finish => .ok ()
  | .jump =>
    match op.token? with
    | none => .error (.jumpWithoutToken index)
    | some t =>
      if t = token then
        if op.args.length = target.length then checkJumpKinds 0 op.args target
        else .error (.jumpArity target.length op.args.length)
      else .ok ()
  | _ => .error .missingTerminator

/-- The operations from `index` on, then the last of them as the terminator. -/
def checkOps (token : LoopToken) (target : List Box) :
    List Box → Nat → List Operation → Except VerifyError Unit
  | _, _, [] => .error .missingTerminator
  | defined, index, [op] => do
    discard (checkOp defined index true op)
    checkTerminator index token target op
  | defined, index, op :: rest => do
    let defined ← checkOp defined index false op
    checkOps token target defined (index + 1) rest

/-- A list with its inputs; `target` are the inputs that a jump to `token` lands on. -/
def ops (inputs : List Box) (list : List Operation) (token : LoopToken) (target : List Box) :
    Except VerifyError Unit := do
  let defined ← checkInputs [] inputs
  checkOps token target defined 0 list

/-- No operation defines one of the given boxes again. -/
def checkDisjoint (defined : List Box) : Nat → List Operation → Except VerifyError Unit
  | _, [] => .ok ()
  | index, op :: rest =>
    match op.result with
    | some r =>
      if r ∈ defined then .error (.duplicateResult index r)
      else checkDisjoint defined (index + 1) rest
    | none => checkDisjoint defined (index + 1) rest

end Verify

def Trace.verify (t : Trace) : Except VerifyError Unit :=
  Verify.ops t.inputs t.ops t.token t.inputs

/-- The preamble, which jumps into the loop, then the loop, which jumps to itself;
no box is defined by both. -/
def Loop.verify (l : Loop) : Except VerifyError Unit := do
  match l.preamble with
  | some p =>
    Verify.ops p.inputs p.ops l.token l.inputs
    Verify.checkDisjoint (p.ops.filterMap (·.result)) 0 l.ops
  | none => pure ()
  Verify.ops l.inputs l.ops l.token l.inputs

end TracePeel
