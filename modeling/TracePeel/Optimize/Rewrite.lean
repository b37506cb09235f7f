import TracePeel.Optimize.Fold
import TracePeel.Optimize.Optimizer

/-! Rewriting: constants, repeated computations, implied guards.

A pure operation on constants is computed now; one computed before is not computed
again. A guard whose test is known to pass is dropped and one known to fail gives
the loop up; of one that stays, the code behind it knows that the test passed. -/
namespace TracePeel.Rewrite

open Optimizer

variable (emit : Operation → Optimize Unit)

def dropGuard : Step Unit :=
  count fun s => {s with guardsRemoved := s.guardsRemoved + 1}

/-- `guard_true` and `guard_false`. -/
def guardTruth (op : Operation) : Optimize Unit := do
  match op.args with
  | [] => emit op
  | arg :: _ =>
    let wanted := op.opcode == .guardTrue
    let id ← valueOf arg
    match (← slot id).constant? with
    | some c =>
      if c.isTrue = wanted then dropGuard else refuse (.alwaysFails op.opcode (.const c))
    | none =>
      emit op
      if arg.kind = .int then modifyValues (·.makeConstant id (.ofBool wanted))

/-- `guard_value` with a constant to compare with. -/
def guardValue (op : Operation) : Optimize Unit := do
  match op.args with
  | arg :: .const wanted :: _ =>
    let id ← valueOf arg
    match (← slot id).constant? with
    | some c => if c = wanted then dropGuard else refuse (.neverEqual wanted c)
    | none =>
      emit op
      modifyValues (·.makeConstant id wanted)
  | _ => emit op

/-- `guard_nonnull` and `guard_isnull`. -/
def guardNull (op : Operation) : Optimize Unit := do
  match op.args with
  | [] => emit op
  | arg :: _ =>
    let wanted := op.opcode == .guardNonnull
    let id ← valueOf arg
    let s ← slot id
    if (if wanted then s.isNonNull else s.isNull) then dropGuard
    else if s.isNonNull || s.isNull then refuse (.alwaysFails op.opcode arg)
    else
      emit op
      if wanted then modifyValues (·.makeNonNull id)
      else modifyValues (·.makeConstant id (.zero arg.kind))

/-- `guard_class` with a constant class. -/
def guardClass (op : Operation) : Optimize Unit := do
  match op.args with
  | arg :: .const wanted :: _ =>
    let id ← valueOf arg
    match (← slot id).knownClass with
    | some c => if c = wanted then dropGuard else refuse (.neverOfClass wanted c)
    | none =>
      emit op
      modifyValues fun v => (v.setClass id wanted).makeNonNull id
  | _ => emit op

/-- `guard_no_exception`: without a call since the last one, nothing was raised. -/
def guardNoException (op : Operation) : Optimize Unit := do
  if (← get).mayRaise then
    emit op
    modify fun o => {o with mayRaise := false}
  else dropGuard

/-- The operands as constants, if all are; the first that is not ends the search. -/
def constants : List Operand → Step (Option (List Const))
  | [] => pure (some [])
  | a :: rest => do
    match ← constant? a with
    | none => pure none
    | some c => return (← constants rest).map (c :: ·)

/-- The operands as they are emitted, unless one of them is a virtual object. -/
def representatives : List Operand → Step (Option (List Operand))
  | [] => pure (some [])
  | a :: rest => do
    let s ← slot (← valueOf a)
    if s.isVirtual then pure none
    else return (← representatives rest).map (s.operand :: ·)

/-- Reuses what was computed before, or computes it now and remembers it. -/
def reuse (op : Operation) (result : Box) : Optimize Unit := do
  match ← representatives op.args with
  | none => emit op
  | some args =>
    let key : PureKey := ⟨op.opcode, args, op.descrName?, result.kind⟩
    match (← get).known.get? key with
    | some id =>
      tell (.reused op.opcode)
      modifyValues (·.forward result id)
      count fun s => {s with cseHits := s.cseHits + 1}
    | none =>
      let id ← valueOf (.box result)
      modify fun o => {o with known := o.known.set key id}
      emit op

/-- An always-pure operation other than `same_as`. -/
def pureOp (op : Operation) : Optimize Unit := do
  match op.result with
  | none => emit op
  | some result =>
    match (← constants op.args).bind (fold op.opcode) with
    | some c =>
      tell (.folded op.opcode c)
      let id ← valueOf (.box result)
      modifyValues (·.makeConstant id c)
      count fun s => {s with folded := s.folded + 1}
    | none => reuse emit op result

/-- `same_as`: the result stands for the operand's value. -/
def sameAs (op : Operation) : Optimize Unit := do
  match op.result, op.args with
  | some r, a :: _ =>
    let id ← valueOf a
    modifyValues (·.forward r id)
  | _, _ => emit op

def call (op : Operation) : Optimize Unit := do
  modify fun o => {o with mayRaise := true}
  emit op

/-- One operation through the pass. -/
def step (op : Operation) : Optimize Unit :=
  match op.opcode with
  | .guardTrue | .guardFalse => guardTruth emit op
  | .guardValue => guardValue emit op
  | .guardNonnull | .guardIsnull => guardNull emit op
  | .guardClass => guardClass emit op
  | .guardNoException => guardNoException emit op
  | .sameAs => sameAs emit op
  | .call => call emit op
  | opcode => if opcode.isAlwaysPure then pureOp emit op else emit op

end TracePeel.Rewrite
