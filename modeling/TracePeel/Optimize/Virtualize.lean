import TracePeel.Optimize.Optimizer

/-! Allocation removal.

An allocation is held back as a virtual object, and writes to and reads from its
fields are settled without it. A field that was not written reads as zero. Whatever
else reads the object forces it when it is emitted. -/
namespace TracePeel.Virtualize

open Optimizer

variable (emit : Operation → Optimize Unit)

def allocation (op : Operation) : Optimize Unit := do
  match op.result with
  | none => emit op
  | some _ =>
    let id? ← modifyGet fun o =>
      let (id?, values) := o.values.makeVirtual op
      (id?, {o with values})
    match id? with
    | none => pure ()
    | some id =>
      tell (.madeVirtual id)
      count fun s => {s with virtualsCreated := s.virtualsCreated + 1}

def fieldWrite (op : Operation) : Optimize Unit := do
  match op.args, op.descrName? with
  | object :: value :: _, some name =>
    let id ← valueOf object
    if (← slot id).isVirtual then
      let value ← valueOf value
      modifyValues (·.setField id name value)
    else emit op
  | _, _ => emit op

def fieldRead (op : Operation) : Optimize Unit := do
  match op.args, op.result, op.descrName? with
  | object :: _, some result, some name =>
    let id ← valueOf object
    if (← slot id).isVirtual then
      match (← get).values.field? id name with
      | some value =>
        if (← slot value).operand.kind = result.kind then
          modifyValues (·.forward result value)
        else emit op
      | none =>
        let id ← valueOf (.box result)
        modifyValues (·.makeConstant id (.zero result.kind))
    else emit op
  | _, _, _ => emit op

/-- One operation through the pass. -/
def step (op : Operation) : Optimize Unit :=
  match op.opcode with
  | .new => allocation emit op
  | .setfieldGc => fieldWrite emit op
  | .getfieldGc | .getfieldGcPure => fieldRead emit op
  | _ => emit op

end TracePeel.Virtualize
