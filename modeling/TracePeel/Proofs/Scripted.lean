import TracePeel.Proofs.Scripts

/-! The passes, written out.

The script of a pass says in which order it looks at the table, changes it and hands
operations on: each look and each change is a step of its own, also where the code takes
several at once. `runPass_enacts`: every pass does what its script says, at every stage and
for every operation, whatever stands behind it. -/

/-! ### Rewriting -/

namespace TracePeel.Rewrite
open Optimizer

def guardTruthScript (op : Operation) : Script Unit := do
  match op.args with
  | [] => .handOn op
  | arg :: _ =>
    let wanted := op.opcode == .guardTrue
    let id ← valueOf arg
    match (← slot id).constant? with
    | some c =>
      if c.isTrue = wanted then dropGuard else .refuse (.alwaysFails op.opcode (.const c))
    | none =>
      .handOn op
      if arg.kind = .int then modifyValues (·.makeConstant id (.ofBool wanted))

def guardValueScript (op : Operation) : Script Unit := do
  match op.args with
  | arg :: .const wanted :: _ =>
    let id ← valueOf arg
    match (← slot id).constant? with
    | some c => if c = wanted then dropGuard else .refuse (.neverEqual wanted c)
    | none =>
      .handOn op
      modifyValues (·.makeConstant id wanted)
  | _ => .handOn op

def guardNullScript (op : Operation) : Script Unit := do
  match op.args with
  | [] => .handOn op
  | arg :: _ =>
    let wanted := op.opcode == .guardNonnull
    let id ← valueOf arg
    let s ← slot id
    if (if wanted then s.isNonNull else s.isNull) then dropGuard
    else if s.isNonNull || s.isNull then .refuse (.alwaysFails op.opcode arg)
    else
      .handOn op
      if wanted then modifyValues (·.makeNonNull id)
      else modifyValues (·.makeConstant id (.zero arg.kind))

def guardClassScript (op : Operation) : Script Unit := do
  match op.args with
  | arg :: .const wanted :: _ =>
    let id ← valueOf arg
    match (← slot id).knownClass with
    | some c => if c = wanted then dropGuard else .refuse (.neverOfClass wanted c)
    | none =>
      .handOn op
      modifyValues (·.setClass id wanted)
      modifyValues (·.makeNonNull id)
  | _ => .handOn op

def guardNoExceptionScript (op : Operation) : Script Unit := do
  if (← get).mayRaise then
    .handOn op
    modify fun o => {o with mayRaise := false}
  else dropGuard

def constantsScript : List Operand → Script (Option (List Const))
  | [] => pure (some [])
  | a :: rest => do
    match ← constant? a with
    | none => pure none
    | some c => return (← constantsScript rest).map (c :: ·)

def representativesScript : List Operand → Script (Option (List Operand))
  | [] => pure (some [])
  | a :: rest => do
    let s ← slot (← valueOf a)
    if s.isVirtual then pure none
    else return (← representativesScript rest).map (s.operand :: ·)

def reuseScript (op : Operation) (result : Box) : Script Unit := do
  match ← representativesScript op.args with
  | none => .handOn op
  | some args =>
    let key : PureKey := ⟨op.opcode, args, op.descrName?, result.kind⟩
    match (← get).known.get? key with
    | some id =>
      tell (.reused op.opcode)
      modifyValues (·.forward result id)
      count fun s => {s with cseHits := s.cseHits + 1}
    | none =>
      let id ← valueOf (.box result)
      modify fun o => {o with known := o.known.set key id}
      .handOn op

def pureOpScript (op : Operation) : Script Unit := do
  match op.result with
  | none => .handOn op
  | some result =>
    match (← constantsScript op.args).bind (fold op.opcode) with
    | some c =>
      tell (.folded op.opcode c)
      let id ← valueOf (.box result)
      modifyValues (·.makeConstant id c)
      count fun s => {s with folded := s.folded + 1}
    | none => reuseScript op result

def sameAsScript (op : Operation) : Script Unit := do
  match op.result, op.args with
  | some r, a :: _ =>
    let id ← valueOf a
    modifyValues (·.forward r id)
  | _, _ => .handOn op

def callScript (op : Operation) : Script Unit := do
  modify fun o => {o with mayRaise := true}
  .handOn op

def stepScript (op : Operation) : Script Unit :=
  match op.opcode with
  | .guardTrue | .guardFalse => guardTruthScript op
  | .guardValue => guardValueScript op
  | .guardNonnull | .guardIsnull => guardNullScript op
  | .guardClass => guardClassScript op
  | .guardNoException => guardNoExceptionScript op
  | .sameAs => sameAsScript op
  | .call => callScript op
  | opcode => if opcode.isAlwaysPure then pureOpScript op else .handOn op

theorem quiet_dropGuard : Quiet dropGuard :=
  quiet_count _

theorem guardTruth_enacts (op : Operation) :
    Enacts (fun emit => guardTruth emit op) (guardTruthScript op) := by
  unfold guardTruth guardTruthScript
  cases op.args with
  | nil => exact enacts_hand op
  | cons arg args =>
    refine .bind (quiet_valueOf arg).spells fun id => .bind (quiet_slot id).spells fun s => ?_
    cases s.constant? with
    | some c => exact .ite quiet_dropGuard.spells (enacts_refuse nofun)
    | none =>
      exact .bind (enacts_hand op) fun _ => .ite (quiet_modifyValues _).spells (enacts_pure ())

theorem guardValue_enacts (op : Operation) :
    Enacts (fun emit => guardValue emit op) (guardValueScript op) := by
  unfold guardValue guardValueScript
  generalize op.args = args
  match args with
  | arg :: .const wanted :: _ =>
    refine .bind (quiet_valueOf arg).spells fun id => .bind (quiet_slot id).spells fun s => ?_
    cases s.constant? with
    | some c => exact .ite quiet_dropGuard.spells (enacts_refuse nofun)
    | none => exact .bind (enacts_hand op) fun _ => (quiet_modifyValues _).spells
  | [] | [_] | _ :: .box _ :: _ => exact enacts_hand op

theorem guardNull_enacts (op : Operation) :
    Enacts (fun emit => guardNull emit op) (guardNullScript op) := by
  unfold guardNull guardNullScript
  cases op.args with
  | nil => exact enacts_hand op
  | cons arg args =>
    refine .bind (quiet_valueOf arg).spells fun id => .bind (quiet_slot id).spells fun s => ?_
    refine .ite quiet_dropGuard.spells (.ite (enacts_refuse nofun) ?_)
    exact .bind (enacts_hand op) fun _ =>
      .ite (quiet_modifyValues _).spells (quiet_modifyValues _).spells

theorem guardClass_enacts (op : Operation) :
    Enacts (fun emit => guardClass emit op) (guardClassScript op) := by
  have hlearn : ∀ (id : ValueId) (wanted : Const),
      Spells (modifyValues fun v => (v.setClass id wanted).makeNonNull id) (do
        modifyValues (·.setClass id wanted)
        modifyValues (·.makeNonNull id)) := fun id wanted =>
    .bind (quiet_modifyValues (·.setClass id wanted)).spells fun _ =>
      (quiet_modifyValues (·.makeNonNull id)).spells
  unfold guardClass guardClassScript
  generalize op.args = args
  match args with
  | arg :: .const wanted :: _ =>
    refine .bind (quiet_valueOf arg).spells fun id => .bind (quiet_slot id).spells fun s => ?_
    cases s.knownClass with
    | some c => exact .ite quiet_dropGuard.spells (enacts_refuse nofun)
    | none => exact .bind (enacts_hand op) fun _ => hlearn id wanted
  | [] | [_] | _ :: .box _ :: _ => exact enacts_hand op

theorem guardNoException_enacts (op : Operation) :
    Enacts (fun emit => guardNoException emit op) (guardNoExceptionScript op) := by
  refine .bind enacts_get fun o => .ite ?_ quiet_dropGuard.spells
  exact .bind (enacts_hand op) fun _ => enacts_modify fun _ => ⟨rfl, rfl⟩

theorem constants_spells (as : List Operand) : Spells (constants as) (constantsScript as) := by
  induction as with
  | nil => exact spells_pure _
  | cons a as ih =>
    refine .bind (quiet_constant? a).spells fun c? => ?_
    cases c? with
    | none => exact spells_pure _
    | some c => exact .bind ih fun cs => spells_pure _

theorem representatives_spells (as : List Operand) :
    Spells (representatives as) (representativesScript as) := by
  induction as with
  | nil => exact spells_pure _
  | cons a as ih =>
    exact .bind (quiet_valueOf a).spells fun _ => .bind (quiet_slot _).spells fun _ =>
      .ite (spells_pure _) (.bind ih fun _ => spells_pure _)

theorem reuse_enacts (op : Operation) (result : Box) :
    Enacts (fun emit => reuse emit op result) (reuseScript op result) := by
  refine .bind (representatives_spells op.args) fun args? => ?_
  cases args? with
  | none => exact enacts_hand op
  | some args =>
    refine .bind enacts_get fun o => ?_
    cases o.known.get? ⟨op.opcode, args, op.descrName?, result.kind⟩ with
    | some id =>
      exact .bind (quiet_tell _).spells fun _ => .bind (quiet_modifyValues _).spells fun _ =>
        (quiet_count _).spells
    | none =>
      exact .bind (quiet_valueOf _).spells fun id =>
        .bind (enacts_modify fun _ => ⟨rfl, rfl⟩) fun _ => enacts_hand op

theorem pureOp_enacts (op : Operation) :
    Enacts (fun emit => pureOp emit op) (pureOpScript op) := by
  unfold pureOp pureOpScript
  cases op.result with
  | none => exact enacts_hand op
  | some result =>
    refine .bind (constants_spells op.args) fun cs? => ?_
    cases cs?.bind (fold op.opcode) with
    | some c =>
      exact .bind (quiet_tell _).spells fun _ => .bind (quiet_valueOf _).spells fun id =>
        .bind (quiet_modifyValues _).spells fun _ => (quiet_count _).spells
    | none => exact reuse_enacts op result

theorem sameAs_enacts (op : Operation) :
    Enacts (fun emit => sameAs emit op) (sameAsScript op) := by
  unfold sameAs sameAsScript
  generalize op.args = args
  match op.result, args with
  | some r, a :: _ => exact .bind (quiet_valueOf _).spells fun id => (quiet_modifyValues _).spells
  | none, _ | some _, [] => exact enacts_hand op

theorem call_enacts (op : Operation) : Enacts (fun emit => call emit op) (callScript op) :=
  .bind (enacts_modify fun _ => ⟨rfl, rfl⟩) fun _ => enacts_hand op

theorem step_enacts (op : Operation) : Enacts (fun emit => step emit op) (stepScript op) := by
  unfold step stepScript
  cases op.opcode
  case guardTrue | guardFalse => exact guardTruth_enacts op
  case guardValue => exact guardValue_enacts op
  case guardNonnull | guardIsnull => exact guardNull_enacts op
  case guardClass => exact guardClass_enacts op
  case guardNoException => exact guardNoException_enacts op
  case sameAs => exact sameAs_enacts op
  case call => exact call_enacts op
  all_goals exact .ite (pureOp_enacts op) (enacts_hand op)

end TracePeel.Rewrite

/-! ### Allocation removal -/

namespace TracePeel.Virtualize
open Optimizer

def allocationScript (op : Operation) : Script Unit := do
  match op.result with
  | none => .handOn op
  | some _ =>
    let id? ← modifyGet fun o =>
      let (id?, values) := o.values.makeVirtual op
      (id?, {o with values})
    match id? with
    | none => pure ()
    | some id =>
      tell (.madeVirtual id)
      count fun s => {s with virtualsCreated := s.virtualsCreated + 1}

def fieldWriteScript (op : Operation) : Script Unit := do
  match op.args, op.descrName? with
  | object :: value :: _, some name =>
    let id ← valueOf object
    if (← slot id).isVirtual then
      let value ← valueOf value
      modifyValues (·.setField id name value)
    else .handOn op
  | _, _ => .handOn op

def fieldReadScript (op : Operation) : Script Unit := do
  match op.args, op.result, op.descrName? with
  | object :: _, some result, some name =>
    let id ← valueOf object
    if (← slot id).isVirtual then
      match (← get).values.field? id name with
      | some value =>
        if (← slot value).operand.kind = result.kind then
          modifyValues (·.forward result value)
        else .handOn op
      | none =>
        let id ← valueOf (.box result)
        modifyValues (·.makeConstant id (.zero result.kind))
    else .handOn op
  | _, _, _ => .handOn op

def stepScript (op : Operation) : Script Unit :=
  match op.opcode with
  | .new => allocationScript op
  | .setfieldGc => fieldWriteScript op
  | .getfieldGc | .getfieldGcPure => fieldReadScript op
  | _ => .handOn op

theorem allocation_enacts (op : Operation) :
    Enacts (fun emit => allocation emit op) (allocationScript op) := by
  unfold allocation allocationScript
  cases op.result with
  | none => exact enacts_hand op
  | some result =>
    refine .bind (enacts_modifyGet fun _ => ⟨rfl, rfl⟩) fun id? => ?_
    cases id? with
    | none => exact enacts_pure ()
    | some id => exact .bind (quiet_tell _).spells fun _ => (quiet_count _).spells

theorem fieldWrite_enacts (op : Operation) :
    Enacts (fun emit => fieldWrite emit op) (fieldWriteScript op) := by
  unfold fieldWrite fieldWriteScript
  generalize op.args = args
  match args, op.descrName? with
  | object :: value :: _, some name =>
    refine .bind (quiet_valueOf object).spells fun id => .bind (quiet_slot id).spells fun s => ?_
    refine .ite ?_ (enacts_hand op)
    exact .bind (quiet_valueOf value).spells fun v => (quiet_modifyValues _).spells
  | [], _ | [_], _ | _ :: _ :: _, none => exact enacts_hand op

theorem fieldRead_enacts (op : Operation) :
    Enacts (fun emit => fieldRead emit op) (fieldReadScript op) := by
  unfold fieldRead fieldReadScript
  generalize op.args = args
  match args, op.result, op.descrName? with
  | object :: _, some result, some name =>
    refine .bind (quiet_valueOf object).spells fun id => .bind (quiet_slot id).spells fun s => ?_
    refine .ite (.bind enacts_get fun o => ?_) (enacts_hand op)
    cases o.values.field? id name with
    | some value =>
      exact .bind (quiet_slot value).spells fun s =>
        .ite (quiet_modifyValues _).spells (enacts_hand op)
    | none => exact .bind (quiet_valueOf _).spells fun id => (quiet_modifyValues _).spells
  | [], _, _ | _ :: _, none, _ | _ :: _, some _, none => exact enacts_hand op

theorem step_enacts (op : Operation) : Enacts (fun emit => step emit op) (stepScript op) := by
  unfold step stepScript
  cases op.opcode
  case new => exact allocation_enacts op
  case setfieldGc => exact fieldWrite_enacts op
  case getfieldGc | getfieldGcPure => exact fieldRead_enacts op
  all_goals exact enacts_hand op

end TracePeel.Virtualize

/-! ### Peeling -/

namespace TracePeel.Peel
open Optimizer

/-- Forces the values of some operands, meeting each in a step of its own. -/
def forceAllScript (args : List Operand) : Script (List Operand) :=
  args.mapM fun a => do force (← valueOf a)

def markFromStartScript (inputs : List Box) (preamble : List Operation) : Script Nat := do
  (inputs ++ preamble.filterMap (·.result)).forM fun b => do
    let _ ← valueOf (.box b)
  modifyValues (·.markFromStart)
  return (← get).values.fromStartCount

def captureScript (args : List Operand) : Script (List Operation) := do
  let _ ← forceAllScript args
  let preamble := (← get).out.toList
  modify fun o => {o with out := #[], sink := .keeping, mayRaise := false}
  tell (.preambleClosed preamble.length)
  pure preamble

def nextInputScript (inputs : List Box) : List Box → Script (Option (Box × List Box))
  | [] => pure none
  | b :: rest => do
    match (← get).values.lookup b with
    | none => nextInputScript inputs rest
    | some id =>
      if (← slot id).fromStart then
        let input := (← force id).box?.getD b
        if input ∈ inputs then nextInputScript inputs rest else pure (some (input, rest))
      else nextInputScript inputs rest

def takeJumpScript : Script Operation := do
  match (← get).out.back? with
  | none => .refuse .emptyBody
  | some jump =>
    modify fun o => {o with out := o.out.pop}
    if jump.opcode = .jump then pure jump else .refuse (.bodyEnd jump.opcode)

section
variable (stage : Nat)

def nextOfScript (b : Box) : Script Operand := do
  match (← notes stage).next.get? b with
  | some a => pure a
  | none => .refuse (.noNextValue b)

def nextArgScript : Operand → Script Operand
  | .box b => nextOfScript stage b
  | .const c => pure (.const c)

def jumpArgsScript (inputs : List Box) : Script (List Operand) :=
  inputs.mapM fun b => do
    let next ← nextOfScript stage b
    force (← valueOf next)

/-- Renaming an operation. The table is looked at for the operands of a jump only. -/
def renameScript (inputs : List Box) (op : Operation) : Script Operation := do
  let args ← op.args.mapM (nextArgScript stage)
  let failArgs ← op.failArgs.mapM (·.mapM (nextArgScript stage))
  let result ← renameResult stage op.result
  let descr ← renameDescr stage op.descr
  let op := {op with args, failArgs, result, descr}
  if op.closes (← get).token then return {op with args := ← jumpArgsScript stage inputs}
  else return op

def addInputsScript :
    Nat → List Box → List Operand → List Box → Nat → Script (List Box × List Operand)
  | 0, inputs, args, _, _ => pure (inputs, args)
  | fuel + 1, inputs, args, work, scanned => do
    match ← nextInputScript inputs work with
    | none => pure (inputs, args)
    | some (input, work) =>
      let next ← nextOfScript stage input
      let next ← force (← valueOf next)
      tell (.inputAdded input next)
      let out := (← get).out.toList
      let work := work ++ next.box?.toList ++ boxesRead (out.drop scanned)
      addInputsScript fuel (inputs ++ [input]) (args ++ [next]) work out.length

def fixUpScript (inputs : List Box) : Script (List Box) := do
  let jump ← takeJumpScript
  let o ← get
  let out := o.out.toList
  let work := boxesRead out ++ jump.args.filterMap Operand.box?
  let fuel := o.values.slots.size + o.values.index.size + 1
  let (inputs', args) ← addInputsScript stage fuel inputs jump.args work out.length
  count fun s => {s with fixupInputs := s.fixupInputs + (inputs'.length - inputs.length)}
  modify fun o => {o with out := o.out.push {jump with args}}
  pure inputs'

def enterScript (inputs : List Box) (args : List Operand) (preamble : List Operation) :
    Script (List Box) := do
  if inputs.length ≠ args.length then .refuse (.jumpArity args.length inputs.length)
  modifyNotes stage fun n => {n with next := .ofList (inputs.zip args), relinker := .copying}
  let fromStart ← markFromStartScript inputs preamble
  let loopInputs := distinctBoxes (← forceAllScript args)
  tell (.peeling fromStart loopInputs.length)
  pure loopInputs

def replayScript (loopInputs : List Box) (recorded : List Operation) : Script Unit :=
  recorded.forM fun op => do
    let op ← renameScript stage loopInputs op
    tell (.inlined op.opcode)
    .handOn op

def closePreambleScript (jump : Operation) : Script Unit := do
  let preamble ← captureScript jump.args
  let recorded := (← notes stage).recorded
  modifyNotes stage fun n => {n with recorded := []}
  let inputs := (← get).inputs
  let loopInputs ← enterScript stage inputs jump.args preamble
  replayScript stage loopInputs recorded
  let loopInputs ← fixUpScript stage loopInputs
  modify fun o =>
    {o with
      preamble := some ⟨inputs, preamble ++ [.jumpTo o.token (loopInputs.map .box)]⟩
      inputs := loopInputs}

def stepScript (op : Operation) : Script Unit := do
  if op.closes (← get).token then closePreambleScript stage op else .handOn op

end

theorem forceAll_spells (args : List Operand) : Spells (forceAll args) (forceAllScript args) :=
  .mapM fun a => .bind (quiet_valueOf a).spells fun id => (quiet_force id).spells

theorem markFromStart_spells (inputs : List Box) (preamble : List Operation) :
    Spells (markFromStart inputs preamble) (markFromStartScript inputs preamble) := by
  have hmeet : ∀ b, Spells (discard (valueOf (.box b))) (do let _ ← valueOf (.box b)) :=
    fun b => .bind (quiet_valueOf _).spells fun _ => spells_pure _
  exact .bind (.forM hmeet) fun _ => .bind (quiet_modifyValues _).spells fun _ =>
    .bind spells_get fun _ => spells_pure _

/-- Between looking at the state and writing it back nothing happens. -/
theorem capture_spells (args : List Operand) : Spells (capture args) (captureScript args) := by
  have hset : capture args = (do
      let _ ← forceAll args
      let preamble := (← get).out.toList
      modify fun o => {o with out := #[], sink := .keeping, mayRaise := false}
      tell (.preambleClosed preamble.length)
      pure preamble) := rfl
  rw [hset]
  exact .bind (forceAll_spells args) fun _ => .bind spells_get fun _ =>
    .bind (spells_modify fun _ => ⟨rfl, rfl⟩) fun _ => .bind (quiet_tell _).spells fun _ =>
      spells_pure _

theorem nextInput_spells (inputs : List Box) (work : List Box) :
    Spells (nextInput inputs work) (nextInputScript inputs work) := by
  induction work with
  | nil => exact spells_pure none
  | cons b rest ih =>
    refine .bind spells_get fun o => ?_
    cases o.values.lookup b with
    | none => exact ih
    | some id =>
      exact .bind (quiet_slot id).spells fun _ =>
        .ite (.bind (quiet_force id).spells fun _ => .ite ih (spells_pure _)) ih

theorem takeJump_enacts : Enacts (fun _ => takeJump) takeJumpScript := by
  refine .bind enacts_get fun o => ?_
  cases o.out.back? with
  | none => exact enacts_refuse nofun
  | some jump =>
    exact .bind (enacts_modify fun _ => ⟨rfl, rfl⟩) fun _ =>
      .ite (enacts_pure jump) (enacts_refuse nofun)

section
variable (stage : Nat)

theorem quiet_notes : Quiet (notes stage) :=
  fun o => .refl o

theorem quiet_modifyNotes (f : Peeling → Peeling) : Quiet (modifyNotes stage f) :=
  fun o => samePlaces_modify o stage f

theorem quiet_renameResult (result : Option Box) : Quiet (renameResult stage result) := by
  cases result with
  | none => exact quiet_pure none
  | some old =>
    exact .bind (fun _ => ⟨rfl, rfl⟩) fun _ => .bind (quiet_modifyNotes stage _) fun _ =>
      quiet_pure _

theorem quiet_renameSnapshot (s : Snapshot) : Quiet (renameSnapshot stage s) :=
  .bind (quiet_notes stage) fun _ => .bind quiet_get fun _ =>
    .bind (quiet_modifyNotes stage _) fun _ =>
      .bind (quiet_modify fun _ => ⟨rfl, rfl⟩) fun _ => quiet_pure _

theorem quiet_renameDescr (descr : Option Descr) : Quiet (renameDescr stage descr) := by
  unfold renameDescr
  split
  · exact .bind (quiet_renameSnapshot stage _) fun _ => .bind (fun _ => ⟨rfl, rfl⟩) fun _ =>
      quiet_pure _
  · exact quiet_pure _

theorem nextOf_enacts (b : Box) : Enacts (fun _ => nextOf stage b) (nextOfScript stage b) := by
  refine .bind (quiet_notes stage).spells fun n => ?_
  cases n.next.get? b with
  | some a => exact enacts_pure a
  | none => exact enacts_refuse nofun

theorem nextArg_enacts (a : Operand) :
    Enacts (fun _ => nextArg stage a) (nextArgScript stage a) := by
  cases a with
  | box b => exact nextOf_enacts stage b
  | const c => exact enacts_pure _

theorem jumpArgs_enacts (inputs : List Box) :
    Enacts (fun _ => jumpArgs stage inputs) (jumpArgsScript stage inputs) :=
  .mapM fun b => .bind (nextOf_enacts stage b) fun next =>
    .bind (quiet_valueOf next).spells fun id => (quiet_force id).spells

theorem rename_enacts (inputs : List Box) (op : Operation) :
    Enacts (fun _ => rename stage inputs op) (renameScript stage inputs op) := by
  have hfailArgs : Enacts (fun _ => op.failArgs.mapM (·.mapM (nextArg stage)))
      (op.failArgs.mapM (·.mapM (nextArgScript stage))) := by
    cases op.failArgs with
    | none => exact enacts_pure none
    | some args => exact .bind (.mapM (nextArg_enacts stage)) fun args => enacts_pure (some args)
  exact .bind (.mapM (nextArg_enacts stage)) fun _ => .bind hfailArgs fun _ =>
    .bind (quiet_renameResult stage op.result).spells fun _ =>
      .bind (quiet_renameDescr stage op.descr).spells fun _ => .bind enacts_get fun _ =>
        .ite (.bind (jumpArgs_enacts stage inputs) fun _ => enacts_pure _) (enacts_pure _)

theorem addInputs_enacts (fuel : Nat) (inputs : List Box) (args : List Operand)
    (work : List Box) (scanned : Nat) :
    Enacts (fun _ => addInputs stage fuel inputs args work scanned)
      (addInputsScript stage fuel inputs args work scanned) := by
  induction fuel generalizing inputs args work scanned with
  | zero => exact enacts_pure (inputs, args)
  | succ fuel ih =>
    refine .bind (nextInput_spells inputs work) fun input? => ?_
    cases input? with
    | none => exact enacts_pure (inputs, args)
    | some found =>
      exact .bind (nextOf_enacts stage found.1) fun next =>
        .bind (quiet_valueOf next).spells fun id => .bind (quiet_force id).spells fun a =>
        .bind (quiet_tell _).spells fun _ => .bind enacts_get fun o => ih _ _ _ _

theorem fixUp_enacts (inputs : List Box) :
    Enacts (fun _ => fixUp stage inputs) (fixUpScript stage inputs) :=
  .bind takeJump_enacts fun _ => .bind enacts_get fun _ =>
    .bind (addInputs_enacts stage _ _ _ _ _) fun _ => .bind (quiet_count _).spells fun _ =>
      .bind (enacts_modify fun _ => ⟨rfl, rfl⟩) fun _ => enacts_pure _

theorem enter_enacts (inputs : List Box) (args : List Operand) (preamble : List Operation) :
    Enacts (fun _ => enter stage inputs args preamble)
      (enterScript stage inputs args preamble) := by
  unfold enter enterScript
  have hrest : Enacts (fun _ => (do
      modifyNotes stage fun n => {n with next := .ofList (inputs.zip args), relinker := .copying}
      let fromStart ← markFromStart inputs preamble
      let loopInputs := distinctBoxes (← forceAll args)
      tell (.peeling fromStart loopInputs.length)
      pure loopInputs : Optimize (List Box))) _ :=
    .bind (quiet_modifyNotes stage _).spells fun _ =>
      .bind (markFromStart_spells inputs preamble) fun _ =>
        .bind (forceAll_spells args) fun _ =>
          .bind (quiet_tell _).spells fun _ => enacts_pure _
  exact .ite (.bind (enacts_refuse nofun) fun _ => hrest) hrest

theorem replay_enacts (loopInputs : List Box) (recorded : List Operation) :
    Enacts (fun emit => replay emit stage loopInputs recorded)
      (replayScript stage loopInputs recorded) :=
  .forM fun op => .bind (rename_enacts stage loopInputs op) fun op' =>
    .bind (quiet_tell _).spells fun _ => enacts_hand op'

theorem closePreamble_enacts (jump : Operation) :
    Enacts (fun emit => closePreamble emit stage jump) (closePreambleScript stage jump) :=
  .bind (capture_spells jump.args) fun _ => .bind (quiet_notes stage).spells fun _ =>
    .bind (quiet_modifyNotes stage _).spells fun _ => .bind enacts_get fun _ =>
      .bind (enter_enacts stage _ _ _) fun loopInputs =>
        .bind (replay_enacts stage loopInputs _) fun _ =>
          .bind (fixUp_enacts stage loopInputs) fun _ => enacts_modify fun _ => ⟨rfl, rfl⟩

theorem step_enacts (op : Operation) :
    Enacts (fun emit => step emit stage op) (stepScript stage op) :=
  .bind enacts_get fun _ => .ite (closePreamble_enacts stage op) (enacts_hand op)

end
end TracePeel.Peel

namespace TracePeel.Optimizer

/-- What a pass does with an operation. -/
def passScript (pass : Pass) (stage : Nat) (op : Operation) : Script Unit :=
  match pass with
  | .peel => Peel.stepScript stage op
  | .rewrite => Rewrite.stepScript op
  | .virtualize => Virtualize.stepScript op

/-- Every pass does what its script says, whatever stands behind it. -/
theorem runPass_enacts (pass : Pass) (stage : Nat) (op : Operation) :
    Enacts (fun emit => runPass pass emit stage op) (passScript pass stage op) := by
  cases pass with
  | peel => exact Peel.step_enacts stage op
  | rewrite => exact Rewrite.step_enacts op
  | virtualize => exact Virtualize.step_enacts op

end TracePeel.Optimizer
