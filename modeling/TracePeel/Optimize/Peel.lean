import TracePeel.Optimize.Optimizer

/-! Peeling.

The first way through the trace gives the preamble. At the jump that closes the
loop the recorded operations are gone through once more, every box renamed to what
it is in the next iteration, and give the list that goes round. That list may read
values of the preamble; each of them becomes an input of the loop, and the jump
hands over what it is in the next iteration. Handing one over may read another, so
inputs are added until none is missing. -/
namespace TracePeel.Peel

open Optimizer

/-- The notes of the pass at a stage. -/
def notes (stage : Nat) : Step Peeling := do
  return ((← get).chain[stage]?.map (·.peeling)).getD {}

def modifyNotes (stage : Nat) (f : Peeling → Peeling) : Step Unit :=
  modify fun o => {o with chain := o.chain.modify stage fun s => {s with peeling := f s.peeling}}

/-- What a box is in the next iteration. -/
def nextOf (stage : Nat) (b : Box) : Optimize Operand := do
  match (← notes stage).next.get? b with
  | some a => pure a
  | none => refuse (.noNextValue b)

def nextArg (stage : Nat) : Operand → Optimize Operand
  | .box b => nextOf stage b
  | .const c => pure (.const c)

/-- The boxes among some operands, each once, in the order of their first place. -/
def distinctBoxes (args : List Operand) : List Box :=
  (args.filterMap Operand.box?).foldl (fun seen b => if b ∈ seen then seen else seen ++ [b]) []

/-- Forces the values of some operands and gives what they are emitted as. -/
def forceAll (args : List Operand) : Step (List Operand) :=
  args.mapM fun a => do force (← valueOf a)

/-- Marks as from-start what exists when the preamble closes: the inputs, the
results of the preamble and every value met so far that can be handed over. -/
def markFromStart (inputs : List Box) (preamble : List Operation) : Step Nat := do
  (inputs ++ preamble.filterMap (·.result)).forM fun b => discard (valueOf (.box b))
  modifyValues (·.markFromStart)
  return (← get).values.fromStartCount

/-- A new box of the same kind for the next iteration. -/
def renameResult (stage : Nat) : Option Box → Step (Option Box)
  | none => pure none
  | some old => do
    let b ← modifyGet fun o =>
      let (b, pool) := o.pool.freshBox old.kind
      (b, {o with pool})
    modifyNotes stage fun n => {n with next := n.next.set old (.box b)}
    pure (some b)

/-- The snapshot of a guard in the next iteration. -/
def renameSnapshot (stage : Nat) (s : Snapshot) : Step Snapshot := do
  let n ← notes stage
  let rename (b : Box) : Id Operand := (n.next.get? b).getD (.box b)
  let (s, supply) := (Relinker.relink rename s ⟨n.relinker, (← get).pool.nextFrame⟩).run
  modifyNotes stage fun n => {n with relinker := supply.relinker}
  modify fun o => {o with pool := {o.pool with nextFrame := supply.nextFrame}}
  pure s

/-- A guard's descriptor in the next iteration, under a number of its own. -/
def renameDescr (stage : Nat) : Option Descr → Step (Option Descr)
  | some (.guard _ snapshot) => do
    let snapshot ← renameSnapshot stage snapshot
    let number ← modifyGet fun o =>
      let (number, pool) := o.pool.freshGuard
      (number, {o with pool})
    pure (some (.guard number snapshot))
  | descr => pure descr

/-- The operands of the jump that goes round: what the inputs are in the next
iteration. -/
def jumpArgs (stage : Nat) (inputs : List Box) : Optimize (List Operand) :=
  inputs.mapM fun b => do
    let next ← nextOf stage b
    force (← valueOf next)

/-- The operation as the next iteration runs it. -/
def rename (stage : Nat) (inputs : List Box) (op : Operation) : Optimize Operation := do
  let args ← op.args.mapM (nextArg stage)
  let failArgs ← op.failArgs.mapM (·.mapM (nextArg stage))
  let result ← renameResult stage op.result
  let descr ← renameDescr stage op.descr
  let op := {op with args, failArgs, result, descr}
  if op.closes (← get).token then return {op with args := ← jumpArgs stage inputs}
  else return op

/-- The first box from the list that is from-start and no input yet, as it is
emitted, and the boxes behind it. A value that became a constant on the way may
have been emitted as its box before, so the box itself is handed over. -/
def nextInput (inputs : List Box) : List Box → Step (Option (Box × List Box))
  | [] => pure none
  | b :: rest => do
    match (← get).values.lookup b with
    | none => nextInput inputs rest
    | some id =>
      if (← slot id).fromStart then
        let input := (← force id).box?.getD b
        if input ∈ inputs then nextInput inputs rest else pure (some (input, rest))
      else nextInput inputs rest

/-- The boxes that some operations read. -/
def boxesRead (ops : List Operation) : List Box :=
  (ops.flatMap (·.usedArgs)).filterMap Operand.box?

/-- Adds inputs until none is missing. `work` are the boxes to be looked at and
`scanned` says how much of the list was looked at already. -/
def addInputs (stage : Nat) :
    Nat → List Box → List Operand → List Box → Nat → Optimize (List Box × List Operand)
  | 0, inputs, args, _, _ => pure (inputs, args)
  | fuel + 1, inputs, args, work, scanned => do
    match ← nextInput inputs work with
    | none => pure (inputs, args)
    | some (input, work) =>
      let next ← nextOf stage input
      let next ← force (← valueOf next)
      tell (.inputAdded input next)
      let out := (← get).out.toList
      let work := work ++ next.box?.toList ++ boxesRead (out.drop scanned)
      addInputs stage fuel (inputs ++ [input]) (args ++ [next]) work out.length

/-- The list without the jump that ends it, and the jump. -/
def takeJump : Optimize Operation := do
  match (← get).out.back? with
  | none => refuse .emptyBody
  | some jump =>
    modify fun o => {o with out := o.out.pop}
    if jump.opcode = .jump then pure jump else refuse (.bodyEnd jump.opcode)

/-- Makes inputs of all from-start values that the list reads. There are no more of
them than slots and met operands, which bounds the rounds. -/
def fixUp (stage : Nat) (inputs : List Box) : Optimize (List Box) := do
  let jump ← takeJump
  let o ← get
  let out := o.out.toList
  let work := boxesRead out ++ jump.args.filterMap Operand.box?
  let fuel := o.values.slots.size + o.values.index.size + 1
  let (inputs', args) ← addInputs stage fuel inputs jump.args work out.length
  count fun s => {s with fixupInputs := s.fixupInputs + (inputs'.length - inputs.length)}
  modify fun o => {o with out := o.out.push {jump with args}}
  pure inputs'

/-- Ends the list of the preamble and begins another. What the jump hands over is
forced while the preamble can still compute it. -/
def capture (args : List Operand) : Step (List Operation) := do
  discard (forceAll args)
  let o ← get
  let preamble := o.out.toList
  set {o with out := #[], sink := .keeping, mayRaise := false}
  tell (.preambleClosed preamble.length)
  pure preamble

/-- Begins the second way: the inputs are in the next iteration what the jump hands
over, and what exists now is from-start. Gives the inputs that the loop begins with. -/
def enter (stage : Nat) (inputs : List Box) (args : List Operand) (preamble : List Operation) :
    Optimize (List Box) := do
  if inputs.length ≠ args.length then refuse (.jumpArity args.length inputs.length)
  modifyNotes stage fun n => {n with next := .ofList (inputs.zip args), relinker := .copying}
  let fromStart ← markFromStart inputs preamble
  let loopInputs := distinctBoxes (← forceAll args)
  tell (.peeling fromStart loopInputs.length)
  pure loopInputs

/-- Sends the recorded operations on as the next iteration runs them. -/
def replay (emit : Operation → Optimize Unit) (stage : Nat) (loopInputs : List Box)
    (recorded : List Operation) : Optimize Unit :=
  recorded.forM fun op => do
    let op ← rename stage loopInputs op
    tell (.inlined op.opcode)
    emit op

/-- Ends the preamble at the jump that closes the loop, and writes the loop. -/
def closePreamble (emit : Operation → Optimize Unit) (stage : Nat) (jump : Operation) :
    Optimize Unit := do
  let preamble ← capture jump.args
  let recorded := (← notes stage).recorded
  modifyNotes stage fun n => {n with recorded := []}
  let inputs := (← get).inputs
  let loopInputs ← enter stage inputs jump.args preamble
  replay emit stage loopInputs recorded
  let loopInputs ← fixUp stage loopInputs
  modify fun o =>
    {o with
      preamble := some ⟨inputs, preamble ++ [.jumpTo o.token (loopInputs.map .box)]⟩
      inputs := loopInputs}

/-- One operation through the pass. -/
def step (emit : Operation → Optimize Unit) (stage : Nat) (op : Operation) : Optimize Unit := do
  if op.closes (← get).token then closePreamble emit stage op else emit op

end TracePeel.Peel
