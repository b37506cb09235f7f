import TracePeel.Optimize.Peel
import TracePeel.Optimize.Rewrite
import TracePeel.Optimize.Virtualize

/-! The chain of passes.

Sending an operation to a stage takes the pass out of its place, runs it, and puts
it back, also when it failed; what the pass emits goes to the stage behind it, and
behind the last stage to the list being written. An error collects the name of
every pass it leaves. -/
namespace TracePeel.Optimizer

/-- One operation through a pass at a stage. -/
def runPass (pass : Pass) (emit : Operation → Optimize Unit) (stage : Nat) (op : Operation) :
    Optimize Unit :=
  match pass with
  | .peel => Peel.step emit stage op
  | .rewrite => Rewrite.step emit op
  | .virtualize => Virtualize.step emit op

def setPass (stage : Nat) (pass : Option Pass) : Step Unit :=
  modify fun o => {o with chain := o.chain.modify stage fun s => {s with pass}}

def setCursor (cursor : Nat) : Step Unit :=
  modify fun o => {o with cursor}

/-- Sends an operation into the chain with so many stages still in front of it. -/
def send : Nat → Operation → Optimize Unit
  | 0, op => emit op
  | left + 1, op => do
    let o ← get
    let stage := o.chain.size - (left + 1)
    match o.chain[stage]?.bind (·.pass) with
    | none => refuse (.reenteredPass stage)
    | some pass =>
      setPass stage none
      setCursor stage
      let outcome ← ExceptT.lift (runPass pass (send left) stage op).run
      setCursor o.cursor
      setPass stage (some pass)
      match outcome with
      | .ok () => pure ()
      | .error e => throw (e.leaving pass)

/-- Sends an operation to a stage. -/
def sendTo (stage : Nat) (op : Operation) : Optimize Unit := do
  send ((← get).chain.size - stage) op

/-- Sends an operation to the stage behind the one that runs. -/
def sendOn (op : Operation) : Optimize Unit := do
  sendTo ((← get).cursor + 1) op

/-- Gives a pass what it needs before the first operation: peeling records them all. -/
def setUp (stage : Nat) : Step Unit := do
  let o ← get
  match o.chain[stage]?.bind (·.pass) with
  | some .peel => Peel.modifyNotes stage fun n => {n with recorded := o.pending}
  | _ => pure ()

/-- Sets up the stages in order; none may be without its pass. -/
def setUpAll : Optimize Unit := do
  (List.range (← get).chain.size).forM fun stage => do
    if ((← get).chain[stage]?.bind (·.pass)).isNone then refuse (.missingPass stage)
    setUp stage

/-- Sends all recorded operations through the chain. -/
def run : Optimize Unit := do
  setUpAll
  let ops := (← get).pending
  modify fun o => {o with pending := []}
  ops.forM (sendTo 0)

end TracePeel.Optimizer
