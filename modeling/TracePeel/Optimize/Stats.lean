/-! Counts of one optimization, and of several rounds together. -/
namespace TracePeel

structure Stats where
  opsIn : Nat := 0
  opsOut : Nat := 0
  preambleOps : Nat := 0
  bodyOps : Nat := 0
  inputs : Nat := 0
  fixupInputs : Nat := 0
  folded : Nat := 0
  cseHits : Nat := 0
  guardsRemoved : Nat := 0
  virtualsCreated : Nat := 0
  virtualsForced : Nat := 0
  peeled : Nat := 0
  deriving Repr, DecidableEq

/-- The counts of two rounds together. -/
def Stats.add (a b : Stats) : Stats where
  opsIn := a.opsIn + b.opsIn
  opsOut := a.opsOut + b.opsOut
  preambleOps := a.preambleOps + b.preambleOps
  bodyOps := a.bodyOps + b.bodyOps
  inputs := a.inputs + b.inputs
  fixupInputs := a.fixupInputs + b.fixupInputs
  folded := a.folded + b.folded
  cseHits := a.cseHits + b.cseHits
  guardsRemoved := a.guardsRemoved + b.guardsRemoved
  virtualsCreated := a.virtualsCreated + b.virtualsCreated
  virtualsForced := a.virtualsForced + b.virtualsForced
  peeled := a.peeled + b.peeled

end TracePeel
