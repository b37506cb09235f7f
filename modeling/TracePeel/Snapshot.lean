import TracePeel.Bindings
import TracePeel.Operand

/-! Snapshots: what resuming after a failed guard needs.

A snapshot is the chain of interpreter frames from the innermost outwards. Guards
recorded in the same frame share the rest of their chains, and sharing is part of
the meaning: a frame has an identity of its own, and two chains share a frame
where the identities agree. -/
namespace TracePeel

/-- The values of one interpreter frame. `id` tells frames of equal entries apart. -/
structure Frame where
  id : Nat
  entries : List Operand
  deriving Repr, DecidableEq

/-- Frames from the innermost outwards. The empty chain is the missing snapshot. -/
abbrev Snapshot := List Frame

namespace Snapshot

def depth (s : Snapshot) : Nat :=
  s.length

/-- The entries of all frames, innermost first. -/
def operands (s : Snapshot) : List Operand :=
  s.flatMap (·.entries)

/-- Whether two chains are the same chain: both missing, or of one head frame. -/
def same (a b : Snapshot) : Bool :=
  a.head?.map (·.id) == b.head?.map (·.id)

end Snapshot
end TracePeel
