import TracePeel.Snapshot

/-! Rebuilding snapshots through a mapping of operands.

A frame that several guards share is rebuilt once and its copies stay shared: the
relinker remembers, for each frame it has met, the chain that frame became. The
outer frames of a chain are rebuilt first. Copies are new frames, except that a
sharing relinker keeps a frame that the mapping leaves as it is, its outer frames
included. -/
namespace TracePeel

/-- The frames met so far and what they became. -/
structure Relinker where
  memo : Bindings Nat Snapshot := {}
  sharing : Bool
  deriving Repr

namespace Relinker

/-- Every copy is a new frame. -/
def copying : Relinker :=
  { sharing := false }

/-- Frames the mapping leaves alone are kept. -/
def keeping : Relinker :=
  { sharing := true }

/-- How many frames have been met. -/
def size (r : Relinker) : Nat :=
  r.memo.size

def isEmpty (r : Relinker) : Bool :=
  r.size == 0

/-- A relinker and the next free frame number. -/
structure Supply where
  relinker : Relinker
  nextFrame : Nat

/-- Constants stay; the mapping is asked about boxes only. -/
def mapEntry {m : Type → Type} [Monad m] (map : Box → m Operand) : Operand → m Operand
  | .box b => map b
  | .const c => pure (.const c)

/-- The frame that `frame` becomes with the given entries in front of `outer`. -/
def rebuild (frame : Frame) (rest outer : Snapshot) (entries : List Operand) (s : Supply) :
    Snapshot × Supply :=
  if s.relinker.sharing && entries == frame.entries && outer.same rest then
    let chain := frame :: rest
    (chain, {s with relinker := {s.relinker with memo := s.relinker.memo.set frame.id chain}})
  else
    let chain := ⟨s.nextFrame, entries⟩ :: outer
    (chain, ⟨{s.relinker with memo := s.relinker.memo.set frame.id chain}, s.nextFrame + 1⟩)

/-- Rebuilds a chain, the outer frames first. -/
def relink {m : Type → Type} [Monad m] (map : Box → m Operand) :
    Snapshot → Supply → m (Snapshot × Supply)
  | [], s => pure ([], s)
  | frame :: rest, s =>
    match s.relinker.memo.get? frame.id with
    | some chain => pure (chain, s)
    | none => do
      let (outer, s) ← relink map rest s
      let entries ← frame.entries.mapM (mapEntry map)
      pure (rebuild frame rest outer entries s)

end Relinker
end TracePeel
