import Mathlib.Data.List.Infix
import TracePeel.Proofs.Relinking
import TracePeel.Proofs.Verified

/-! Recorded traces.

A trace is recorded if it is well formed, its numbers come from its pool, and only
guards carry what guards need. A frame has an identity: where two chains share a
frame's number, they share the frame and all frames behind it. -/
namespace TracePeel

/-- Only guards list what must be alive where they leave and how to resume there. -/
def Operation.Plain (op : Operation) : Prop :=
  op.isGuard = false → op.failArgs = none ∧ op.guard? = none

namespace Trace

/-- Every box that occurs in the trace. -/
def boxes (t : Trace) : List Box :=
  t.inputs ++ results t.ops ++ t.ops.flatMap (·.usedArgs.filterMap Operand.box?)

/-- Every chain of frames that a guard of the trace holds, tails included. -/
def chains (t : Trace) : List Snapshot :=
  t.ops.flatMap (·.snapshot.tails)

/-- The frames of the trace have numbers that its pool gave out, and a frame's number tells
the frame and all frames behind it. -/
structure Framed (t : Trace) : Prop where
  frames : ∀ c ∈ t.chains, ∀ frame ∈ c.head?, frame.id < t.pool.nextFrame
  shared : ∀ c ∈ t.chains, ∀ c' ∈ t.chains, c.same c' = true → c = c'

/-- The trace is well formed, and its boxes and frames have numbers that its pool gave out. -/
structure Drawn (t : Trace) : Prop where
  verified : t.verify = .ok ()
  boxes : ∀ b ∈ t.boxes, b.id < t.pool.nextBox
  plain : ∀ op ∈ t.ops, op.Plain
  frames : ∀ c ∈ t.chains, ∀ frame ∈ c.head?, frame.id < t.pool.nextFrame
  shared : ∀ c ∈ t.chains, ∀ c' ∈ t.chains, c.same c' = true → c = c'

instance (t : Trace) : Decidable t.Drawn :=
  decidable_of_iff (t.verify = .ok () ∧ (∀ b ∈ t.boxes, b.id < t.pool.nextBox) ∧
    (∀ op ∈ t.ops, op.isGuard = false → op.failArgs = none ∧ op.guard? = none) ∧
    (∀ c ∈ t.chains, ∀ frame ∈ c.head?, frame.id < t.pool.nextFrame) ∧
    ∀ c ∈ t.chains, ∀ c' ∈ t.chains, c.same c' = true → c = c')
    ⟨fun ⟨hv, hb, hp, hf, hs⟩ => ⟨hv, hb, hp, hf, hs⟩,
      fun h => ⟨h.verified, h.boxes, h.plain, h.frames, h.shared⟩⟩

/-- The trace is drawn from its pool, the numbers of its guards included. -/
structure Recorded (t : Trace) : Prop where
  verified : t.verify = .ok ()
  boxes : ∀ b ∈ t.boxes, b.id < t.pool.nextBox
  guards : ∀ op ∈ t.ops, ∀ p ∈ op.guard?, p.1 < t.pool.nextGuard
  plain : ∀ op ∈ t.ops, op.Plain
  frames : ∀ c ∈ t.chains, ∀ frame ∈ c.head?, frame.id < t.pool.nextFrame
  shared : ∀ c ∈ t.chains, ∀ c' ∈ t.chains, c.same c' = true → c = c'

instance (t : Trace) : Decidable t.Recorded :=
  decidable_of_iff (t.verify = .ok () ∧ (∀ b ∈ t.boxes, b.id < t.pool.nextBox) ∧
    (∀ op ∈ t.ops, ∀ p ∈ op.guard?, p.1 < t.pool.nextGuard) ∧
    (∀ op ∈ t.ops, op.isGuard = false → op.failArgs = none ∧ op.guard? = none) ∧
    (∀ c ∈ t.chains, ∀ frame ∈ c.head?, frame.id < t.pool.nextFrame) ∧
    ∀ c ∈ t.chains, ∀ c' ∈ t.chains, c.same c' = true → c = c')
    ⟨fun ⟨hv, hb, hg, hp, hf, hs⟩ => ⟨hv, hb, hg, hp, hf, hs⟩,
      fun h => ⟨h.verified, h.boxes, h.guards, h.plain, h.frames, h.shared⟩⟩

/-- Counts up to a hundred. -/
def counting : Trace :=
  let (i, t) := (Trace.start "count").input .int
  let (less, t) := t.record .intLt [.box i, .const (.int 100)] .int
  let t := t.recordGuard .guardTrue [.box less] [.box i]
  let (next, t) := t.record .intAdd [.box i, .const (.int 1)] .int
  t.close [.box next]

theorem counting_recorded : counting.Recorded := by
  decide

/-- The chain that a frame of the trace is the head of. -/
def frameTable (t : Trace) : FrameTable :=
  fun k => t.chains.find? fun c => c.head?.map (·.id) == some k

theorem mem_chains {t : Trace} {c : Snapshot} :
    c ∈ t.chains ↔ ∃ op ∈ t.ops, c <:+ op.snapshot := by
  simp only [chains, List.mem_flatMap, List.mem_tails]

theorem Recorded.drawn {t : Trace} (h : t.Recorded) : t.Drawn :=
  ⟨h.verified, h.boxes, h.plain, h.frames, h.shared⟩

/-- The chains of a trace agree on their frames. -/
theorem Framed.snapshot_in {t : Trace} (h : t.Framed) {op : Operation} (hop : op ∈ t.ops) :
    op.snapshot.In t.frameTable := by
  have htail : ∀ s : Snapshot, s <:+ op.snapshot → s.In t.frameTable := by
    intro s hs
    induction s with
    | nil => trivial
    | cons frame rest ih =>
      refine ⟨?_, ih ((List.suffix_cons frame rest).trans hs)⟩
      have hmem : frame :: rest ∈ t.chains := mem_chains.2 ⟨op, hop, hs⟩
      cases hfind : t.frameTable frame.id with
      | none =>
        have := List.find?_eq_none.1 hfind _ hmem
        simp at this
      | some c =>
        have hid := List.find?_some hfind
        rw [h.shared c (List.mem_of_find?_eq_some hfind) _ hmem (by simpa [Snapshot.same] using hid)]
  exact htail _ (List.suffix_refl _)

theorem Framed.below {t : Trace} (h : t.Framed) : t.frameTable.Below t.pool.nextFrame := by
  intro k chain hk
  have hid := List.find?_some hk
  cases chain with
  | nil => simp at hid
  | cons frame rest =>
    have := h.frames _ (List.mem_of_find?_eq_some hk) frame rfl
    simp only [List.head?_cons, Option.map_some, beq_iff_eq, Option.some.injEq] at hid
    omega

theorem Drawn.framed {t : Trace} (h : t.Drawn) : t.Framed :=
  ⟨h.frames, h.shared⟩

theorem Drawn.snapshot_in {t : Trace} (h : t.Drawn) {op : Operation} (hop : op ∈ t.ops) :
    op.snapshot.In t.frameTable :=
  h.framed.snapshot_in hop

theorem Drawn.below {t : Trace} (h : t.Drawn) :
    t.frameTable.Below t.pool.nextFrame :=
  h.framed.below

/-- Chains that all agree with one table share their frames. -/
theorem shared_of_in {t : Trace} {T : FrameTable} (h : ∀ op ∈ t.ops, op.snapshot.In T) {n : Nat}
    (hT : T.Below n) :
    (∀ c ∈ t.chains, ∀ frame ∈ c.head?, frame.id < n) ∧
      ∀ c ∈ t.chains, ∀ c' ∈ t.chains, c.same c' = true → c = c' := by
  have hin : ∀ c ∈ t.chains, c.In T := by
    intro c hc
    obtain ⟨op, hop, front, hfront⟩ := mem_chains.1 hc
    have hs := h op hop
    rw [← hfront] at hs
    clear hfront
    induction front with
    | nil => exact hs
    | cons _ _ ih => exact ih hs.2
  refine ⟨fun c hc frame hframe => ?_,
    fun c hc c' hc' hs => (hin c hc).eq_of_same (hin c' hc') hs⟩
  cases c with
  | nil => cases hframe
  | cons f rest =>
    cases hframe
    exact hT _ _ (hin _ hc).1

end Trace
end TracePeel
