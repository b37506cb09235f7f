import TracePeel.Proofs.Relinking
import TracePeel.Proofs.Passes

/-! What is written to the list.

An operation that reaches the end of the chain is written with every operand replaced
by what its value is emitted as. `emit_yields` says so for any relation between an
operand and what it is replaced by, given that looking up one box respects it. -/
namespace TracePeel

theorem optionRel_imp {α β : Type} {R R' : α → β → Prop} (h : ∀ a b, R a b → R' a b)
    {a : Option α} {b : Option β} (hab : Option.Rel R a b) : Option.Rel R' a b := by
  cases hab with
  | none => exact .none
  | some hab => exact .some (h _ _ hab)

/-- The descriptor with the snapshot of a guard replaced by an image of it. -/
inductive Descr.Image (R : Operand → Operand → Prop) (T : FrameTable) :
    Option Descr → Option Descr → Prop
  | same {descr : Option Descr} : (∀ n s, descr ≠ some (.guard n s)) → Image R T descr descr
  | guard {n n' : Nat} {s s' : Snapshot} : Snapshot.Image R s s' → s'.In T →
      Image R T (some (.guard n s)) (some (.guard n' s'))

/-- The operation with every operand it reads replaced by a related one. -/
structure Operation.Renders (R : Operand → Operand → Prop) (T : FrameTable)
    (op op' : Operation) : Prop where
  opcode : op'.opcode = op.opcode
  args : List.Forall₂ R op.args op'.args
  failArgs : Option.Rel (List.Forall₂ R) op.failArgs op'.failArgs
  descr : Descr.Image R T op.descr op'.descr

namespace Operation.Renders
variable {R : Operand → Operand → Prop} {T : FrameTable} {op op' : Operation}

theorem snapshot (h : op.Renders R T op') : Snapshot.Image R op.snapshot op'.snapshot := by
  have hdescr := h.descr
  unfold Operation.snapshot
  generalize op.descr = d, op'.descr = d' at hdescr ⊢
  cases hdescr with
  | same hno =>
    cases d with
    | none => exact .nil
    | some d =>
      cases d with
      | guard n s => exact absurd rfl (hno n s)
      | loop | field | size => exact .nil
  | guard hi _ => exact hi

theorem snapshot_in (h : op.Renders R T op') : op'.snapshot.In T := by
  have hdescr := h.descr
  unfold Operation.snapshot
  generalize op.descr = d, op'.descr = d' at hdescr ⊢
  cases hdescr with
  | same hno =>
    cases d with
    | none => trivial
    | some d =>
      cases d with
      | guard n s => exact absurd rfl (hno n s)
      | loop | field | size => trivial
  | guard _ hin => exact hin

theorem token? (h : op.Renders R T op') : op'.token? = op.token? := by
  have hdescr := h.descr
  unfold Operation.token?
  generalize op.descr = d, op'.descr = d' at hdescr ⊢
  cases hdescr <;> rfl

theorem usedArgs (h : op.Renders R T op') : List.Forall₂ R op.usedArgs op'.usedArgs := by
  have hfail := h.failArgs
  unfold Operation.usedArgs
  refine List.rel_append (List.rel_append h.args ?_) h.snapshot.operands
  generalize op.failArgs = fs, op'.failArgs = fs' at hfail ⊢
  cases hfail with
  | none => exact .nil
  | some hf => exact hf

theorem mono {R' : Operand → Operand → Prop} (hR : ∀ a b, R a b → R' a b)
    (h : op.Renders R T op') : op.Renders R' T op' := by
  have hdescr := h.descr
  refine ⟨h.opcode, h.args.imp hR, optionRel_imp (fun _ _ hf => hf.imp hR) h.failArgs, ?_⟩
  · generalize op.descr = d, op'.descr = d' at hdescr ⊢
    cases hdescr with
    | same hno => exact .same hno
    | guard hi hin => exact .guard (hi.mono hR) hin

theorem extends_ {T' : FrameTable} (hT : T.Extends T') (h : op.Renders R T op') :
    op.Renders R T' op' := by
  have hdescr := h.descr
  refine ⟨h.opcode, h.args, h.failArgs, ?_⟩
  generalize op.descr = d, op'.descr = d' at hdescr ⊢
  cases hdescr with
  | same hno => exact .same hno
  | guard hi hin => exact .guard hi (hin.mono hT)

end Operation.Renders

namespace Optimizer
open Relinker

section Emit
variable {I : Optimizer → Prop} {le : Optimizer → Optimizer → Prop}
  {R : Optimizer → Operand → Operand → Prop} (hp : Persists le R)
  (const : ∀ o c, R o (.const c) (.const c))
  (hle : ∀ {o o'}, le o o' → o'.sink = o.sink ∧ o'.pool = o.pool)

/-- The state and the operation that are left when `op` is written: everything forced on
the way stands in front of the operation, and only the end of the list, the relinker and
the frame numbers change after that. -/
def Wrote (I : Optimizer → Prop) (le : Optimizer → Optimizer → Prop)
    (R : Optimizer → Operand → Operand → Prop) (T : FrameTable) (op : Operation)
    (o o' : Optimizer) : Prop :=
  ∃ o₁ op' T' supply events, I o₁ ∧ le o o₁ ∧ T.Extends T' ∧ Sound (R o₁) T' supply ∧
    op.Renders (R o₁) T' op' ∧ op'.result = op.result ∧ op'.guard?.map (·.1) = op.guard?.map (·.1) ∧
    o' = {o₁ with
      sink := supply.relinker
      pool := {o₁.pool with nextFrame := supply.nextFrame}
      events
      out := o₁.out.push op'}

include hp const

theorem forwardArg_yields {as : List Operand}
    (step : ∀ b, .box b ∈ as → ∀ o, I o →
      Yields (forwardBox b) o fun a o' => I o' ∧ le o o' ∧ R o' (.box b) a) :
    ∀ a ∈ as, ∀ o, I o →
      Yields (forwardArg a) o fun a' o' => I o' ∧ le o o' ∧ R o' a a' := by
  intro a ha o ho
  cases a with
  | box b => exact step b ha o ho
  | const c => exact ⟨ho, hp.refl o, const o c⟩

include hle

theorem emit_yields {op : Operation} {T : FrameTable} (hop : op.snapshot.In T)
    (step : ∀ b, .box b ∈ op.usedArgs → ∀ o, I o →
      Yields (forwardBox b) o fun a o' => I o' ∧ le o o' ∧ R o' (.box b) a)
    {o : Optimizer} (ho : I o) (hs : Sound (R o) T ⟨o.sink, o.pool.nextFrame⟩) :
    Yields (emit op) o fun _ o' => Wrote I le R T op o o' := by
  have harg := forwardArg_yields hp const step
  unfold emit
  rw [yields_bind]
  refine (yields_mapM hp (fun a ha => harg a (by simp [Operation.usedArgs, ha])) ho).mono
    fun args o₁ ⟨h₁, hle₁, hargs⟩ => ?_
  rw [yields_bind]
  have hfail : Yields (op.failArgs.mapM (·.mapM forwardArg)) o₁ fun fs o' =>
      I o' ∧ le o₁ o' ∧ Option.Rel (List.Forall₂ (R o')) op.failArgs fs := by
    cases hf : op.failArgs with
    | none => exact ⟨h₁, hp.refl o₁, .none⟩
    | some as =>
      have hstep : ∀ a ∈ as, ∀ o, I o →
          Yields (forwardArg a) o fun a' o' => I o' ∧ le o o' ∧ R o' a a' :=
        fun a ha => harg a (by simp [Operation.usedArgs, hf, ha])
      show Yields (some <$> as.mapM forwardArg) o₁ _
      rw [yields_map]
      exact (yields_mapM hp hstep h₁).mono fun _ _ ⟨h', hle', hfs⟩ => ⟨h', hle', .some hfs⟩
  refine hfail.mono fun fs o₂ ⟨h₂, hle₂, hfs⟩ => ?_
  have hargs₂ : List.Forall₂ (R o₂) op.args args := hargs.imp fun _ _ => hp.keep hle₂
  have hle₁₂ := hp.trans hle₁ hle₂
  have hs₂ : Sound (R o₂) T ⟨o₂.sink, o₂.pool.nextFrame⟩ := by
    rw [(hle hle₁₂).1, (hle hle₁₂).2]
    exact hs.mono fun _ _ => hp.keep hle₁₂
  rw [yields_bind]
  unfold forwardDescr
  split
  next n s hd =>
    simp only [yields_bind, yields_pure, forwardSnapshot, yields_get, yields_modify, yields_tell]
    have hsnap : op.snapshot = s := by simp [Operation.snapshot, hd]
    refine (relink_yields hp const (fun b hb => step b ?_) (hsnap ▸ hop) h₂ hs₂).mono
      fun r o₃ ⟨h₃, hle₃, T', hT, hsound, hin, hi⟩ => ?_
    · simp [Operation.usedArgs, hsnap, hb]
    · refine ⟨o₃, {op with args, failArgs := fs, descr := some (.guard n r.1)}, T', r.2,
        o₃.events.push (.emitted op.opcode), h₃, hp.trans hle₁₂ hle₃, hT, hsound,
        ⟨rfl, hargs₂.imp fun _ _ => hp.keep hle₃, ?_, ?_⟩, rfl, ?_, rfl⟩
      · exact optionRel_imp (fun _ _ h => h.imp fun _ _ => hp.keep hle₃) hfs
      · rw [hd]
        exact .guard hi hin
      · simp [Operation.guard?, hd]
  next hno =>
    simp only [yields_bind, yields_pure, yields_tell, yields_modify]
    exact ⟨o₂, {op with args, failArgs := fs}, T, ⟨o₂.sink, o₂.pool.nextFrame⟩,
      o₂.events.push (.emitted op.opcode), h₂, hle₁₂, .refl T, hs₂,
      ⟨rfl, hargs₂, hfs, .same fun n s => hno n s⟩, rfl, rfl, rfl⟩

end Emit
end Optimizer
end TracePeel
