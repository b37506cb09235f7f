import TracePeel.Proofs.Sending

/-! What a pass does with an operation, written out.

A pass takes steps of its own, hands operations on, and may fail; which it does next
depends on the state it finds. A `Script` is such a course of action with the handing on
left open. It has no way to go on after a failure, its own or one behind it. `Enacts` says
that a part of a pass does what is written in a script and leaves the passes in their places,
whatever stands behind it, and `Spells` says it of a step that cannot fail. Both follow the
code: one lemma for each way to put steps together and one for each step that the passes are
made of. Writing an operation to the list is written out at the end. -/
namespace TracePeel.Optimizer

/-! ### Places -/

/-- Which pass stands at each stage. -/
def passes (o : Optimizer) : List (Option Pass) :=
  o.chain.toList.map (·.pass)

/-- The passes stand where they stood, and the same one runs. -/
structure SamePlaces (o o' : Optimizer) : Prop where
  passes : o'.passes = o.passes
  cursor : o'.cursor = o.cursor

namespace SamePlaces
variable {o o₁ o₂ : Optimizer}

theorem refl (o : Optimizer) : SamePlaces o o :=
  ⟨rfl, rfl⟩

theorem trans (h₁ : SamePlaces o o₁) (h₂ : SamePlaces o₁ o₂) : SamePlaces o o₂ :=
  ⟨h₂.passes.trans h₁.passes, h₂.cursor.trans h₁.cursor⟩

theorem size (h : SamePlaces o o₁) : o₁.chain.size = o.chain.size := by
  have := congrArg List.length h.passes
  simpa [Optimizer.passes] using this

end SamePlaces

theorem Keeps.samePlaces {o o' : Optimizer} (h : Keeps o o') : SamePlaces o o' :=
  ⟨by rw [passes, passes, h.chain], h.cursor⟩

/-- What a pass notes down moves no pass. -/
theorem samePlaces_modify (o : Optimizer) (stage : Nat) (f : Peeling → Peeling) :
    SamePlaces o {o with
      chain := o.chain.modify stage fun s => {s with peeling := f s.peeling}} := by
  refine ⟨?_, rfl⟩
  show List.map _ (Array.toList _) = _
  unfold passes
  refine List.ext_getElem (by simp) fun i hi hi' => ?_
  simp only [List.getElem_map, Array.getElem_toList, Array.getElem_modify]
  split <;> rfl

/-! ### Scripts -/

/-- What is done from here on: nothing more, a step, a failure, or an operation handed
on. -/
inductive Script (α : Type) where
  | done (a : α)
  | own (after : Optimizer → Optimizer) (next : Optimizer → Script α)
  | fail (e : OptError)
  | hand (op : Operation) (next : Script α)

namespace Script
variable {α β : Type}

/-- The script with somewhere to hand operations on to. -/
def run (emit : Operation → Optimize Unit) : Script α → Optimize α
  | done a => pure a
  | own after next => do
    let o ← get
    set (after o)
    (next o).run emit
  | fail e => throw e
  | hand op next => do
    emit op
    next.run emit

/-- No step moves a pass, and no failure says that one was away. -/
def Proper : Script α → Prop
  | done _ => True
  | own after next => ∀ o, SamePlaces o (after o) ∧ (next o).Proper
  | fail e => ∀ stage, e.cause ≠ .reenteredPass stage
  | hand _ next => next.Proper

def bind (f : α → Script β) : Script α → Script β
  | done a => f a
  | own after next => own after fun o => (next o).bind f
  | fail e => fail e
  | hand op next => hand op (next.bind f)

theorem run_bind (emit : Operation → Optimize Unit) (s : Script α) (f : α → Script β) :
    (s.bind f).run emit = s.run emit >>= fun a => (f a).run emit := by
  induction s with
  | done a => simp [bind, run]
  | own after next ih => simp [bind, run, ih]
  | fail e => rfl
  | hand op next ih => simp [bind, run, ih]

theorem Proper.bind {s : Script α} {f : α → Script β} (hs : s.Proper)
    (hf : ∀ a, (f a).Proper) : (s.bind f).Proper := by
  induction s with
  | done a => exact hf a
  | own after next ih => exact fun o => ⟨(hs o).1, ih o (hs o).2⟩
  | fail e => exact hs
  | hand op next ih => exact ih hs

instance : Monad Script where
  pure := done
  bind s f := s.bind f

/-- A step that cannot fail, taken at once. -/
instance : MonadLift (StateM Optimizer) Script where
  monadLift m := own (fun o => (m.run o).2) fun o => done (m.run o).1

/-- Hands one operation on. -/
def handOn (op : Operation) : Script Unit :=
  hand op (done ())

def refuse (cause : OptCause) : Script α :=
  fail { cause }

theorem bind_done (s : Script α) : s.bind done = s := by
  induction s with
  | done a => rfl
  | own after next ih => exact congrArg (own after) (funext ih)
  | fail e => rfl
  | hand op next ih => exact congrArg (hand op) ih

theorem bind_assoc {γ : Type} (s : Script α) (f : α → Script β) (g : β → Script γ) :
    (s.bind f).bind g = s.bind fun a => (f a).bind g := by
  induction s with
  | done a => rfl
  | own after next ih => exact congrArg (own after) (funext ih)
  | fail e => rfl
  | hand op next ih => exact congrArg (hand op) ih

instance : LawfulMonad Script :=
  LawfulMonad.mk' Script bind_done (fun _ _ => rfl) fun s f g => s.bind_assoc f g

end Script

/-- The part of a pass does what is written in the script, whatever stands behind it. -/
structure Enacts {α : Type} (m : (Operation → Optimize Unit) → Optimize α) (s : Script α) :
    Prop where
  proper : s.Proper
  run : ∀ emit, m emit = s.run emit

/-- The script spells out a step that cannot fail. -/
def Spells {α : Type} (m : Step α) (s : Script α) : Prop :=
  Enacts (fun _ => liftM m) s

/-- The step moves no pass. -/
def Quiet {α : Type} (m : Step α) : Prop :=
  ∀ o, SamePlaces o (m.run o).2

section Enacts
variable {α β : Type}

theorem enacts_pure (a : α) : Enacts (fun _ => pure a) (pure a) :=
  ⟨trivial, fun _ => rfl⟩

theorem Enacts.bind {m : (Operation → Optimize Unit) → Optimize α} {s : Script α}
    {f : (Operation → Optimize Unit) → α → Optimize β} {t : α → Script β}
    (hm : Enacts m s) (hf : ∀ a, Enacts (fun emit => f emit a) (t a)) :
    Enacts (fun emit => m emit >>= f emit) (s >>= t) := by
  refine ⟨hm.proper.bind fun a => (hf a).proper, fun emit => ?_⟩
  calc m emit >>= f emit = s.run emit >>= f emit := by rw [hm.run]
    _ = s.run emit >>= fun a => (t a).run emit := bind_congr fun a => (hf a).run emit
    _ = (s >>= t).run emit := (Script.run_bind emit s t).symm

theorem enacts_hand (op : Operation) : Enacts (fun emit => emit op) (Script.handOn op) :=
  ⟨trivial, fun _ => bind_pure_unit.symm⟩

theorem enacts_refuse {cause : OptCause} (h : ∀ stage, cause ≠ .reenteredPass stage) :
    Enacts (fun _ => (refuse cause : Optimize α)) (Script.refuse cause) :=
  ⟨h, fun _ => rfl⟩

theorem Quiet.spells {m : Step α} (h : Quiet m) : Spells m (liftM m) :=
  ⟨fun o => ⟨h o, trivial⟩, fun _ => rfl⟩

theorem enacts_get : Enacts (fun _ => (get : Optimize Optimizer)) get :=
  ⟨fun o => ⟨.refl o, trivial⟩, fun _ => rfl⟩

theorem enacts_modify {f : Optimizer → Optimizer} (h : ∀ o, SamePlaces o (f o)) :
    Enacts (fun _ => (modify f : Optimize PUnit)) (modify f) :=
  ⟨fun o => ⟨h o, trivial⟩, fun _ => rfl⟩

theorem enacts_modifyGet {f : Optimizer → α × Optimizer} (h : ∀ o, SamePlaces o (f o).2) :
    Enacts (fun _ => (modifyGet f : Optimize α)) (modifyGet f) :=
  ⟨fun o => ⟨h o, trivial⟩, fun _ => rfl⟩

theorem Enacts.ite {c : Prop} [Decidable c] {m n : (Operation → Optimize Unit) → Optimize α}
    {s t : Script α} (hm : Enacts m s) (hn : Enacts n t) :
    Enacts (fun emit => if c then m emit else n emit) (if c then s else t) := by
  by_cases h : c
  · simpa only [if_pos h] using hm
  · simpa only [if_neg h] using hn

theorem Enacts.forM {l : List α} {f : (Operation → Optimize Unit) → α → Optimize PUnit}
    {t : α → Script PUnit} (hf : ∀ a, Enacts (fun emit => f emit a) (t a)) :
    Enacts (fun emit => l.forM (f emit)) (l.forM t) := by
  induction l with
  | nil => exact enacts_pure PUnit.unit
  | cons a l ih => exact .bind (hf a) fun _ => ih

theorem Enacts.mapM {l : List α} {f : α → Optimize β} {t : α → Script β}
    (hf : ∀ a, Enacts (fun _ => f a) (t a)) : Enacts (fun _ => l.mapM f) (l.mapM t) := by
  induction l with
  | nil => exact enacts_pure []
  | cons a l ih =>
    rw [List.mapM_cons, List.mapM_cons]
    exact .bind (hf a) fun b => .bind ih fun bs => enacts_pure (b :: bs)

end Enacts

/-! ### Steps that cannot fail -/

section Spells
variable {α β : Type}

theorem spells_pure (a : α) : Spells (pure a) (pure a) :=
  enacts_pure a

theorem Spells.bind {m : Step α} {s : Script α} {f : α → Step β} {t : α → Script β}
    (hm : Spells m s) (hf : ∀ a, Spells (f a) (t a)) : Spells (m >>= f) (s >>= t) := by
  unfold Spells
  rw [liftM_bind]
  exact Enacts.bind hm hf

theorem spells_get : Spells get get :=
  enacts_get

theorem spells_modify {f : Optimizer → Optimizer} (h : ∀ o, SamePlaces o (f o)) :
    Spells (modify f) (modify f) :=
  enacts_modify h

theorem Spells.ite {c : Prop} [Decidable c] {m n : Step α} {s t : Script α} (hm : Spells m s)
    (hn : Spells n t) : Spells (if c then m else n) (if c then s else t) := by
  by_cases h : c
  · simpa only [if_pos h] using hm
  · simpa only [if_neg h] using hn

theorem Spells.forM {l : List α} {f : α → Step PUnit} {t : α → Script PUnit}
    (hf : ∀ a, Spells (f a) (t a)) : Spells (l.forM f) (l.forM t) := by
  induction l with
  | nil => exact spells_pure PUnit.unit
  | cons a l ih => exact .bind (hf a) fun _ => ih

theorem Spells.mapM {l : List α} {f : α → Step β} {t : α → Script β}
    (hf : ∀ a, Spells (f a) (t a)) : Spells (l.mapM f) (l.mapM t) := by
  induction l with
  | nil => exact spells_pure []
  | cons a l ih =>
    rw [List.mapM_cons, List.mapM_cons]
    exact .bind (hf a) fun b => .bind ih fun bs => spells_pure (b :: bs)

theorem quiet_pure (a : α) : Quiet (pure a) :=
  fun o => .refl o

theorem Quiet.bind {m : Step α} {f : α → Step β} (hm : Quiet m) (hf : ∀ a, Quiet (f a)) :
    Quiet (m >>= f) :=
  fun o => (hm o).trans (hf _ _)

theorem quiet_get : Quiet get :=
  fun o => .refl o

theorem quiet_modify {f : Optimizer → Optimizer} (h : ∀ o, SamePlaces o (f o)) :
    Quiet (modify f) :=
  h

theorem quiet_tell (e : Event) : Quiet (tell e) :=
  fun _ => ⟨rfl, rfl⟩

theorem quiet_count (f : Stats → Stats) : Quiet (count f) :=
  fun _ => ⟨rfl, rfl⟩

theorem quiet_valueOf (a : Operand) : Quiet (valueOf a) :=
  fun _ => ⟨rfl, rfl⟩

theorem quiet_slot (id : ValueId) : Quiet (slot id) :=
  fun o => .refl o

theorem quiet_modifyValues (f : Values → Values) : Quiet (modifyValues f) :=
  fun _ => ⟨rfl, rfl⟩

theorem quiet_force (id : ValueId) : Quiet (force id) :=
  fun _ => ⟨rfl, rfl⟩

theorem quiet_constant? (a : Operand) : Quiet (constant? a) :=
  fun _ => ⟨rfl, rfl⟩

end Spells

/-! ### Writing to the list -/

def forwardBoxScript (b : Box) : Script Operand := do
  match (← get).values.lookup b with
  | some id => force id
  | none => pure (.box b)

def forwardArgScript : Operand → Script Operand
  | .box b => forwardBoxScript b
  | .const c => pure (.const c)

def forwardSnapshotScript (s : Snapshot) : Script Snapshot := do
  let o ← get
  let (s, supply) ← Relinker.relink forwardBoxScript s ⟨o.sink, o.pool.nextFrame⟩
  modify fun o =>
    {o with sink := supply.relinker, pool := {o.pool with nextFrame := supply.nextFrame}}
  pure s

def forwardDescrScript : Option Descr → Script (Option Descr)
  | some (.guard number snapshot) => do
    let snapshot ← forwardSnapshotScript snapshot
    return some (.guard number snapshot)
  | descr => pure descr

/-- Writing an operation, each value forced in a step of its own. -/
def emitScript (op : Operation) : Script Unit := do
  let args ← op.args.mapM forwardArgScript
  let failArgs ← op.failArgs.mapM (·.mapM forwardArgScript)
  let descr ← forwardDescrScript op.descr
  tell (.emitted op.opcode)
  modify fun o => {o with out := o.out.push {op with args, failArgs, descr}}

theorem forwardBox_spells (b : Box) : Spells (forwardBox b) (forwardBoxScript b) := by
  refine .bind spells_get fun o => ?_
  cases o.values.lookup b with
  | some id => exact (quiet_force id).spells
  | none => exact spells_pure _

theorem forwardArg_spells (a : Operand) : Spells (forwardArg a) (forwardArgScript a) := by
  cases a with
  | box b => exact forwardBox_spells b
  | const c => exact spells_pure _

theorem relink_spells (s : Snapshot) (supply : Relinker.Supply) :
    Spells (Relinker.relink forwardBox s supply) (Relinker.relink forwardBoxScript s supply) := by
  induction s generalizing supply with
  | nil => exact spells_pure _
  | cons frame rest ih =>
    unfold Relinker.relink
    cases supply.relinker.memo.get? frame.id with
    | some chain => exact spells_pure _
    | none =>
      have hentry : ∀ a, Spells (Relinker.mapEntry forwardBox a)
          (Relinker.mapEntry forwardBoxScript a) := forwardArg_spells
      exact .bind (ih supply) fun _ => .bind (.mapM hentry) fun _ => spells_pure _

theorem forwardDescr_spells (descr : Option Descr) :
    Spells (forwardDescr descr) (forwardDescrScript descr) := by
  cases descr with
  | none => exact spells_pure none
  | some d =>
    cases d with
    | guard number snapshot =>
      refine .bind ?_ fun _ => spells_pure _
      exact .bind spells_get fun o => .bind (relink_spells _ _) fun _ =>
        .bind (spells_modify fun _ => ⟨rfl, rfl⟩) fun _ => spells_pure _
    | loop | field | size => exact spells_pure _

theorem emit_spells (op : Operation) : Spells (emit op) (emitScript op) := by
  have hfailArgs : Spells (op.failArgs.mapM (·.mapM forwardArg))
      (op.failArgs.mapM (·.mapM forwardArgScript)) := by
    cases op.failArgs with
    | none => exact spells_pure none
    | some args => exact .bind (.mapM forwardArg_spells) fun args => spells_pure (some args)
  exact .bind (.mapM forwardArg_spells) fun _ => .bind hfailArgs fun _ =>
    .bind (forwardDescr_spells op.descr) fun _ => .bind (quiet_tell _).spells fun _ =>
      spells_modify fun _ => ⟨rfl, rfl⟩

end TracePeel.Optimizer
