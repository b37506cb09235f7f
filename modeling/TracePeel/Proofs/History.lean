import TracePeel.Proofs.Peeling.Fixpoint
import TracePeel.Proofs.Unwinding

/-! Every state of a run.

The state in which a run ends says nothing about the states in between, and a run that is
refused ends in the middle of a pass. Going through a script and writing down each state that
is found on the way gives a `Walk`; the walk of what is handed on stands in it where the
operation was handed on, and an error leaves what was written down so far. A walk ends as the
code does (`walk_result`, `sendWalk_result`), so `Config.history` lists the states of a run from
the first to the one in which it ends, whatever became of it.

What holds along a walk is shown from the script. A `Contract` says how each state follows from
the one before, what is asked of an operation where it is handed on and what may be relied on
afterwards; `Assures` reads off a script what is left to show, and `Assures.along` is the
soundness of that reading. -/
namespace TracePeel.Optimizer

/-! ### Walks -/

/-- The states found on the way, in order, how it ended and in which state. -/
structure Walk (α : Type) where
  states : List Optimizer
  outcome : Except OptError α
  last : Optimizer

namespace Walk
variable {α β : Type}

def result (w : Walk α) : Except OptError α × Optimizer :=
  (w.outcome, w.last)

/-- A walk and, where it ended well, another one behind it. -/
def bind (w : Walk α) (f : α → Optimizer → Walk β) : Walk β :=
  match w.outcome with
  | .ok a => {f a w.last with states := w.states ++ (f a w.last).states}
  | .error e => ⟨w.states, .error e, w.last⟩

/-- One step. -/
def single (o : Optimizer) : Walk Unit :=
  ⟨[o], .ok (), o⟩

/-- A walk and one more step behind it, whatever the walk came to. -/
def closing (w : Walk Unit)
    (f : Except OptError Unit × Optimizer → Except OptError Unit × Optimizer) : Walk Unit :=
  ⟨w.states ++ [(f w.result).2], (f w.result).1, (f w.result).2⟩

theorem result_bind (w : Walk α) (f : α → Optimizer → Walk β) : (w.bind f).result =
    (match w.result with
      | (.ok a, o') => (f a o').result
      | (.error e, o') => (.error e, o') : Except OptError β × Optimizer) := by
  obtain ⟨states, outcome, last⟩ := w
  cases outcome <;> rfl

/-- Behind a walk that came to its end, the other one stands in full. -/
theorem states_bind_of_result {w : Walk α} {a : α} {o' : Optimizer} (h : w.result = (.ok a, o'))
    (f : α → Optimizer → Walk β) : (w.bind f).states = w.states ++ (f a o').states := by
  obtain ⟨states, outcome, last⟩ := w
  cases h
  rfl

theorem states_bind (w : Walk α) (f : α → Optimizer → Walk β) :
    w.states <+: (w.bind f).states := by
  obtain ⟨states, outcome, last⟩ := w
  cases outcome with
  | ok a => exact List.prefix_append ..
  | error e => exact List.prefix_refl _

theorem bind_assoc {γ : Type} (w : Walk α) (f : α → Optimizer → Walk β)
    (g : β → Optimizer → Walk γ) :
    (w.bind f).bind g = w.bind fun a o' => (f a o').bind g := by
  obtain ⟨states, outcome, last⟩ := w
  cases outcome with
  | error e => rfl
  | ok a =>
    unfold Walk.bind
    dsimp only
    cases (f a last).outcome with
    | error e => rfl
    | ok b => simp only [List.append_assoc]

/-- A walk ends where it began or in one of its states. -/
def Closed (w : Walk α) (o : Optimizer) : Prop :=
  w.last ∈ o :: w.states

theorem Closed.bind {w : Walk α} {f : α → Optimizer → Walk β} {o : Optimizer} (hw : w.Closed o)
    (hf : ∀ a o', (f a o').Closed o') : (w.bind f).Closed o := by
  obtain ⟨states, outcome, last⟩ := w
  cases outcome with
  | error e => exact hw
  | ok a =>
    show (f a last).last ∈ (o :: states) ++ (f a last).states
    rcases List.mem_cons.1 (hf a last) with hlast | hlast
    · rw [hlast]
      exact List.mem_append_left _ hw
    · exact List.mem_append_right _ hlast

end Walk

/-- The states found on the way through a script. What is handed on has walks of its own. -/
def Script.walk {α : Type} (behind : Operation → Optimizer → Walk Unit) :
    Script α → Optimizer → Walk α
  | .done a, o => ⟨[], .ok a, o⟩
  | .own after next, o => (Walk.single (after o)).bind fun _ o' => (next o).walk behind o'
  | .fail e, o => ⟨[], .error e, o⟩
  | .hand op next, o => (behind op o).bind fun _ o' => next.walk behind o'

/-- A walk through a script ends as the script does. -/
theorem Script.walk_result {α : Type} {behind : Operation → Optimizer → Walk Unit}
    {emit : Operation → Optimize Unit}
    (h : ∀ op o, (behind op o).result = (emit op).run.run o) (s : Script α) (o : Optimizer) :
    (s.walk behind o).result = (s.run emit).run.run o := by
  induction s generalizing o with
  | done a => rfl
  | own after next ih => exact ih o (after o)
  | fail e => rfl
  | hand op next ih =>
    rw [Script.walk, Walk.result_bind, h, Script.run, Optimizer.run_bind]
    rcases (emit op).run.run o with ⟨e | _, o'⟩
    · rfl
    · exact ih o'

/-- A walk through one script behind another. -/
theorem Script.walk_bind {α β : Type} {behind : Operation → Optimizer → Walk Unit} (s : Script α)
    (f : α → Script β) (o : Optimizer) : (s >>= f).walk behind o =
      (s.walk behind o).bind fun a o' => (f a).walk behind o' := by
  show (s.bind f).walk behind o = _
  induction s generalizing o with
  | done a => rfl
  | own after next ih =>
    rw [Script.bind, Script.walk, Script.walk, Walk.bind_assoc]
    exact congrArg _ (funext fun _ => funext fun o' => ih o o')
  | fail e => rfl
  | hand op next ih =>
    rw [Script.bind, Script.walk, Script.walk, Walk.bind_assoc]
    exact congrArg _ (funext fun _ => funext fun o' => ih o')

theorem Script.walk_closed {α : Type} {behind : Operation → Optimizer → Walk Unit}
    (h : ∀ op o, (behind op o).Closed o) (s : Script α) (o : Optimizer) :
    (s.walk behind o).Closed o := by
  induction s generalizing o with
  | done a => exact List.mem_singleton_self _
  | own after next ih => exact .bind (.tail _ (List.mem_singleton_self _)) fun _ => ih o
  | fail e => exact List.mem_singleton_self _
  | hand op next ih => exact (h op o).bind fun _ => ih

/-! ### What holds along a walk -/

/-- What is asked of an operation where it is handed on, and what may be relied on when it was
dealt with. -/
structure Contract where
  asks : Operation → Optimizer → Prop
  grants : Operation → Optimizer → Optimizer → Prop

section Assures
variable {α β : Type} {R : Optimizer → Optimizer → Prop} {C : Contract}
  {P Q : α → Optimizer → Prop} {o : Optimizer}

/-- What is left to show of a script: each of its steps leads on along `R`, each operation
handed on is one that is asked for, and where the script comes to its end, `Q` holds. -/
def Script.Assures (R : Optimizer → Optimizer → Prop) (C : Contract)
    (Q : α → Optimizer → Prop) : Script α → Optimizer → Prop
  | .done a, o => Q a o
  | .own after next, o => R o (after o) ∧ (next o).Assures R C Q (after o)
  | .fail _, _ => True
  | .hand op next, o => C.asks op o ∧ ∀ o', C.grants op o o' → next.Assures R C Q o'

theorem assures_bind {s : Script α} {f : α → Script β} {Q : β → Optimizer → Prop} :
    (s >>= f).Assures R C Q o ↔ s.Assures R C (fun a o' => (f a).Assures R C Q o') o := by
  show (s.bind f).Assures R C Q o ↔ _
  induction s generalizing o with
  | done a => exact Iff.rfl
  | own after next ih => exact and_congr_right fun _ => ih o
  | fail e => exact Iff.rfl
  | hand op next ih => exact and_congr_right fun _ => forall₂_congr fun o' _ => ih

theorem assures_lift {m : Step α} : (liftM m : Script α).Assures R C Q o ↔
    R o (m.run o).2 ∧ Q (m.run o).1 (m.run o).2 :=
  Iff.rfl

theorem assures_modify {f : Optimizer → Optimizer} {Q : PUnit → Optimizer → Prop} :
    (modify f : Script PUnit).Assures R C Q o ↔ R o (f o) ∧ Q ⟨⟩ (f o) :=
  Iff.rfl

theorem assures_modifyGet {f : Optimizer → α × Optimizer} :
    (modifyGet f : Script α).Assures R C Q o ↔ R o (f o).2 ∧ Q (f o).1 (f o).2 :=
  Iff.rfl

theorem assures_handOn {op : Operation} {Q : Unit → Optimizer → Prop} :
    (Script.handOn op).Assures R C Q o ↔ C.asks op o ∧ ∀ o', C.grants op o o' → Q () o' :=
  Iff.rfl

theorem Script.Assures.mono {s : Script α} (h : s.Assures R C P o)
    (hQ : ∀ a o', P a o' → Q a o') : s.Assures R C Q o := by
  induction s generalizing o with
  | done a => exact hQ a o h
  | own after next ih => exact ⟨h.1, ih o h.2⟩
  | fail e => trivial
  | hand op next ih => exact ⟨h.1, fun o' ho' => ih (h.2 o' ho')⟩

theorem assures_ite {c : Prop} [Decidable c] {s t : Script α} (hs : c → s.Assures R C Q o)
    (ht : ¬ c → t.Assures R C Q o) : (if c then s else t).Assures R C Q o := by
  by_cases h : c
  · rw [if_pos h]
    exact hs h
  · rw [if_neg h]
    exact ht h

theorem assures_mapM {f : α → Script β} {I : Optimizer → Prop} {l : List α}
    (step : ∀ a ∈ l, ∀ o, I o → (f a).Assures R C (fun _ o' => I o') o) (h : I o) :
    (l.mapM f).Assures R C (fun _ o' => I o') o := by
  induction l generalizing o with
  | nil => exact h
  | cons a l ih =>
    rw [List.mapM_cons, assures_bind]
    apply (step a (List.mem_cons_self ..) o h).mono
    intro b o₁ h₁
    rw [assures_bind]
    exact (ih (fun a ha => step a (.tail _ ha)) h₁).mono fun _ _ h₂ => h₂

theorem assures_forM {f : α → Script PUnit} {I : Optimizer → Prop} {l : List α}
    (step : ∀ a ∈ l, ∀ o, I o → (f a).Assures R C (fun _ o' => I o') o) (h : I o) :
    (l.forM f).Assures R C (fun _ o' => I o') o := by
  induction l generalizing o with
  | nil => exact h
  | cons a l ih =>
    show (f a >>= fun _ => l.forM f).Assures R C _ o
    rw [assures_bind]
    apply (step a (List.mem_cons_self ..) o h).mono
    intro _ o₁ h₁
    exact ih (fun a ha => step a (.tail _ ha)) h₁

/-- What is known of the code that the script spells out may be relied on where it ends. -/
theorem Script.Assures.and_ends {s : Script α} {emit : Operation → Optimize Unit}
    {E : OptError → Prop} (h : s.Assures R C P o)
    (hemit : ∀ op o o', C.grants op o o' → (emit op).run.run o = (.ok (), o'))
    (hends : Ends E (s.run emit) o Q) : s.Assures R C (fun a o' => P a o' ∧ Q a o') o := by
  induction s generalizing o with
  | done a => exact ⟨h, hends⟩
  | own after next ih => exact ⟨h.1, ih o h.2 hends⟩
  | fail e => trivial
  | hand op next ih =>
    refine ⟨h.1, fun o' ho' => ih (h.2 o' ho') ?_⟩
    rw [Script.run, ends_bind] at hends
    exact hends.of_run (hemit op o o' ho')

end Assures

/-- Each state of the walk follows along `R` from all before it, the walk ends in its last
state, and where it comes to its end, `Q` holds. -/
structure Walk.Along {α : Type} (R : Optimizer → Optimizer → Prop) (w : Walk α) (o : Optimizer)
    (Q : α → Optimizer → Prop) : Prop where
  pairwise : (o :: w.states).Pairwise R
  last : (o :: w.states).getLast? = some w.last
  ends : ∀ a, w.outcome = .ok a → Q a w.last

section Along
variable {α β : Type} {R : Optimizer → Optimizer → Prop} {o : Optimizer}

theorem Walk.along_nil {outcome : Except OptError α} {Q : α → Optimizer → Prop}
    (h : ∀ a, outcome = .ok a → Q a o) : (⟨[], outcome, o⟩ : Walk α).Along R o Q :=
  ⟨List.pairwise_singleton R o, rfl, h⟩

theorem Walk.along_single {o' : Optimizer} (h : R o o') :
    (Walk.single o').Along R o fun _ o'' => o'' = o' :=
  ⟨List.pairwise_pair.2 h, rfl, fun _ _ => rfl⟩

variable [IsPreorder Optimizer R]

/-- Every state of a walk comes before its last one. -/
theorem Walk.Along.to_last {w : Walk α} {Q : α → Optimizer → Prop} (h : w.Along R o Q) :
    ∀ x ∈ o :: w.states, R x w.last := by
  obtain ⟨front, hfront⟩ := List.getLast?_eq_some_iff.1 h.last
  have hp := h.pairwise
  rw [hfront] at hp ⊢
  intro x hx
  rcases List.mem_append.1 hx with hx | hx
  · exact (List.pairwise_append.1 hp).2.2 x hx w.last (List.mem_singleton_self _)
  · rw [List.mem_singleton.1 hx]
    exact refl_of R w.last

/-- A walk behind a walk. -/
theorem Walk.Along.bind {w : Walk α} {f : α → Optimizer → Walk β} {P : α → Optimizer → Prop}
    {Q : β → Optimizer → Prop} (hw : w.Along R o P)
    (hf : ∀ a o', P a o' → (f a o').Along R o' Q) : (w.bind f).Along R o Q := by
  have hto := hw.to_last
  obtain ⟨states, outcome, last⟩ := w
  cases outcome with
  | error e => exact ⟨hw.pairwise, hw.last, nofun⟩
  | ok a =>
    obtain ⟨hpairwise, hlast, hends⟩ := hf a last (hw.ends a rfl)
    obtain ⟨hfirst, hrest⟩ := List.pairwise_cons.1 hpairwise
    refine ⟨?_, ?_, hends⟩
    · show ((o :: states) ++ (f a last).states).Pairwise R
      rw [List.pairwise_append]
      exact ⟨hw.pairwise, hrest, fun x hx y hy => trans_of R (hto x hx) (hfirst y hy)⟩
    · show ((o :: states) ++ (f a last).states).getLast? = some (f a last).last
      rw [List.getLast?_append, show (o :: states).getLast? = some last from hw.last,
        ← hlast, List.getLast?_cons]
      cases (f a last).states.getLast? <;> rfl

/-- One more step behind a walk, whatever it came to. -/
theorem Walk.Along.closing {w : Walk Unit}
    {f : Except OptError Unit × Optimizer → Except OptError Unit × Optimizer}
    {P Q : Unit → Optimizer → Prop} (hw : w.Along R o P) (hf : ∀ r, R r.2 (f r).2)
    (hok : ∀ r, (f r).1 = .ok () → r.1 = .ok ()) (hQ : ∀ o', P () o' → Q () (f (.ok (), o')).2) :
    (w.closing f).Along R o Q := by
  refine ⟨?_, ?_, fun _ hend => ?_⟩
  · show ((o :: w.states) ++ [(f w.result).2]).Pairwise R
    rw [List.pairwise_append]
    refine ⟨hw.pairwise, List.pairwise_singleton R _, fun x hx y hy => ?_⟩
    rw [List.mem_singleton.1 hy]
    exact trans_of R (hw.to_last x hx) (hf w.result)
  · show ((o :: w.states) ++ [(f w.result).2]).getLast? = _
    rw [List.getLast?_append]
    rfl
  · have hdone : w.outcome = .ok () := hok w.result hend
    have hresult : w.result = (.ok (), w.last) := by rw [Walk.result, hdone]
    show Q () (f w.result).2
    rw [hresult]
    exact hQ w.last (hw.ends () hdone)

/-- What a script assures holds along its walks, if what is handed on keeps the contract. -/
theorem Script.Assures.along {C : Contract} {behind : Operation → Optimizer → Walk Unit}
    (hbehind : ∀ op o, C.asks op o → (behind op o).Along R o fun _ o' => C.grants op o o')
    {s : Script α} {Q : α → Optimizer → Prop} (h : s.Assures R C Q o) :
    (s.walk behind o).Along R o Q := by
  induction s generalizing o with
  | done a =>
    refine Walk.along_nil fun b hb => ?_
    cases hb
    exact h
  | own after next ih =>
    refine (Walk.along_single h.1).bind fun _ o' ho' => ?_
    rw [ho']
    exact ih o h.2
  | fail e => exact Walk.along_nil nofun
  | hand op next ih => exact (hbehind op o h.1).bind fun _ o' ho' => ih (h.2 o' ho')

end Along

/-! ### The whole chain -/

/-- What is sent to a stage, from where its pass is taken out of its place to where it is put
back. -/
def stageWalk (behind : Operation → Optimizer → Walk Unit) (pass : Pass) (stage : Nat)
    (op : Operation) (o : Optimizer) : Walk Unit :=
  ((Walk.single (o.running stage)).bind fun _ o' =>
    (passScript pass stage op).walk behind o').closing (o.restored stage pass)

/-- The states found while an operation goes through the chain, with so many stages still in
front of it. -/
def sendWalk : Nat → Operation → Optimizer → Walk Unit
  | 0, op, o => (emitScript op).walk (fun _ o => ⟨[], .ok (), o⟩) o
  | left + 1, op, o =>
    let stage := o.chain.size - (left + 1)
    match o.chain[stage]?.bind (·.pass) with
    | none => ⟨[], .error { cause := .reenteredPass stage }, o⟩
    | some pass => stageWalk (sendWalk left) pass stage op o

theorem sendWalk_result (left : Nat) (op : Operation) (o : Optimizer) :
    (sendWalk left op o).result = (send left op).run.run o := by
  induction left generalizing op o with
  | zero =>
    have hemit : liftM (emit op) = (emitScript op).run fun _ => pure () :=
      (emit_spells op).run fun _ => pure ()
    show _ = (liftM (emit op) : Optimize Unit).run.run o
    rw [hemit]
    exact Script.walk_result (fun _ _ => rfl) _ o
  | succ left ih =>
    have hget : (get : Optimize Optimizer).run.run o = (.ok o, o) := rfl
    rw [send, Optimizer.run_bind, hget]
    unfold sendWalk
    dsimp only
    generalize o.chain.size - (left + 1) = stage
    cases o.chain[stage]?.bind (·.pass) with
    | none => rfl
    | some pass =>
      have hrun := Script.walk_result ih (passScript pass stage op) (o.running stage)
      dsimp only
      rw [run_restored _ pass stage o fun outcome _ => by cases outcome <;> rfl,
        (runPass_enacts pass stage op).run, ← hrun]
      rfl

/-- Where the walk came to its end, the operation was dealt with. -/
theorem send_run {left : Nat} {op : Operation} {o : Optimizer}
    (h : (sendWalk left op o).outcome = .ok ()) :
    (send left op).run.run o = (.ok (), (sendWalk left op o).last) := by
  rw [← sendWalk_result, Walk.result, h]

theorem sendWalk_closed (left : Nat) (op : Operation) (o : Optimizer) :
    (sendWalk left op o).Closed o := by
  induction left generalizing op o with
  | zero =>
    have hwritten : ∀ (_ : Operation) (o : Optimizer), (⟨[], .ok (), o⟩ : Walk Unit).Closed o :=
      fun _ o => List.mem_singleton_self o
    exact Script.walk_closed hwritten (emitScript op) o
  | succ left ih =>
    unfold sendWalk
    dsimp only
    split
    next => exact List.mem_singleton_self o
    next => exact .tail _ (List.mem_append_right _ (List.mem_singleton_self _))

/-! ### A whole run -/

def setUpAllScript : Script Unit := do
  (List.range (← get).chain.size).forM fun stage => do
    if ((← get).chain[stage]?.bind (·.pass)).isNone then .refuse (.missingPass stage)
    setUp stage

/-- What a run does: it sends the operations one after the other. -/
def runScript : Script Unit := do
  setUpAllScript
  let ops := (← get).pending
  modify fun o => {o with pending := []}
  ops.forM .handOn

theorem quiet_setUp (stage : Nat) : Quiet (setUp stage) := by
  refine .bind quiet_get fun o => ?_
  split
  · exact Peel.quiet_modifyNotes stage _
  · exact quiet_pure ()

theorem setUpAll_enacts : Enacts (fun _ => setUpAll) setUpAllScript :=
  .bind enacts_get fun _ => .forM fun stage => .bind enacts_get fun _ =>
    .ite (.bind (enacts_refuse nofun) fun _ => (quiet_setUp stage).spells)
      (quiet_setUp stage).spells

theorem run_enacts : Enacts (fun emit => do
    setUpAll
    let ops := (← get).pending
    modify fun o => {o with pending := []}
    ops.forM emit) runScript :=
  .bind setUpAll_enacts fun _ => .bind enacts_get fun _ =>
    .bind (enacts_modify fun _ => ⟨rfl, rfl⟩) fun _ => .forM enacts_hand

end Optimizer

namespace Config
open Optimizer

/-- The walk of a run over the trace. -/
def walk (c : Config) (t : Trace) : Walk Unit :=
  runScript.walk (fun op o => sendWalk o.chain.size op o) (c.optimizer t)

/-- The states of a run over the trace, one after the other. -/
def history (c : Config) (t : Trace) : List Optimizer :=
  c.optimizer t :: (c.walk t).states

theorem walk_result (c : Config) (t : Trace) :
    (c.walk t).result = run.run.run (c.optimizer t) := by
  have hrun : run = runScript.run (sendTo 0) := run_enacts.run (sendTo 0)
  rw [hrun]
  apply Script.walk_result
  intro op o
  exact sendWalk_result o.chain.size op o

theorem walk_last (c : Config) (t : Trace) : (c.walk t).last = c.ending t :=
  congrArg Prod.snd (c.walk_result t)

/-- Once the passes are set up, the operations are sent one after the other. -/
theorem history_eq (c : Config) (t : Trace) : ∃ front, c.history t = front ++ c.begin t ::
    ((t.ops.forM Script.handOn).walk (fun op o => sendWalk o.chain.size op o)
      (c.begin t)).states := by
  set behind : Operation → Optimizer → Walk Unit := fun op o => sendWalk o.chain.size op o
  have hemit : ∀ op o, (behind op o).result = (sendTo 0 op).run.run o :=
    fun op o => sendWalk_result o.chain.size op o
  have hsetUp : (setUpAllScript.walk behind (c.optimizer t)).result =
      (.ok (), {c.optimizer t with chain := (c.chain t).toArray}) := by
    rw [Script.walk_result hemit, ← setUpAll_enacts.run (sendTo 0), setUpAll_run]
  refine ⟨c.optimizer t :: (setUpAllScript.walk behind (c.optimizer t)).states ++
    [{c.optimizer t with chain := (c.chain t).toArray}], ?_⟩
  unfold history walk runScript
  rw [Script.walk_bind, Walk.states_bind_of_result hsetUp, List.append_assoc]
  rfl

/-- The states between the operations of the trace are among those of the run. -/
theorem after_mem_history (c : Config) (t : Trace) (k : Nat) : c.after t k ∈ c.history t := by
  obtain ⟨front, hhistory⟩ := c.history_eq t
  set behind : Operation → Optimizer → Walk Unit := fun op o => sendWalk o.chain.size op o
  set first := ((t.ops.take k).forM Script.handOn).walk behind (c.begin t)
  have hops : t.ops.forM Script.handOn = (t.ops.take k).forM Script.handOn >>= fun _ =>
      (t.ops.drop k).forM Script.handOn :=
    calc t.ops.forM Script.handOn
        = (t.ops.take k ++ t.ops.drop k).forM Script.handOn := by rw [List.take_append_drop]
      _ = _ := List.forM_append
  have hfirst : first.states <+: ((t.ops.forM Script.handOn).walk behind (c.begin t)).states := by
    rw [hops, Script.walk_bind]
    exact Walk.states_bind ..
  have hlast : first.last = c.after t k := by
    have hsent : (t.ops.take k).forM (sendTo 0) =
        ((t.ops.take k).forM Script.handOn).run (sendTo 0) :=
      (Enacts.forM enacts_hand).run (sendTo 0)
    rw [after, hsent]
    exact congrArg Prod.snd (Script.walk_result (fun op o => sendWalk_result o.chain.size op o) _ _)
  have hclosed : first.last ∈ c.begin t :: first.states :=
    Script.walk_closed (fun op o => sendWalk_closed o.chain.size op o) _ _
  rw [hlast] at hclosed
  rw [hhistory]
  apply List.mem_append_right
  rcases List.mem_cons.1 hclosed with hmem | hmem
  · rw [hmem]
    exact List.mem_cons_self ..
  · exact .tail _ (hfirst.subset hmem)

end Config
end TracePeel
