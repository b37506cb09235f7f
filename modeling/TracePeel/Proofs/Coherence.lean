import TracePeel.Proofs.Peeling.Marking
import TracePeel.Proofs.Tidying

/-! The table is coherent in every state of a run.

Peeling writes little to the table by itself: it meets and forces values, marks them, and keeps
its notes, all of which is safe. What it hands on, the operations of the trace in the preamble
and their renamed copies in the list that goes round, has to come next where it is handed on.
That is known from the walk of the source up to there: its operations fit, and no box is
produced twice. So the passes behind keep their contract (`serves_behind`), each state of a run
follows from those before it, and a run that is refused keeps what it had come to.

`tables_cohere` says it of all states of a run over a trace, from the first to the one in which
the run ends. -/
namespace TracePeel

namespace Peel
open Optimizer

/-! ### What peeling does by itself -/

theorem forceAll_safe (args : List Operand) : (forceAllScript args).Safe :=
  .mapM fun a => .bind (safe_valueOf a) fun id => safe_force id

theorem markFromStart_safe (inputs : List Box) (preamble : List Operation) :
    (markFromStartScript inputs preamble).Safe := by
  have hmark : (liftM (modifyValues (·.markFromStart)) : Script Unit).Safe :=
    safe_lift (fun _ h => h.values.markFromStart) fun _ => rfl
  exact .bind (.forM fun _ => .bind (safe_valueOf _) fun _ => safe_pure _) fun _ =>
    .bind hmark fun _ => .bind safe_get fun _ => safe_pure _

theorem capture_safe (args : List Operand) : (captureScript args).Safe :=
  .bind (forceAll_safe args) fun _ => .bind safe_get fun _ =>
    .bind (safe_modify (fun _ => rfl) fun _ => rfl) fun _ => .bind (safe_tell _) fun _ =>
      safe_pure _

theorem nextInput_safe (inputs : List Box) (work : List Box) :
    (nextInputScript inputs work).Safe := by
  induction work with
  | nil => exact safe_pure none
  | cons b rest ih =>
    refine .bind safe_get fun o => ?_
    cases o.values.lookup b with
    | none => exact ih
    | some id =>
      exact .bind (safe_slot id) fun _ =>
        .ite (.bind (safe_force id) fun _ => .ite ih (safe_pure _)) ih

theorem takeJump_safe : takeJumpScript.Safe := by
  refine .bind safe_get fun o => ?_
  cases o.out.back? with
  | none => exact safe_refuse _
  | some jump =>
    exact .bind (safe_modify (fun _ => rfl) fun _ => rfl) fun _ =>
      .ite (safe_pure jump) (safe_refuse _)

section
variable (stage : Nat)

theorem safe_notes : (liftM (notes stage) : Script Peeling).Safe :=
  safe_still (fun _ => rfl) fun _ => rfl

theorem safe_modifyNotes (f : Peeling → Peeling) :
    (liftM (modifyNotes stage f) : Script Unit).Safe :=
  safe_still (fun _ => rfl) fun _ => rfl

theorem safe_renameResult (result : Option Box) :
    (liftM (renameResult stage result) : Script (Option Box)).Safe := by
  cases result with
  | none => exact safe_still (fun _ => rfl) fun _ => rfl
  | some old => exact safe_still (fun _ => rfl) fun _ => rfl

theorem safe_renameDescr (descr : Option Descr) :
    (liftM (renameDescr stage descr) : Script (Option Descr)).Safe := by
  unfold renameDescr
  split
  · exact safe_still (fun _ => rfl) fun _ => rfl
  · exact safe_still (fun _ => rfl) fun _ => rfl

theorem nextOf_safe (b : Box) : (nextOfScript stage b).Safe := by
  refine .bind (safe_notes stage) fun n => ?_
  cases n.next.get? b with
  | some a => exact safe_pure a
  | none => exact safe_refuse _

theorem nextArg_safe (a : Operand) : (nextArgScript stage a).Safe := by
  cases a with
  | box b => exact nextOf_safe stage b
  | const c => exact safe_pure _

theorem jumpArgs_safe (inputs : List Box) : (jumpArgsScript stage inputs).Safe :=
  .mapM fun b => .bind (nextOf_safe stage b) fun next =>
    .bind (safe_valueOf next) fun id => safe_force id

theorem rename_safe (inputs : List Box) (op : Operation) : (renameScript stage inputs op).Safe := by
  have hfailArgs : Script.Safe (op.failArgs.mapM (·.mapM (nextArgScript stage))) := by
    cases op.failArgs with
    | none => exact safe_pure none
    | some args => exact .bind (.mapM (nextArg_safe stage)) fun args => safe_pure (some args)
  exact .bind (.mapM (nextArg_safe stage)) fun _ => .bind hfailArgs fun _ =>
    .bind (safe_renameResult stage op.result) fun _ =>
      .bind (safe_renameDescr stage op.descr) fun _ => .bind safe_get fun _ =>
        .ite (.bind (jumpArgs_safe stage inputs) fun _ => safe_pure _) (safe_pure _)

theorem addInputs_safe (fuel : Nat) (inputs : List Box) (args : List Operand) (work : List Box)
    (scanned : Nat) : (addInputsScript stage fuel inputs args work scanned).Safe := by
  induction fuel generalizing inputs args work scanned with
  | zero => exact safe_pure (inputs, args)
  | succ fuel ih =>
    refine .bind (nextInput_safe inputs work) fun input? => ?_
    cases input? with
    | none => exact safe_pure (inputs, args)
    | some found =>
      exact .bind (nextOf_safe stage found.1) fun next => .bind (safe_valueOf next) fun id =>
        .bind (safe_force id) fun a => .bind (safe_tell _) fun _ => .bind safe_get fun o =>
          ih _ _ _ _

theorem fixUp_safe (inputs : List Box) : (fixUpScript stage inputs).Safe :=
  .bind takeJump_safe fun _ => .bind safe_get fun _ =>
    .bind (addInputs_safe stage _ _ _ _ _) fun _ => .bind (safe_count _) fun _ =>
      .bind (safe_modify (fun _ => rfl) fun _ => rfl) fun _ => safe_pure _

theorem enter_safe (inputs : List Box) (args : List Operand) (preamble : List Operation) :
    (enterScript stage inputs args preamble).Safe := by
  have hrest : Script.Safe (do
      modifyNotes stage fun n => {n with next := .ofList (inputs.zip args), relinker := .copying}
      let fromStart ← markFromStartScript inputs preamble
      let loopInputs := distinctBoxes (← forceAllScript args)
      tell (.peeling fromStart loopInputs.length)
      pure loopInputs) :=
    .bind (safe_modifyNotes stage _) fun _ => .bind (markFromStart_safe inputs preamble) fun _ =>
      .bind (forceAll_safe args) fun _ => .bind (safe_tell _) fun _ => safe_pure _
  exact .ite (.bind (safe_refuse _) fun _ => hrest) hrest

end
end Peel

namespace Optimizer

theorem safe_setUp (stage : Nat) : (liftM (setUp stage) : Script Unit).Safe := by
  have hkeeps : ∀ o : Optimizer, Yields (setUp stage) o fun _ o' =>
      o'.values = o.values ∧ o'.known = o.known := by
    intro o
    unfold setUp
    rw [yields_bind, yields_get]
    split
    · exact ⟨rfl, rfl⟩
    · exact ⟨rfl, rfl⟩
  exact safe_still (fun o => (hkeeps o).1) fun o => (hkeeps o).2

theorem setUpAll_safe : setUpAllScript.Safe :=
  .bind safe_get fun _ => .forM fun stage => .bind safe_get fun _ =>
    .ite (.bind (safe_refuse _) fun _ => safe_setUp stage) (safe_setUp stage)

end Optimizer

/-! ### The recorded operations once more -/

namespace Peel
open Optimizer

section
variable {c : Config} {T : FrameTable} {base defined walked inputs loopInputs : List Box}
  {rest : List Stage} {n : Peeling} {o : Optimizer} {op : Operation}

/-- The recorded operations in front of the jump are handed on, each as the next iteration runs
it. -/
theorem replay_assures (hrest : rest.map (·.pass) = c.behind.map some)
    (h : Replaying T base defined walked rest n o) (ho : o.Tidy) {nextGuard nextBox : Nat}
    {ops : List Operation} (hops : Coming T walked nextGuard nextBox ops) :
    (replayScript 0 loopInputs ops).Assures Upholds (serving c.behind) (fun _ o' =>
      o'.Tidy ∧ o'.token = o.token ∧ ∃ T' defined' n',
        Replaying T' base defined' (walked ++ results ops) rest n' o') o := by
  induction ops generalizing T defined walked n o with
  | nil => exact ⟨ho, rfl, T, defined, n, by simpa using h⟩
  | cons op ops ih =>
    have hop := hops.head
    show Script.Assures _ _ _ ((do
      let op ← renameScript 0 loopInputs op
      tell (.inlined op.opcode)
      .handOn op) >>= fun _ => replayScript 0 loopInputs ops) o
    rw [assures_bind, assures_bind]
    apply ((rename_safe 0 loopInputs op).ends (rename_enacts 0 loopInputs op) ho
      (fun _ => pure ()) (rename_open_ends (E := fun _ => True) h.notes h.names hop.ordinary
        hop.fits.reads hop.neat.frames hop.fresh)).mono
    intro op' o₁ hrenamed
    obtain ⟨ho₁, T₁, n₁, hT₁, hr⟩ := hrenamed
    rw [assures_told]
    have hcomes := hr.comes h hop
    have hunmet : Unmet op' o₁ := by
      intro r hr'
      rw [hr.same]
      exact h.working.built.table.index_of_not_defined (hcomes.fits.produced r hr').2.2
    rw [assures_handOn]
    refine ⟨serving_asks (ho₁.congr rfl rfl) (hr.at_.behind hrest) hcomes.fits hunmet,
      fun o₂ hgranted => ?_⟩
    obtain ⟨ho₂, hs⟩ := hgranted
    obtain ⟨T₂, hT₂, h₂, -⟩ := h.step hT₁ hr hop hs
    have htoken : o₂.token = o.token := by rw [hs.keeps.token, hr.same]
    apply (ih h₂ ho₂ (hops.tail hT₂)).mono
    intro _ o' hdone
    obtain ⟨ho', htoken', T', defined', n', h'⟩ := hdone
    exact ⟨ho', htoken'.trans htoken, T', defined', n',
      {h' with names := h'.names.congr fun _ => mem_append_results_cons.symm}⟩

/-- The jump is handed on with what the inputs are in the next iteration. -/
theorem replayJump_assures {body : List Operation} {jump : Operation}
    (hrest : rest.map (·.pass) = c.behind.map some)
    (h : Replaying T base defined (inputs ++ results body) rest n o) (ho : o.Tidy)
    (hjump : Closes o.token inputs body jump) (hloop : loopInputs ⊆ inputs ++ results body) :
    (replayScript 0 loopInputs [jump]).Assures Upholds (serving c.behind) (fun _ o' => o'.Tidy)
      o := by
  show Script.Assures _ _ _ ((do
    let op ← renameScript 0 loopInputs jump
    tell (.inlined op.opcode)
    .handOn op) >>= fun _ => pure PUnit.unit) o
  rw [assures_bind, assures_bind]
  apply ((rename_safe 0 loopInputs jump).ends (rename_enacts 0 loopInputs jump) ho
    (fun _ => pure ()) (renameJump_ends (E := fun _ => True) h hjump hloop)).mono
  intro jump' asked hrenamed
  obtain ⟨hasked, T₁, n₁, jump₀, o₁, -, hr, -, hat, -, hjump', -, hfits⟩ := hrenamed
  have hunmet : Unmet jump' asked := by
    intro r hr'
    rw [hjump', show Operation.result _ = none from (hr.unproduced hjump.result).1] at hr'
    cases hr'
  rw [assures_told, assures_handOn]
  exact ⟨serving_asks (hasked.congr rfl rfl) (hat.behind hrest) hfits hunmet,
    fun _ hgranted => hgranted.1⟩

/-- The preamble is closed and the list that goes round written. -/
theorem closePreamble_assures {body : List Operation} {jump : Operation} {started : Peeling}
    {entered : Optimizer} (hrest : rest.map (·.pass) = c.behind.map some) (ho : o.Tidy)
    (hat : At rest n o) (hrecorded : n.recorded = body ++ [jump])
    (hturn : (turn 0 o.inputs jump.args).run.run o = (.ok loopInputs, entered))
    (h : Replaying T base (inputs ++ results body) inputs rest started entered)
    (hjump : Closes entered.token inputs body jump) {nextGuard nextBox : Nat}
    (hbody : Coming T inputs nextGuard nextBox body) (hloop : loopInputs ⊆ base)
    (hbase : base ⊆ inputs ++ results body) :
    (closePreambleScript 0 jump).Assures Upholds (serving c.behind) (fun _ _ => True) o := by
  unfold closePreambleScript
  -- The turn.
  rw [assures_bind]
  apply ((capture_safe jump.args).yields (capture_spells jump.args) ho
    (capture_keeps hat jump.args).and_run).mono
  intro preamble o₁ hcaptured
  obtain ⟨ho₁, ⟨hat₁, hinputs⟩, hcapture⟩ := hcaptured
  rw [assures_step hat₁.notes_run (refl_of Upholds o₁),
    assures_step (hat₁.modifyNotes_run _) (upholds_congr rfl rfl), assures_see, hrecorded]
  set o₂ : Optimizer := {o₁ with chain := (⟨none, {n with recorded := []}⟩ :: rest).toArray}
  have hends : Ends (fun _ => False) (enter 0 o₂.inputs jump.args preamble) o₂ fun first o' =>
      first = loopInputs ∧ o' = entered := by
    rw [← hinputs, turn_eq hcapture hat₁] at hturn
    unfold Ends
    rw [hturn]
    exact ⟨rfl, rfl⟩
  have ho₂ : o₂.Tidy := ho₁.congr rfl rfl
  rw [assures_bind]
  apply ((enter_safe 0 o₂.inputs jump.args preamble).ends (enter_enacts 0 _ _ _) ho₂
    (fun _ => pure ()) hends).mono
  intro first o₃ hentered
  obtain ⟨ho₃, rfl, rfl⟩ := hentered
  -- The list that goes round.
  have hall : replayScript 0 first (body ++ [jump]) =
      replayScript 0 first body >>= fun _ => replayScript 0 first [jump] := List.forM_append
  rw [assures_bind, hall, assures_bind]
  apply (replay_assures hrest h ho₃ hbody).mono
  intro _ o₄ hreplayed
  obtain ⟨ho₄, htoken, T₄, defined₄, n₄, h₄⟩ := hreplayed
  rw [← htoken] at hjump
  apply (replayJump_assures hrest h₄ ho₄ hjump (List.Subset.trans hloop hbase)).mono
  intro _ o₅ ho₅
  rw [assures_bind]
  apply (assures_of_nothing (fixUp_safe 0 first o₅ ho₅)).mono
  intro inputs' o₆ ho₆
  rw [assures_modify]
  exact ⟨upholds_congr rfl rfl, trivial⟩

end
end Peel

/-! ### The operations of the trace -/

namespace Optimizer
variable {c : Config} {t : Trace} {front back : List Operation} {op : Operation} {o : Optimizer}

/-- The operations of the trace are sent to the whole chain, one after the other. -/
def sending (c : Config) (t : Trace) : Contract where
  asks op o := o.Tidy ∧ ∃ front back, t.ops = front ++ op :: back ∧
    (front.forM (sendTo 0)).run.run (c.begin t) = (.ok ⟨⟩, o)
  grants op o o' := o'.Tidy ∧ (sendTo 0 op).run.run o = (.ok (), o')

/-- Where an operation of the trace is sent, all passes stand in their places, and it fits behind
those in front of it and produces what was not met. -/
theorem sent_next (ht : t.Drawn) (hops : t.ops = front ++ op :: back)
    (hrun : (front.forM (sendTo 0)).run.run (c.begin t) = (.ok ⟨⟩, o)) :
    Ready c o ∧ o.token = t.token ∧ (∃ defined, op.Fits defined) ∧ Unmet op o := by
  have hlt : front.length < t.ops.length := by simp [hops]
  have hfront : t.ops.take front.length = front := by rw [hops, List.take_left]
  have hop : t.ops[front.length]? = some op := by simp [hops]
  have hafter : c.after t front.length = o := by rw [Config.after, hfront, hrun]
  obtain ⟨body, last, hsplit⟩ := Trace.exists_split ht.verified
  have hopen : ∀ op' ∈ t.ops.take front.length, c.peel = true → op'.closes t.token = false := by
    intro op' hop' _
    have hle : front.length ≤ t.ops.length - 1 := by omega
    refine closes_of_mem hsplit ?_ _
    rw [← hsplit.take_front]
    exact List.take_subset_take_left _ hle hop'
  rw [← hfront] at hrun
  have hbefore := before_of_run ht hopen hrun _ (Nat.le_refl _) (Nat.le_of_lt hlt)
  have hunmet := (front_of_run ht hopen hrun _ (Nat.le_refl _) (Nat.le_of_lt hlt)).unmet ht hop
  rw [← hafter]
  exact ⟨hbefore.ready, hbefore.token, ⟨_, Trace.fits_at ht.verified hop⟩, hunmet⟩

/-- An operation that closes the loop is the last one. -/
theorem eq_nil_of_closes (ht : t.Drawn) (hops : t.ops = front ++ op :: back)
    (hclose : op.closes t.token = true) : back = [] := by
  obtain ⟨body, last, hsplit⟩ := Trace.exists_split ht.verified
  rcases List.eq_nil_or_concat back with hnil | ⟨back', last', rfl⟩
  · exact hnil
  · have hbody : (front ++ op :: back') ++ [last'] = body ++ [last] := by
      rw [← hsplit.ops, hops]
      simp
    have hop : op ∈ body := by
      rw [← (List.append_inj' hbody rfl).1]
      simp
    rw [closes_of_mem hsplit hop] at hclose
    cases hclose

/-- At the jump that closes the loop the preamble is closed. -/
theorem closing_assures (ht : t.Drawn) (hpeel : c.peel = true) (hops : t.ops = front ++ op :: back)
    (hrun : (front.forM (sendTo 0)).run.run (c.begin t) = (.ok ⟨⟩, o)) (ho : o.Tidy)
    (hclose : op.closes t.token = true) :
    (Peel.closePreambleScript 0 op).Assures Upholds (serving c.behind) (fun _ _ => True)
      (o.running 0) := by
  obtain rfl := eq_nil_of_closes ht hops hclose
  have hfront : t.ops.take (t.ops.length - 1) = front := by simp [hops]
  have hsent : ((t.ops.take (t.ops.length - 1)).forM (sendTo 0)).run.run (c.begin t) =
      (.ok ⟨⟩, o) := by rw [hfront, hrun]
  have hafter : c.after t (t.ops.length - 1) = o := by rw [Config.after, hsent]
  obtain ⟨T, body, jump, base, loopInputs, n, entered, h⟩ :=
    Config.exists_opened ht hpeel ⟨op, by simp [hops], hclose⟩ (by rw [hsent])
  obtain ⟨rfl, hlast⟩ := List.append_inj' (hops.symm.trans h.split.ops) rfl
  obtain rfl := List.singleton_inj.1 hlast
  obtain ⟨nextGuard, hcoming⟩ := h.coming
  have hchain := h.chain
  have hinputs := h.inputs
  have hturn := h.turn
  rw [hafter] at hchain hinputs hturn
  rw [← hinputs] at hturn
  have htidy : (o.running 0).Tidy := ho.congr rfl rfl
  rw [running_zero hchain] at htidy ⊢
  exact Peel.closePreamble_assures (map_pass_stagesBehind c) htidy rfl h.split.ops hturn
    h.sparing.toReplaying h.closes hcoming h.loop h.subset

/-- An operation of the trace goes through the whole chain. -/
theorem sendWalk_along (ht : t.Drawn) (hasks : (sending c t).asks op o) :
    (sendWalk o.chain.size op o).Along Upholds o fun _ o' => (sending c t).grants op o o' := by
  obtain ⟨ho, front, back, hops, hrun⟩ := hasks
  obtain ⟨hready, htoken, ⟨defined, hfits⟩, hunmet⟩ := sent_next ht hops hrun
  suffices h : (sendWalk o.chain.size op o).Along Upholds o fun _ _ => True from
    ⟨h.pairwise, h.last, fun _ hend => ⟨h.tidy ho, send_run hend⟩⟩
  cases hpeel : c.peel with
  | false =>
    have hchain : o.chain.toList.map (·.pass) = [] ++ c.behind.map some := by
      rw [Ready, passes_eq, hpeel] at hready
      exact hready
    have hsize : o.chain.size = c.behind.length := by
      simpa using congrArg List.length hchain
    rw [hsize]
    have h := serves_behind c op o (serving_asks ho hchain hfits hunmet)
    exact ⟨h.pairwise, h.last, fun _ _ => trivial⟩
  | true =>
    obtain ⟨notes, rest, hchain, hrest⟩ := hready.eq_cons hpeel
    have hsize : o.chain.size = c.behind.length + 1 := by
      have := congrArg List.length hrest
      simpa [hchain] using this
    have hpass : o.chain[0]?.bind (·.pass) = some .peel := by
      rw [hchain]
      rfl
    have hat : At rest notes (o.running 0) := by
      rw [At, running_zero hchain]
    rw [hsize]
    unfold sendWalk
    simp only [hsize, Nat.sub_self, hpass]
    apply stageWalk_along (serves_behind c)
    show (Peel.stepScript 0 op).Assures _ _ _ _
    unfold Peel.stepScript
    rw [assures_see]
    refine assures_ite (fun hclose => ?_) fun _ => ?_
    · exact closing_assures ht hpeel hops hrun ho (htoken ▸ hclose)
    · rw [assures_handOn]
      exact ⟨serving_asks (ho.congr rfl rfl) (hat.behind hrest) hfits hunmet,
        fun _ _ => trivial⟩

/-- The operations that are left are sent one after the other. -/
theorem sendAll_assures {ops : List Operation} (front : List Operation)
    (hops : t.ops = front ++ ops) (ho : o.Tidy)
    (hrun : (front.forM (sendTo 0)).run.run (c.begin t) = (.ok ⟨⟩, o)) :
    (ops.forM Script.handOn).Assures Upholds (sending c t) (fun _ _ => True) o := by
  induction ops generalizing front o with
  | nil => trivial
  | cons op ops ih =>
    show Script.Assures _ _ _ (Script.handOn op >>= fun _ => ops.forM Script.handOn) o
    rw [assures_bind, assures_handOn]
    refine ⟨⟨ho, front, ops, hops, hrun⟩, fun o' hgranted => ?_⟩
    obtain ⟨ho', hsent⟩ := hgranted
    apply ih (front ++ [op]) (by simp [hops]) ho'
    exact run_forM_append.2 ⟨o, hrun, run_bind_ok.2 ⟨(), o', hsent, rfl⟩⟩

theorem tidy_optimizer (c : Config) (t : Trace) : (c.optimizer t).Tidy := by
  refine ⟨⟨nofun, nofun, nofun, fun id b hb => ?_⟩, nofun⟩
  rw [Values.slot_of_not_lt (Nat.not_lt_zero id)] at hb
  cases hb

/-- A whole run. -/
theorem run_assures (c : Config) (t : Trace) :
    runScript.Assures Upholds (sending c t) (fun _ _ => True) (c.optimizer t) := by
  have hsetUp : Ends (fun _ => False) setUpAll (c.optimizer t) fun _ o' =>
      o' = {c.optimizer t with chain := (c.chain t).toArray} := by
    unfold Ends
    rw [setUpAll_run]
  unfold runScript
  rw [assures_bind]
  apply (setUpAll_safe.ends setUpAll_enacts (tidy_optimizer c t) (fun _ => pure ()) hsetUp).mono
  intro _ o hset
  obtain ⟨ho, rfl⟩ := hset
  rw [assures_see, assures_bind, assures_modify]
  refine ⟨upholds_congr rfl rfl, ?_⟩
  exact sendAll_assures [] (o := c.begin t) rfl (ho.congr rfl rfl) rfl

end Optimizer

namespace Config
open Optimizer

theorem history_along {c : Config} {t : Trace} (ht : t.Drawn) :
    (c.walk t).Along Upholds (c.optimizer t) fun _ _ => True :=
  (run_assures c t).along fun _ _ => sendWalk_along ht

/-- In every state of a run over a trace the table is coherent, and what it says of constants and
of what boxes stand for is said by the tables of all later states. Among these states are those
between the operations of the trace, and the last one is that in which the run ends, well or
refused. -/
theorem tables_cohere {c : Config} {t : Trace} (ht : t.Drawn) :
    (∀ k, c.after t k ∈ c.history t) ∧ (c.history t).getLast? = some (c.ending t) ∧
      (∀ o ∈ c.history t, o.Coherent) ∧
      (c.history t).Pairwise fun o o' => o.values.Lasts o'.values := by
  have h := history_along (c := c) ht
  have htidy : ∀ o ∈ c.history t, o.Tidy := by
    intro o ho
    rcases List.mem_cons.1 ho with rfl | ho
    · exact tidy_optimizer c t
    · exact ((List.pairwise_cons.1 h.pairwise).1 o ho (tidy_optimizer c t)).1
  refine ⟨c.after_mem_history t, ?_, fun o ho => (htidy o ho).coherent, ?_⟩
  · rw [history, h.last, walk_last]
  · apply h.pairwise.imp_of_mem
    intro o o' ho _ hupholds
    exact (hupholds (htidy o ho)).2

/-- Holds an object back in each iteration, and has a guard that fails in the second one. -/
def faltering : Trace :=
  let (i, t) := (Trace.start "faltering").input .int
  let (held, t) := t.recordWithDescr .new [] (some .ref) (.size "Cell")
  let cell : Operand := held.elim (.const (.ref 0)) .box
  let t := t.append (.setField cell "value" (.box i))
  let t := t.recordGuard .guardFalse [.box i] [.box i]
  let (next, t) := t.record .intAdd [.box i, .const (.int 1)] .int
  t.close [.box next]

/-- Where the run is refused, the objects of both iterations are held back, under different
boxes, and the integer is still the zero that the guard took it for the first time. -/
theorem faltering_coheres : (optimizeLoop {} faltering).isOk = false ∧
    (ending {} faltering).Coherent ∧
    ((ending {} faltering).values.slot 0).isVirtual = true ∧
    ((ending {} faltering).values.slot 4).isVirtual = true ∧
    ((ending {} faltering).values.slot 0).operand ≠ ((ending {} faltering).values.slot 4).operand ∧
    ((after {} faltering 3).values.slot 1).constant? = some (.int 0) ∧
    (after {} faltering 3).values.Lasts (ending {} faltering).values := by
  obtain ⟨hafter, hlast, hcoherent, hlasts⟩ :=
    tables_cohere (c := {}) (by decide : faltering.Drawn)
  have hend := hcoherent _ (List.mem_of_getLast? hlast)
  have hfirst : ((ending {} faltering).values.slot 0).isVirtual = true := by decide +kernel
  have hsecond : ((ending {} faltering).values.slot 4).isVirtual = true := by decide +kernel
  refine ⟨by decide +kernel, hend, hfirst, hsecond, fun hsame => ?_, by decide +kernel, ?_⟩
  · obtain ⟨object, hobject⟩ := Option.isSome_iff_exists.1 hfirst
    obtain ⟨-, -, b, -, hb⟩ := hend.held 0 object hobject
    have := hend.apart 0 4 b hfirst hsecond hb (hsame ▸ hb)
    cases this
  · obtain ⟨front, hfront⟩ := List.getLast?_eq_some_iff.1 hlast
    have hmem := hafter 3
    rw [hfront] at hlasts hmem
    rcases List.mem_append.1 hmem with hmem | hmem
    · exact (List.pairwise_append.1 hlasts).2.2 _ hmem _ (List.mem_singleton_self _)
    · rw [List.mem_singleton.1 hmem]
      exact .refl _

end Config
end TracePeel
