import TracePeel.Proofs.Intact
import TracePeel.Proofs.Peeling.Closing

/-! The way of a run that ended well.

Here a run is known to have ended, and all is followed that it went through, whatever the
numbers of the trace are. `recast` says what an operation is in the next iteration,
`Retraced` what became of the recorded operations one after the other, and `Traversed`
through which states the run went. -/
namespace TracePeel

theorem Values.Intact.markFromStart {v : Values} (h : v.Intact) : v.markFromStart.Intact := by
  have hsize : v.markFromStart.slots.size = v.slots.size := by simp [Values.markFromStart]
  refine ⟨fun a id hid => ?_, fun id object hv => ?_⟩
  · rw [hsize]
    exact h.inRange a id hid
  · have hlt := Values.lt_of_virtual hv
    rw [hsize] at hlt ⊢
    rw [Values.Consistent.slot_markFromStart v id hlt] at hv
    exact h.held id object hv

theorem Optimizer.Intact.markFromStart {o : Optimizer} (h : o.Intact) :
    Optimizer.Intact {o with values := o.values.markFromStart} :=
  h.setValues h.values.markFromStart (by simp [Values.markFromStart])

/-- What a box is in the next iteration. A box without a name there is not asked for. -/
def Peeling.rename (n : Peeling) (b : Box) : Operand :=
  (n.next.get? b).getD (.box b)

namespace Peel

/-- The descriptor in the next iteration, with the notes and the pool behind it. -/
def recastDescr (n : Peeling) (p : Pool) : Option Descr → Option Descr × Peeling × Pool
  | some (.guard _ snapshot) =>
    let (snapshot, supply) :=
      Relinker.relink (m := Id) n.rename snapshot ⟨n.relinker, p.nextFrame⟩
    (some (.guard p.nextGuard snapshot), {n with relinker := supply.relinker},
      {p with nextFrame := supply.nextFrame, nextGuard := p.nextGuard + 1})
  | descr => (descr, n, p)

/-- The result in the next iteration, with the notes and the pool behind it. -/
def recastResult (n : Peeling) (p : Pool) : Option Box → Option Box × Peeling × Pool
  | none => (none, n, p)
  | some r =>
    let b : Box := ⟨p.nextBox, r.kind⟩
    (some b, {n with next := n.next.set r (.box b)}, {p with nextBox := p.nextBox + 1})

/-- The operation in the next iteration, with the notes and the pool behind it. -/
def recast (n : Peeling) (p : Pool) (op : Operation) : Operation × Peeling × Pool :=
  let (result, n', p) := recastResult n p op.result
  let (descr, n', p) := recastDescr n' p op.descr
  ({op with
    args := op.args.map (·.mapBox n.rename)
    failArgs := op.failArgs.map (·.map (·.mapBox n.rename))
    result
    descr}, n', p)

@[simp] theorem recast_opcode (n : Peeling) (p : Pool) (op : Operation) :
    (recast n p op).1.opcode = op.opcode := rfl

end Peel

namespace Optimizer
open Peel

/-- The state with other notes and another pool. -/
def noting (o : Optimizer) (rest : List Stage) (n : Peeling) (p : Pool) : Optimizer :=
  {o with chain := (⟨none, n⟩ :: rest).toArray, pool := p}

theorem At.noting_self {rest : List Stage} {n : Peeling} {o : Optimizer} (h : At rest n o) :
    o.noting rest n o.pool = o :=
  h.eq_self

theorem at_noting (o : Optimizer) (rest : List Stage) (n : Peeling) (p : Pool) :
    At rest n (o.noting rest n p) := rfl

/-- Meeting and forcing write allocations and field writes only. -/
theorem Grown.forcing {o o' : Optimizer} (h : Grown o o') (ho : o.Intact) :
    ∃ ops, o'.out.toList = o.out.toList ++ ops ∧ ∀ op ∈ ops, op.isForcing = true := by
  induction h with
  | refl => exact ⟨[], by simp, List.forall_mem_nil _⟩
  | met _ _ ih => exact ih
  | @forced o₁ id hg ih =>
    obtain ⟨ops, hout, hops⟩ := ih
    obtain ⟨ops', hout', hops'⟩ :=
      (o₁.values.force_performs id o₁.out).forcing (hg.intact ho).values
    refine ⟨ops ++ ops', ?_, fun op hop => (List.mem_append.1 hop).elim (hops op) (hops' op)⟩
    show (o₁.values.force id o₁.out).2.2.toList = _
    rw [hout', hout, List.append_assoc]
  | told _ _ ih => exact ih

theorem forceAll_grown (as : List Operand) (o : Optimizer) :
    Yields (forceAll as) o fun _ o' => Grown o o' := by
  have hp : Persists (α := Operand) (β := Operand) Grown fun _ _ _ => True :=
    ⟨fun _ => .refl, Grown.trans, fun _ h => h⟩
  have hstep : ∀ a ∈ as, ∀ o, True → Yields (do force (← valueOf a)) o fun _ o' =>
      True ∧ Grown o o' ∧ True :=
    fun a _ o _ => ⟨trivial, (Grown.refl.met a).forced _, trivial⟩
  exact (yields_mapM hp hstep trivial).mono fun _ _ h => h.2.1

/-! ### What an operation becomes -/

section
variable {E : OptError → Prop} {rest : List Stage} {n : Peeling} {o : Optimizer}

theorem ends_mapM_nextArg (hat : At rest n o) {as : List Operand}
    (h : ∀ b, .box b ∈ as → n.next.get? b ≠ none) {Q : List Operand → Optimizer → Prop} :
    Ends E (as.mapM (nextArg 0)) o Q ↔ Q (as.map (·.mapBox n.rename)) o := by
  refine ends_nextArgs hat (List.forall₂_map_right_iff.2 (List.forall₂_same.2 fun a ha => ?_))
  cases a with
  | const c => rfl
  | box b =>
    obtain ⟨a, ha⟩ := Option.ne_none_iff_exists'.1 (h b ha)
    show n.next.get? b = some (n.rename b)
    rw [Peeling.rename, ha]
    rfl

theorem renameResult_recast (hat : At rest n o) (result : Option Box) :
    (renameResult 0 result).run o = ((recastResult n o.pool result).1,
      o.noting rest (recastResult n o.pool result).2.1 (recastResult n o.pool result).2.2) := by
  cases result with
  | none => exact congrArg (Prod.mk none) hat.noting_self.symm
  | some r =>
    unfold renameResult
    rw [run_eq_iff, yields_bind, yields_modifyGet]
    show Yields (modifyNotes 0 _ >>= _) {o with pool := (o.pool.freshBox r.kind).2} _
    rw [yields_bind, yields_modifyNotes (o := {o with pool := (o.pool.freshBox r.kind).2}) hat]
    exact ⟨rfl, rfl⟩

theorem renameDescr_recast (hat : At rest n o) (descr : Option Descr) :
    (renameDescr 0 descr).run o = ((recastDescr n o.pool descr).1,
      o.noting rest (recastDescr n o.pool descr).2.1 (recastDescr n o.pool descr).2.2) := by
  have hsame : ∀ d : Option Descr, (d, o) = (d, o.noting rest n o.pool) := fun d =>
    congrArg (Prod.mk d) hat.noting_self.symm
  cases descr with
  | none => exact hsame _
  | some d =>
    cases d with
    | loop | field | size => exact hsame _
    | guard k s =>
      unfold renameDescr renameSnapshot
      rw [run_eq_iff, yields_bind, yields_bind, yields_notes hat, yields_bind, yields_get]
      show Yields (modifyNotes 0 _ >>= _) o _
      rw [yields_bind, yields_modifyNotes hat]
      exact ⟨rfl, rfl⟩

/-- An operation whose boxes all have names in the next iteration is recast. -/
theorem rename_recast (hat : At rest n o) {inputs : List Box} {op : Operation}
    (hreads : ∀ b, .box b ∈ op.usedArgs → n.next.get? b ≠ none)
    {Q : Operation → Optimizer → Prop} :
    Ends E (rename 0 inputs op) o Q ↔
      Ends E (if (recast n o.pool op).1.closes o.token then do
          return {(recast n o.pool op).1 with args := ← jumpArgs 0 inputs}
        else return (recast n o.pool op).1)
        (o.noting rest (recast n o.pool op).2.1 (recast n o.pool op).2.2) Q := by
  have hargs : ∀ {Q : List Operand → Optimizer → Prop},
      Ends E (op.args.mapM (nextArg 0)) o Q ↔ Q (op.args.map (·.mapBox n.rename)) o :=
    ends_mapM_nextArg hat fun b hb => hreads b (by simp [Operation.usedArgs, hb])
  have hfail : ∀ {Q : Option (List Operand) → Optimizer → Prop},
      Ends E (op.failArgs.mapM (·.mapM (nextArg 0))) o Q ↔
        Q (op.failArgs.map (·.map (·.mapBox n.rename))) o := by
    intro Q
    cases hf : op.failArgs with
    | none => exact Iff.rfl
    | some as =>
      show Ends E (some <$> as.mapM (nextArg 0)) o Q ↔ _
      rw [ends_map, ends_mapM_nextArg hat fun b hb => hreads b (by simp [Operation.usedArgs, hf, hb])]
      exact Iff.rfl
  unfold rename
  rw [ends_bind, hargs, ends_bind, hfail, ends_bind, ends_lift,
    yields_of_run (renameResult_recast hat op.result), ends_bind, ends_lift,
    yields_of_run (renameDescr_recast (at_noting ..) op.descr), ends_bind, ends_get]
  exact Iff.rfl

end

/-! ### The recorded operations once more -/

/-- The recorded operations are recast and dealt with, one after the other. -/
inductive Retraced (ps : List Pass) (rest : List Stage) :
    List Operation → Peeling → Optimizer → Peeling → Optimizer → Prop
  | nil {n : Peeling} {o : Optimizer} : Retraced ps rest [] n o n o
  | cons {op : Operation} {ops : List Operation} {n n' : Peeling} {o o₁ o' : Optimizer}
      {events : Array Event} :
      Handled ps (recast n o.pool op).1 {o.noting rest (recast n o.pool op).2.1
        (recast n o.pool op).2.2 with events} o₁ →
      Retraced ps rest ops (recast n o.pool op).2.1 o₁ n' o' →
      Retraced ps rest (op :: ops) n o n' o'

/-- The names there are: those of the boxes walked. -/
def Named (walked : List Box) (n : Peeling) : Prop :=
  ∀ b, n.next.get? b ≠ none ↔ b ∈ walked

theorem Named.recast {walked : List Box} {n : Peeling} (h : Named walked n) (p : Pool)
    (op : Operation) : Named (op.result.toList ++ walked) (recast n p op).2.1 := by
  have hdescr : ∀ (n : Peeling) (p : Pool) (d : Option Descr),
      (recastDescr n p d).2.1.next = n.next := by
    intro n p d
    unfold recastDescr
    split <;> rfl
  intro b
  show (recastDescr _ _ op.descr).2.1.next.get? b ≠ none ↔ _
  rw [hdescr]
  cases hr : op.result with
  | none => exact h b
  | some r =>
    show (n.next.set r _).get? b ≠ none ↔ _
    rw [Bindings.get?_set]
    split
    next he => simp [he]
    next hne =>
      rw [h b]
      simp [Ne.symm hne]

/-- One operation is recast and dealt with. -/
theorem retrace_ends {c : Config} {rest : List Stage}
    (hrest : rest.map (·.pass) = c.behind.map some) {loopInputs walked : List Box}
    {op : Operation} {n : Peeling} {o : Optimizer} (hat : At rest n o) (ho : o.Intact)
    (hnamed : Named walked n) (hfits : op.Fits walked) (hopen : op.opcode.isFinal = false) :
    Ends (fun _ => True) (do
      let op ← rename 0 loopInputs op
      tell (.inlined op.opcode)
      send c.behind.length op) o fun _ o' => ∃ events, Handled c.behind (recast n o.pool op).1
        {o.noting rest (recast n o.pool op).2.1 (recast n o.pool op).2.2 with events} o' := by
  have hclose : (recast n o.pool op).1.closes o.token = false :=
    Operation.closes_of_not_final (by rw [recast_opcode, hopen]) _
  rw [ends_bind, rename_recast hat fun b hb => (hnamed b).2 (hfits.reads b hb),
    if_neg (by simp [hclose]), ends_pure, ends_bind, ends_lift, yields_tell]
  set o₁ : Optimizer := {o.noting rest (recast n o.pool op).2.1 (recast n o.pool op).2.2 with
    events := o.events.push (.inlined (recast n o.pool op).1.opcode)}
  have hchain : o₁.chain.toList.map (·.pass) = [none] ++ c.behind.map some := by
    simp [o₁, noting, hrest]
  have hrange : o₁.values.InRange := ho.values.inRange
  exact (behind_ends (C := fun _ => True) (fun _ _ _ => trivial) hchain hrange _).mono
    fun _ o' hs => ⟨_, hs⟩

/-- The notes and the state behind an operation that was recast and dealt with. -/
theorem Handled.retraced {ps : List Pass} {rest : List Stage} {op : Operation} {n : Peeling}
    {o o' : Optimizer} {events : Array Event}
    (h : Handled ps (recast n o.pool op).1
      {o.noting rest (recast n o.pool op).2.1 (recast n o.pool op).2.2 with events} o')
    (ho : o.Intact) : At rest (recast n o.pool op).2.1 o' ∧ o'.Intact := by
  refine ⟨h.keeps.chain, (settled_handled ps _ _ _ ?_ h).1⟩
  exact ⟨ho.values, ho.known⟩

theorem retraced_ends {c : Config} {rest : List Stage}
    (hrest : rest.map (·.pass) = c.behind.map some) {loopInputs walked : List Box}
    {ops : List Operation} {n : Peeling} {o : Optimizer} (hat : At rest n o)
    (ho : o.Intact) (hnamed : Named walked n) (hops : Accepts walked ops) :
    Ends (fun _ => True) (replay (send c.behind.length) 0 loopInputs ops) o fun _ o' =>
      ∃ n', Retraced c.behind rest ops n o n' o' ∧ At rest n' o' ∧ o'.Intact ∧
        Named (walked ++ results ops) n' := by
  induction ops generalizing walked n o with
  | nil => exact ⟨n, .nil, hat, ho, by simpa using hnamed⟩
  | cons op ops ih =>
    obtain ⟨hfits, hopen, hrest'⟩ := hops
    show Ends _ ((do
      let op ← rename 0 loopInputs op
      tell (.inlined op.opcode)
      send c.behind.length op) >>= fun _ => replay _ 0 loopInputs ops) o _
    rw [ends_bind]
    refine (retrace_ends hrest hat ho hnamed hfits hopen).mono fun _ o₁ ⟨events, hs⟩ => ?_
    obtain ⟨hat₁, ho₁⟩ := hs.retraced ho
    refine (ih hat₁ ho₁ (hnamed.recast o.pool op) hrest').mono
      fun _ o' ⟨n', hret, hat', ho', hnamed'⟩ => ?_
    refine ⟨n', .cons hs hret, hat', ho', fun b => ?_⟩
    rw [hnamed' b, mem_append_results_cons]

/-! ### The inputs of the loop -/

section
variable {o : Optimizer}

theorem nextOf_ends (b : Box) {o : Optimizer} :
    Ends (fun _ => True) (nextOf 0 b) o fun _ o' => o' = o := by
  unfold nextOf
  rw [ends_bind, ends_lift]
  unfold notes
  rw [yields_bind, yields_get, yields_pure]
  split
  next => exact ends_pure.2 rfl
  next => exact ends_refuse.2 trivial

theorem hand_grown (b : Box) {o : Optimizer} :
    Ends (fun _ => True) (do force (← valueOf (← nextOf 0 b))) o fun _ o' => Grown o o' := by
  rw [ends_bind]
  refine (nextOf_ends b).mono fun a o' ho' => ?_
  subst ho'
  rw [ends_forceValue]
  exact (Grown.refl.met a).forced _

theorem jumpArgs_grown (inputs : List Box) {o : Optimizer} :
    Ends (fun _ => True) (jumpArgs 0 inputs) o fun _ o' => Grown o o' := by
  have hp : Persists (α := Box) (β := Operand) Grown fun _ _ _ => True :=
    ⟨fun _ => .refl, Grown.trans, fun _ h => h⟩
  have hstep : ∀ b ∈ inputs, ∀ o, True →
      Ends (fun _ => True) (do force (← valueOf (← nextOf 0 b))) o fun _ o' =>
        True ∧ Grown o o' ∧ True :=
    fun b _ o _ => (hand_grown b).mono fun _ _ h => ⟨trivial, h, trivial⟩
  exact (ends_mapM hp hstep trivial).mono fun _ _ h => h.2.1

theorem nextInput_grown (inputs work : List Box) {o : Optimizer} :
    Yields (nextInput inputs work) o fun _ o' => Grown o o' := by
  induction work generalizing o with
  | nil => exact .refl
  | cons b work ih =>
    unfold nextInput
    rw [yields_bind, yields_get]
    split
    · exact ih
    next id _ =>
      simp only [yields_bind, yields_slot]
      split
      · have hg : Grown o (o.forcing id) := Grown.refl.forced id
        simp only [force, yields_bind, yields_modifyGet]
        split
        · exact ih.mono fun _ _ h => hg.trans h
        · exact hg
      · exact ih

theorem addInputs_grown (fuel : Nat) (inputs : List Box) (args : List Operand) (work : List Box)
    (scanned : Nat) {o : Optimizer} :
    Ends (fun _ => True) (addInputs 0 fuel inputs args work scanned) o fun r o' =>
      Grown o o' ∧ ∃ added handed, r = (inputs ++ added, args ++ handed) := by
  induction fuel generalizing inputs args work scanned o with
  | zero => exact ⟨.refl, [], [], by simp⟩
  | succ fuel ih =>
    unfold addInputs
    rw [ends_bind, ends_lift]
    refine (nextInput_grown inputs work).mono fun found o₁ hg₁ => ?_
    cases found with
    | none => exact ⟨hg₁, [], [], by simp⟩
    | some found =>
      obtain ⟨b, later⟩ := found
      have hhand := hand_grown b (o := o₁)
      rw [ends_bind] at hhand
      show Ends _ (nextOf 0 b >>= _) _ _
      rw [ends_bind]
      refine hhand.mono fun a o₂ hhand => ?_
      rw [ends_bind] at hhand ⊢
      refine hhand.mono fun id o₃ hhand => ?_
      rw [ends_bind]
      refine hhand.mono fun next o₄ hg₄ => ?_
      rw [ends_bind, ends_lift, yields_tell, ends_bind, ends_get]
      refine (ih _ _ _ _).mono ?_
      rintro r o' ⟨hg, added, handed, hr⟩
      exact ⟨(hg₁.trans (hg₄.told _)).trans hg, b :: added, next :: handed, by simp [hr]⟩

end

/-! ### The whole way -/

/-- The states on the way from the jump that closes the loop to its end. -/
structure Passage where
  /-- What the jump hands over was forced, and the preamble ends. -/
  captured : Optimizer
  /-- What the preamble made available was met. -/
  met : Optimizer
  /-- The second way begins. -/
  entered : Optimizer
  /-- The operations in front of the jump were gone through, with these notes. -/
  replayed : Optimizer
  notes : Peeling
  /-- What the jump hands over in the next iteration was forced. -/
  asked : Optimizer
  args : List Operand
  /-- The jump was written behind this list. -/
  written : Optimizer
  out : Array Operation
  last : Operation
  /-- No input is missing any more. -/
  searched : Optimizer
  inputs : List Box
  handed : List Operand

/-- The notes that the second way begins with. -/
def startingNotes (inputs : List Box) (args : List Operand) : Peeling where
  next := .ofList (inputs.zip args)

/-- The turn at the end of the preamble: it is ended and the second way begun. -/
def turn (stage : Nat) (inputs : List Box) (args : List Operand) : Optimize (List Box) := do
  let preamble ← capture args
  modifyNotes stage fun n => {n with recorded := []}
  enter stage inputs args preamble

/-- Each state on the way follows from the one before. -/
structure Traversed (c : Config) (rest : List Stage) (body : List Operation) (jump : Operation)
    (o : Optimizer) (w : Passage) (o' : Optimizer) : Prop where
  captured : Grown o w.captured
  length : o.inputs.length = jump.args.length
  met : ∃ events, Met ((o.inputs ++ results w.captured.out.toList).map .box)
    {w.captured with
      out := #[], sink := .keeping, mayRaise := false, events
      chain := (⟨none, startingNotes o.inputs jump.args⟩ :: rest).toArray} w.met
  entered : Grown {w.met with values := w.met.values.markFromStart} w.entered
  replayed : Retraced c.behind rest body (startingNotes o.inputs jump.args) w.entered w.notes
    w.replayed
  turned : ∃ loopInputs, (turn 0 o.inputs jump.args).run.run o = (.ok loopInputs, w.entered) ∧
    (replay (send c.behind.length) 0 loopInputs body).run.run w.entered = (.ok (), w.replayed)
  asked : Grown w.replayed w.asked
  handled : ∃ events, Handled c.behind
    {jump with args := w.args, failArgs := (recast w.notes w.replayed.pool jump).1.failArgs}
    {w.asked with events} w.written
  out : w.written.out = w.out.push w.last
  last : w.last.opcode = .jump
  searched : Grown {w.written with out := w.out} w.searched
  ends : ∃ stats, o' = {w.searched with
    stats
    out := w.searched.out.push {w.last with args := w.last.args ++ w.handed}
    preamble := some ⟨o.inputs, w.captured.out.toList ++
      [.jumpTo w.searched.token (w.inputs.map .box)]⟩
    inputs := w.inputs}
  capturing : ((capture jump.args).run o).1 = w.captured.out.toList
  finishing : ∃ loopInputs o₁,
    (replay (send c.behind.length) 0 loopInputs [jump]).run.run w.replayed = (.ok (), w.written) ∧
    (fixUp 0 loopInputs).run.run w.written = (.ok w.inputs, o₁) ∧
    o' = {o₁ with preamble := o'.preamble, inputs := o'.inputs}

theorem Retraced.token {ps : List Pass} {rest : List Stage} {ops : List Operation}
    {n n' : Peeling} {o o' : Optimizer} (h : Retraced ps rest ops n o n' o') :
    o'.token = o.token := by
  induction h with
  | nil => rfl
  | cons hs _ ih => exact ih.trans hs.keeps.token

theorem Retraced.intact {ps : List Pass} {rest : List Stage} {ops : List Operation}
    {n n' : Peeling} {o o' : Optimizer} (h : Retraced ps rest ops n o n' o') (ho : o.Intact) :
    o'.Intact := by
  induction h with
  | nil => exact ho
  | cons hs _ ih => exact ih (hs.retraced ho).2

/-- Before the values are marked that are there when the second way begins. -/
theorem Traversed.intact_met {c : Config} {rest : List Stage} {body : List Operation}
    {jump : Operation} {o o' : Optimizer} {w : Passage} (h : Traversed c rest body jump o w o')
    (ho : o.Intact) : w.met.Intact := by
  obtain ⟨events, hmet⟩ := h.met
  have hcaptured := h.captured.intact ho
  refine Intact.of_met ?_ hmet
  exact ⟨hcaptured.values, hcaptured.known⟩

theorem named_startingNotes {inputs : List Box} {args : List Operand} (hn : inputs.Nodup)
    (hlen : inputs.length = args.length) : Named inputs (startingNotes inputs args) := by
  intro b
  rw [Option.ne_none_iff_exists']
  constructor
  · rintro ⟨a, ha⟩
    exact (List.of_mem_zip ((next_inputs hn hlen).1 ha)).1
  · intro hb
    obtain ⟨i, hi, rfl⟩ := List.mem_iff_getElem.1 hb
    have hi' : i < args.length := hlen ▸ hi
    exact ⟨args[i], (next_inputs hn hlen).2
      (List.mem_iff_getElem.2 ⟨i, by simpa using ⟨hi, hi'⟩, by simp⟩)⟩

/-- The jump itself is recast without a new number. -/
theorem recast_jump {n : Peeling} {p : Pool} {jump : Operation} {token : LoopToken}
    (hjump : jump.closes token = true) (hnone : jump.result = none) :
    recast n p jump = ({jump with
      args := (recast n p jump).1.args, failArgs := (recast n p jump).1.failArgs}, n, p) := by
  have htoken := (Operation.closes_iff.1 hjump).2
  have hdescr : recastDescr n p jump.descr = (jump.descr, n, p) := by
    unfold Operation.token? at htoken
    unfold recastDescr
    split at htoken
    next h => rw [h]
    next => cases htoken
  simp only [recast, hnone, recastResult, hdescr]

theorem capture_grown (args : List Operand) (o : Optimizer) :
    Yields (capture args) o fun preamble o' => ∃ o₁ events, Grown o o₁ ∧
      preamble = o₁.out.toList ∧
      o' = {o₁ with out := #[], sink := .keeping, mayRaise := false, events} := by
  unfold capture
  rw [yields_bind, yields_discard]
  exact (forceAll_grown args o).mono fun _ o₁ hg => ⟨o₁, _, hg, rfl, rfl⟩

/-- The second way begins behind what was met and marked. -/
theorem enter_grown {rest : List Stage} {n : Peeling} {o : Optimizer} (hat : At rest n o)
    (inputs : List Box) (args : List Operand) (preamble : List Operation) :
    Ends (fun _ => True) (enter 0 inputs args preamble) o fun _ o' =>
      inputs.length = args.length ∧ ∃ o₁,
        Met ((inputs ++ results preamble).map .box) {o with
          chain := (⟨none, {n with next := .ofList (inputs.zip args), relinker := .copying}⟩ ::
            rest).toArray} o₁ ∧
        Grown {o₁ with values := o₁.values.markFromStart} o' := by
  unfold enter
  split
  next => exact ends_refuse.2 trivial
  next hlen =>
    rw [not_not] at hlen
    show Ends _ (modifyNotes 0 _ >>= _) o _
    rw [ends_bind, ends_lift, yields_modifyNotes hat, ends_bind, ends_lift]
    unfold Peel.markFromStart
    rw [yields_bind, show preamble.filterMap (·.result) = results preamble from rfl]
    refine (meetAll_yields _ _).mono fun _ o₁ ⟨hmet, _⟩ => ?_
    rw [yields_bind, yields_modifyValues, yields_bind, yields_get, yields_pure, ends_bind, ends_lift]
    exact (forceAll_grown args _).mono fun _ o₂ hg => ⟨hlen, o₁, hmet, hg.told _⟩

/-- The list ends in the jump, which is written again behind what was forced, and what was
added to the inputs is counted. -/
theorem fixUp_grown (inputs : List Box) (o : Optimizer) :
    Ends (fun _ => True) (fixUp 0 inputs) o fun inputs' o' => ∃ out jump o₁ added handed,
      o.out = out.push jump ∧ jump.opcode = .jump ∧ Grown {o with out} o₁ ∧
      inputs' = inputs ++ added ∧
      o' = {o₁ with
        stats := {o₁.stats with fixupInputs := o₁.stats.fixupInputs + added.length}
        out := o₁.out.push {jump with args := jump.args ++ handed}} := by
  unfold fixUp takeJump
  rw [ends_bind, ends_bind, ends_get]
  split
  next => exact ends_refuse.2 trivial
  next jump hback =>
    obtain ⟨out, hout⟩ := Array.back?_eq_some_iff.1 hback
    rw [ends_bind, ends_modify]
    split
    next hjump =>
      rw [ends_pure, ends_bind, ends_get, ends_bind]
      refine (addInputs_grown ..).mono fun r o₁ ⟨hg, added, handed, hr⟩ => ?_
      subst hr
      rw [hout, Array.pop_push] at hg
      have hadded : (inputs ++ added).length - inputs.length = added.length := by simp
      exact ⟨out, jump, o₁, added, handed, hout, hjump, hg, rfl, by rw [← hadded]⟩
    next => exact ends_refuse.2 trivial

/-- The jump is gone through once more, with what the inputs are in the next iteration. -/
theorem retrace_jump_ends {c : Config} {rest : List Stage} {n : Peeling} {loopInputs : List Box}
    {jump : Operation} {o : Optimizer} (hrest : rest.map (·.pass) = c.behind.map some)
    (hat : At rest n o) (ho : o.Intact)
    (hreads : ∀ b, .box b ∈ jump.usedArgs → n.next.get? b ≠ none)
    (hjump : jump.closes o.token = true) (hnone : jump.result = none)
    {Q : List Operand → Optimizer → Prop}
    (hasked : Ends (fun _ => True) (jumpArgs 0 loopInputs) o Q) :
    Ends (fun _ => True) (replay (send c.behind.length) 0 loopInputs [jump]) o fun _ o' =>
      ∃ asked args, Grown o asked ∧ Q args asked ∧ ∃ events, Handled c.behind
        {jump with args, failArgs := (recast n o.pool jump).1.failArgs} {asked with events} o' := by
  have hcast := recast_jump (n := n) (p := o.pool) hjump hnone
  show Ends _ ((do
    let op ← rename 0 loopInputs jump
    tell (.inlined op.opcode)
    send c.behind.length op) >>= fun _ => pure PUnit.unit) o _
  have hcloses : (recast n o.pool jump).1.closes o.token = true := by
    rw [hcast]
    exact hjump
  rw [ends_bind, ends_bind, rename_recast hat hreads, if_pos hcloses, ends_bind, hcast,
    hat.noting_self]
  refine (jumpArgs_grown loopInputs).and_run.mono fun args asked ⟨hgrown, hrun⟩ => ?_
  rw [ends_pure, ends_bind, ends_lift, yields_tell]
  have hchain := (hgrown.at_ hat).behind hrest
  exact (behind_ends (C := fun _ => True) (fun _ _ _ => trivial)
    (o := {asked with events := asked.events.push (.inlined jump.opcode)}) hchain
    (hgrown.inRange ho.values.inRange) _).mono fun _ o' hs =>
      ⟨asked, args, hgrown, hasked.of_run hrun, _, hs⟩

theorem traversed_ends {c : Config} {rest : List Stage} {n : Peeling} {body : List Operation}
    {jump : Operation} {o : Optimizer} (hrest : rest.map (·.pass) = c.behind.map some)
    (hat : At rest n o) (ho : o.Intact) (hrecorded : n.recorded = body ++ [jump])
    (hnodup : o.inputs.Nodup) (hbody : Accepts o.inputs body)
    (hfits : jump.Fits (o.inputs ++ results body)) (hjump : jump.closes o.token = true)
    (hnone : jump.result = none) :
    Ends (fun _ => True) (closePreamble (send c.behind.length) 0 jump) o fun _ o' =>
      ∃ w, Traversed c rest body jump o w o' := by
  unfold closePreamble
  rw [ends_bind, ends_lift]
  refine (capture_grown jump.args o).and_run.mono ?_
  rintro preamble o₁ ⟨⟨oc, events, hcap, hpre, ho₁⟩, hruncap⟩
  have hsame := hcap.same
  have hat₁ : At rest n o₁ := by
    rw [At, ho₁]
    exact hcap.at_ hat
  rw [ends_bind, ends_lift, yields_notes hat₁, ends_bind, ends_lift, yields_modifyNotes hat₁,
    ends_bind, ends_get, ends_bind, hrecorded]
  have hinputs : o.inputs = oc.inputs := by rw [hsame]
  have htoken : oc.token = o.token := by rw [hsame]
  have hturn : ∀ {loopInputs o₂}, (enter 0 o.inputs jump.args preamble).run.run
        {o₁ with chain := (⟨none, {n with recorded := []}⟩ :: rest).toArray} = (.ok loopInputs, o₂) →
      (turn 0 o.inputs jump.args).run.run o = (.ok loopInputs, o₂) := by
    intro loopInputs o₂ henter
    have hnotes : (modifyNotes 0 fun n => {n with recorded := []}).run o₁ =
        ((), {o₁ with chain := (⟨none, {n with recorded := []}⟩ :: rest).toArray}) := by
      rw [run_eq_iff, yields_modifyNotes hat₁]
      exact ⟨rfl, rfl⟩
    unfold turn
    exact run_bind_ok.2 ⟨preamble, o₁, run_lift_ok hruncap,
      run_bind_ok.2 ⟨(), _, run_lift_ok hnotes, henter⟩⟩
  subst hpre
  subst ho₁
  rw [hinputs] at hnodup hbody hfits hturn
  refine (enter_grown (n := {n with recorded := []}) (o := {oc with
      out := #[], sink := .keeping, mayRaise := false, events
      chain := (⟨none, {n with recorded := []}⟩ :: rest).toArray}) rfl _ _ _).and_run.mono ?_
  rintro loopInputs o₂ ⟨⟨hlen, om, hmet, hent⟩, henter⟩
  -- The second way begins with the names of the inputs.
  set started := startingNotes oc.inputs jump.args with hstarted
  have hom : om.chain = (⟨none, started⟩ :: rest).toArray := hmet.chain
  have hat₂ : At rest started o₂ := hent.at_ hom
  have hoc : Optimizer.Intact {oc with
      out := #[], sink := .keeping, mayRaise := false, events
      chain := (⟨none, started⟩ :: rest).toArray} :=
    ⟨(hcap.intact ho).values, (hcap.intact ho).known⟩
  have hom' := hoc.of_met hmet
  have ho₂ : o₂.Intact := hent.intact hom'.markFromStart
  have htoken₂ : o₂.token = o.token := by
    rw [hent.same, ← htoken]
    show om.token = _
    rw [hmet.eq_values]
  rw [ends_bind, replay_append, ends_bind]
  refine (retraced_ends hrest hat₂ ho₂ (named_startingNotes hnodup hlen) hbody).and_run.mono ?_
  rintro _ o₃ ⟨⟨n₃, hret, hat₃, ho₃, hnamed₃⟩, hreplay⟩
  -- The jump.
  have htoken₃ : o₃.token = o.token := hret.token.trans htoken₂
  refine (retrace_jump_ends hrest hat₃ ho₃ (fun b hb => (hnamed₃ b).2 (hfits.reads b hb))
    (htoken₃.symm ▸ hjump) hnone (jumpArgs_grown loopInputs)).and_run.mono ?_
  rintro _ written ⟨⟨asked, args, hasked, -, jumpEvents, hs⟩, hrunjump⟩
  rw [ends_bind]
  refine (fixUp_grown loopInputs written).and_run.mono ?_
  rintro inputs' _ ⟨⟨out, last, searched, added, handed, hout, hlast, hsearched, -, ho'⟩, hrunfix⟩
  subst ho'
  refine ⟨⟨oc, om, o₂, o₃, n₃, asked, args, written, out, last, searched, inputs', handed⟩, hcap,
    hinputs ▸ hlen, ?_, hent, ?_, ⟨loopInputs, hinputs ▸ hturn henter, hreplay⟩, hasked,
    ⟨jumpEvents, hs⟩, hout, hlast, hsearched,
    ⟨{searched.stats with fixupInputs := searched.stats.fixupInputs + added.length}, ?_⟩,
    by rw [hruncap], loopInputs, _, hrunjump, hrunfix, rfl⟩
  · exact ⟨events, hinputs ▸ hmet⟩
  · exact hinputs ▸ hret
  · rw [hinputs]

end Optimizer
end TracePeel
