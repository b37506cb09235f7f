import TracePeel.Proofs.Resuming
import TracePeel.Proofs.Unnumbered

/-! The inputs of a peeled loop and its jump are in step.

Each round of the search for inputs finds one that was missing, and there are no more of them
than the table has entries: the search ends by itself, and more rounds change nothing
(`addInputs_more`). What it added is read, and what is read of the preamble is an input. The
jump was given what the inputs are in the next iteration; nothing that it passes on its way to
the list changes that (`Finishes`), and what the search adds behind it is forced in the same
way. `InStep` says all this of the finished loop. -/
namespace TracePeel

theorem Values.Forced.emittedAs {v v' : Values} (h : v.Forced v') {a k : Operand}
    (hk : v.EmittedAs a k) : v'.EmittedAs a k := by
  obtain ⟨id, hid, hv, hop⟩ := hk
  refine ⟨id, by rwa [h.index], ?_, (h.operand id).trans hop⟩
  rw [Slot.isVirtual, Option.isSome_eq_false_iff, Option.isNone_iff_eq_none] at hv ⊢
  exact h.virtual_eq_none hv

theorem Values.Consistent.intact {v : Values} {defined available start : List Box}
    (h : v.Consistent defined available start) : v.Intact where
  inRange := h.inRange
  held id object hv := by
    obtain ⟨r, -, hh, -⟩ := (h.slots id (Values.lt_of_virtual hv)).held object hv
    exact ⟨hh.opcode, hh.fields⟩

theorem Optimizer.Working.intact {T : FrameTable} {base start defined : List Box} {o : Optimizer}
    (h : Working T base start defined o) : o.Intact :=
  ⟨h.built.table.intact, fun key id hid => (h.known key id hid).1⟩

namespace Peel
open Optimizer

/-- Making inputs of all from-start values that the list reads, in at most `fuel` rounds. -/
def fixUpWithin (fuel stage : Nat) (inputs : List Box) : Optimize (List Box) := do
  let jump ← takeJump
  let out := (← get).out.toList
  let work := boxesRead out ++ jump.args.filterMap Operand.box?
  let (inputs', args) ← addInputs stage fuel inputs jump.args work out.length
  count fun s => {s with fixupInputs := s.fixupInputs + (inputs'.length - inputs.length)}
  modify fun o => {o with out := o.out.push {jump with args}}
  pure inputs'

/-- Taking the jump off the list leaves the table alone. -/
theorem takeJump_values (o : Optimizer) :
    Ends (fun _ => True) takeJump o fun _ o' => o'.values = o.values := by
  unfold takeJump
  rw [ends_bind, ends_get]
  split
  next => exact ends_refuse.2 trivial
  next jump _ =>
    rw [ends_bind, ends_modify]
    split
    · exact ends_pure.2 rfl
    · exact ends_refuse.2 trivial

/-- The rounds are bounded by the table that the search begins with. -/
theorem fixUp_eq (stage : Nat) (inputs : List Box) (o : Optimizer) :
    (fixUp stage inputs).run.run o =
      (fixUpWithin (o.values.slots.size + o.values.index.size + 1) stage inputs).run.run o := by
  have hvalues := takeJump_values o
  unfold fixUp fixUpWithin
  rw [run_bind, run_bind]
  rcases hrun : takeJump.run.run o with ⟨_ | jump, o'⟩
  · rfl
  · have hsize := hvalues.of_run hrun
    rw [← hsize]
    have hget : (get : Optimize Optimizer).run.run o' = (.ok o', o') := rfl
    dsimp only
    rw [run_bind, hget, run_bind, hget]

/-- A search that added fewer inputs than it had rounds ended by itself, so more rounds
change nothing. -/
theorem addInputs_more {stage fuel scanned : Nat} {inputs inputs' work : List Box}
    {args args' : List Operand} {o o' : Optimizer}
    (h : (addInputs stage fuel inputs args work scanned).run.run o = (.ok (inputs', args'), o'))
    (hlt : inputs'.length < fuel + inputs.length) (more : Nat) :
    (addInputs stage (fuel + more) inputs args work scanned).run.run o =
      (.ok (inputs', args'), o') := by
  induction fuel generalizing inputs args work scanned o with
  | zero =>
    cases h
    omega
  | succ fuel ih =>
    rw [Nat.succ_add]
    unfold addInputs at h ⊢
    obtain ⟨found, o₁, hfound, h⟩ := run_bind_ok.1 h
    refine run_bind_ok.2 ⟨found, o₁, hfound, ?_⟩
    cases found with
    | none => exact h
    | some found =>
      obtain ⟨next, o₂, hnext, h⟩ := run_bind_ok.1 h
      obtain ⟨id, o₃, hid, h⟩ := run_bind_ok.1 h
      obtain ⟨next', o₄, hnext', h⟩ := run_bind_ok.1 h
      obtain ⟨⟨⟩, o₅, htold, h⟩ := run_bind_ok.1 h
      obtain ⟨o₆, o₇, hget, h⟩ := run_bind_ok.1 h
      refine run_bind_ok.2 ⟨next, o₂, hnext, run_bind_ok.2 ⟨id, o₃, hid,
        run_bind_ok.2 ⟨next', o₄, hnext', run_bind_ok.2 ⟨⟨⟩, o₅, htold,
          run_bind_ok.2 ⟨o₆, o₇, hget, ih h ?_⟩⟩⟩⟩⟩
      rw [List.length_append, List.length_singleton]
      omega

end Peel

namespace Optimizer
open Peel

section
variable {N : Nat} {T : FrameTable} {base defined walked : List Box} {rest : List Stage}
  {n : Peeling}

/-- However many rounds it has, the search ends with the same inputs and the same jump. -/
theorem fixUpWithin_searches {nextFrame : Nat} {inputs : List Box} {o : Optimizer}
    {out : Array Operation} {jump : Operation} (hat : At rest n o)
    (hnames : Renaming T defined walked n nextFrame) (hbase : base ⊆ walked)
    (hout : o.out = out.push jump) (hjump : jump.opcode = .jump)
    (h : Built N T base base defined o.values out.toList)
    (hargs : ∀ a ∈ jump.args, o.values.Ready (base ++ results out.toList) base a)
    (hnodup : inputs.Nodup) (hsub : inputs ⊆ base) :
    ∃ added handed o₁ stats,
      Searched N T base defined n.next inputs added jump.args handed {o with out} o₁ ∧
      (∀ b ∈ added, Read (jump.args ++ handed) o₁ b) ∧
      ∀ fuel ≥ o.values.slots.size + o.values.index.size + 1,
        (fixUpWithin fuel 0 inputs).run.run o = (.ok (inputs ++ added), {o₁ with
          stats
          out := o₁.out.push {jump with args := jump.args ++ handed}}) := by
  obtain ⟨hs, hread, hbound⟩ := searching_begin (o := o) h hargs hnodup hsub
  obtain ⟨r, o₁, hrun, added, handed, rfl, hsearched, hadded⟩ :=
    exists_of_ends (addInputs_ends (o := {o with out}) (E := fun _ => False) hat hnames hbase h hs
      hread hbound (Nat.lt_of_lt_of_le (Nat.lt_succ_of_le (Nat.le_add_left ..))
        (Nat.le_add_right (o.values.slots.size + o.values.index.size + 1) _)))
  have hfew := hbound _ hsearched.nodup hsearched.subset
  refine ⟨added, handed, o₁, {o₁.stats with
    fixupInputs := o₁.stats.fixupInputs + ((inputs ++ added).length - inputs.length)},
    hsearched, hadded, fun fuel hfuel => ?_⟩
  obtain ⟨more, rfl⟩ := Nat.exists_eq_add_of_le hfuel
  have hmore := addInputs_more hrun (by omega) more
  unfold fixUpWithin
  refine run_bind_ok.2 ⟨jump, {o with out}, ?_, run_bind_ok.2 ⟨_, _, rfl, run_bind_ok.2
    ⟨_, _, hmore, run_bind_ok.2 ⟨_, _, rfl, run_bind_ok.2 ⟨_, _, rfl, rfl⟩⟩⟩⟩⟩
  have htake : Ends (fun _ => False) takeJump o fun j o' => j = jump ∧ o' = {o with out} :=
    (ends_takeJump hout hjump).2 ⟨rfl, rfl⟩
  obtain ⟨j, o', hrun, rfl, rfl⟩ := exists_of_ends htake
  exact hrun

end

/-! ### The jump -/

/-- What ends a list is written, and each value is emitted as before. -/
def Finishes (send : Operation → Optimizer → Optimizer → Prop) : Prop :=
  ∀ op o o', o.Intact → op.opcode.isFinal = true → send op o o' →
    (∀ a k, o.values.EmittedAs a k → o'.values.EmittedAs a k) ∧
      ∃ front, o'.out.toList = front ++ [o.writes op]

theorem finishes_emit : Finishes fun op o o' => o' = ((emit op).run o).2 := by
  rintro op o _ ho - rfl
  obtain ⟨o₁, events, hf, he⟩ := emit_forces ho op
  rw [he]
  exact ⟨fun a k hk => hf.values.emittedAs hk, o₁.out.toList, Array.toList_push⟩

theorem finishes_placed {send : Operation → Optimizer → Optimizer → Prop} (h : Finishes send) :
    Finishes (Placed send) := by
  rintro op o _ ho hfinal ⟨chain, cursor, o₂, hs, rfl⟩
  have hprepared : Intact {o with chain, cursor} := ⟨ho.values, ho.known⟩
  exact h op {o with chain, cursor} o₂ hprepared hfinal hs

/-- Meeting its operands in front of it makes no difference. -/
theorem Finishes.of_met {send : Operation → Optimizer → Optimizer → Prop} (h : Finishes send)
    {op : Operation} {o o₁ o' : Optimizer} (ho : o.Intact) (hfinal : op.opcode.isFinal = true)
    {as : List Operand} (hmet : Met as o o₁) (hs : send op o₁ o') :
    (∀ a k, o.values.EmittedAs a k → o'.values.EmittedAs a k) ∧
      ∃ front, o'.out.toList = front ++ [o.writes op] := by
  have hp := ho.prepared_met hmet
  obtain ⟨hemitted, hout⟩ := h op o₁ o' hp.intact hfinal hs
  rw [hp.writes_eq op] at hout
  exact ⟨fun a k hk => hemitted a k (hmet.emittedAs ho.values.inRange hk), hout⟩

theorem finishes_rewritten {send : Operation → Optimizer → Optimizer → Prop} (h : Finishes send) :
    Finishes (Rewrite.Rewritten send) := by
  intro op o o' ho hfinal hs
  have hguard : op.isGuard = false := Opcode.isGuard_eq_false_of_isFinal hfinal
  have hpure : op.opcode.isAlwaysPure = false := Opcode.isAlwaysPure_eq_false_of_isFinal hfinal
  cases hs with
  | passed hmet _ hs => exact h.of_met ho hfinal hmet hs
  | dropped _ hi => rw [hi.isGuard] at hguard; cases hguard
  | kept _ ht => rw [ht.isGuard] at hguard; cases hguard
  | unraised hno | checked hno => rw [hno] at hfinal; cases hfinal
  | called hcall => rw [hcall] at hfinal; cases hfinal
  | aliased hsame => rw [hsame] at hfinal; cases hfinal
  | folded hp | reused hp | computed hp => rw [hp] at hpure; cases hpure

theorem finishes_virtualized {send : Operation → Optimizer → Optimizer → Prop}
    (h : Finishes send) : Finishes (Virtualize.Virtualized send) := by
  intro op o o' ho hfinal hs
  cases hs with
  | passed hmet _ hs => exact h.of_met ho hfinal hmet hs
  | held hnew => rw [hnew] at hfinal; cases hfinal
  | written hset => rw [hset] at hfinal; cases hfinal
  | read hget | readZero hget => rcases hget with hget | hget <;> rw [hget] at hfinal <;> cases hfinal

theorem finishes_handled (ps : List Pass) : Finishes (Handled ps) := by
  induction ps with
  | nil => exact finishes_placed finishes_emit
  | cons p ps ih =>
    refine finishes_placed ?_
    cases p with
    | peel => exact fun _ _ _ _ _ h => h.elim
    | rewrite => exact finishes_rewritten ih
    | virtualize => exact finishes_virtualized ih

section
variable {defined available start : List Box} {o : Optimizer} {a k : Operand}

/-- A box that a value is emitted as is emitted as itself. -/
theorem mapBox_standsFor_of_emittedAs (h : o.values.Consistent defined available start)
    (hk : o.values.EmittedAs a k) : k.mapBox o.standsFor = k := by
  obtain ⟨id, hid, -, rfl⟩ := hk
  cases hop : (o.values.slot id).operand with
  | const c => rfl
  | box r =>
    have hown : o.values.lookup r = some id := h.own id (h.inRange a id hid) r hop
    show o.standsFor r = _
    rw [standsFor, hown]
    exact hop

/-- What an operand is emitted as is what it stands for. -/
theorem eq_mapBox_of_emittedAs (h : o.values.Consistent defined available start)
    (hk : o.values.EmittedAs a k) : k = a.mapBox o.standsFor := by
  obtain ⟨id, hid, -, rfl⟩ := hk
  cases a with
  | const c => exact h.keeps c id hid
  | box b =>
    have hlookup : o.values.lookup b = some id := hid
    show _ = o.standsFor b
    rw [standsFor, hlookup]

end

/-! ### The whole way -/

/-- In the next iteration the box is a value that is emitted as the operand. -/
def Continues (next : Bindings Box Operand) (v : Values) (b : Box) (k : Operand) : Prop :=
  ∃ a, next.get? b = some a ∧ v.EmittedAs a k

theorem Hands.continues {next : Bindings Box Operand} {base : List Box} {o : Optimizer} {b : Box}
    {k : Operand} (h : Hands next base o b k) : Continues next o.values b k :=
  let ⟨a, ha, _, hd⟩ := h
  ⟨a, ha, hd.emitted⟩

section
variable {c : Config} {T : FrameTable} {rest : List Stage} {n : Peeling} {target : LoopToken}
  {base defined inputs loopInputs : List Box} {body : List Operation} {jump : Operation}
  {o : Optimizer}

/-- Ending the list of the preamble moves no pass and leaves the inputs alone. -/
theorem capture_keeps (hat : At rest n o) (args : List Operand) :
    Yields (capture args) o fun _ o' => At rest n o' ∧ o'.inputs = o.inputs := by
  refine (capture_grown args o).mono fun preamble o' ⟨oc, events, hg, _, ho'⟩ => ?_
  rw [ho']
  exact ⟨hg.at_ hat, by rw [hg.same]⟩

/-- Behind the end of the preamble the turn forgets what was recorded, and the second way is
begun. -/
theorem turn_eq {args : List Operand} {preamble : List Operation} {o₁ : Optimizer}
    (hcapture : (capture args).run o = (preamble, o₁)) (hat : At rest n o₁) :
    (turn 0 inputs args).run.run o = (enter 0 inputs args preamble).run.run
      {o₁ with chain := (⟨none, {n with recorded := []}⟩ :: rest).toArray} := by
  unfold turn
  rw [run_bind, run_lift_ok hcapture]
  dsimp only
  rw [run_bind, run_lift_ok (hat.modifyNotes_run _)]

/-- The stretches of the way from the jump that closes the loop: the turn, the recorded operations
once more, and the search for inputs. -/
theorem closePreamble_eq {emit : Operation → Optimize Unit} (hat : At rest n o) :
    (closePreamble emit 0 jump).run.run o = (do
      let loopInputs ← turn 0 o.inputs jump.args
      replay emit 0 loopInputs n.recorded
      let inputs' ← fixUp 0 loopInputs
      modify fun o' : Optimizer => {o' with
        preamble := some ⟨o.inputs, ((capture jump.args).run o).1 ++
          [.jumpTo o'.token (inputs'.map .box)]⟩
        inputs := inputs'} : Optimize Unit).run.run o := by
  rcases hcapture : (capture jump.args).run o with ⟨preamble, o₁⟩
  obtain ⟨hat₁, hinputs⟩ := (yields_of_run hcapture).1 (capture_keeps hat jump.args)
  rw [← hinputs]
  set o₂ : Optimizer := {o₁ with chain := (⟨none, {n with recorded := []}⟩ :: rest).toArray}
  have hget : (get : Optimize Optimizer).run.run o₂ = (.ok o₂, o₂) := rfl
  unfold closePreamble
  rw [run_bind, run_lift_ok hcapture]
  dsimp only
  rw [run_bind, run_lift_ok hat₁.notes_run]
  dsimp only
  rw [run_bind, run_lift_ok (hat₁.modifyNotes_run _)]
  dsimp only
  rw [run_bind, hget]
  dsimp only
  rw [run_bind, run_bind, turn_eq hcapture hat₁]

/-- The states on the way from the jump that closes the loop, where it ended well. -/
theorem closePreamble_run {emit : Operation → Optimize Unit} (hat : At rest n o) {o' : Optimizer}
    (h : (closePreamble emit 0 jump).run.run o = (.ok (), o')) :
    ∃ preamble loopInputs entered written inputs' fixed,
      ((capture jump.args).run o).1 = preamble ∧
      (turn 0 o.inputs jump.args).run.run o = (.ok loopInputs, entered) ∧
      (replay emit 0 loopInputs n.recorded).run.run entered = (.ok (), written) ∧
      (fixUp 0 loopInputs).run.run written = (.ok inputs', fixed) ∧
      o' = {fixed with
        preamble := some ⟨o.inputs, preamble ++ [.jumpTo fixed.token (inputs'.map .box)]⟩
        inputs := inputs'} := by
  rw [closePreamble_eq hat] at h
  obtain ⟨loopInputs, entered, hturn, h⟩ := run_bind_ok.1 h
  obtain ⟨⟨⟩, written, hreplay, h⟩ := run_bind_ok.1 h
  obtain ⟨inputs', fixed, hfix, h⟩ := run_bind_ok.1 h
  cases h
  exact ⟨_, loopInputs, entered, written, inputs', fixed, rfl, hturn, hreplay, hfix, rfl⟩

/-- At the turn all that the preamble made available is marked. The second way begins with what
the jump hands over. -/
theorem turn_enters {E : OptError → Prop} {N : Nat}
    (hw : Working T inputs [] (inputs ++ results body) (o.numbered N)) (hat : At rest n o)
    (hjump : Closes target inputs body jump) :
    Ends E (turn 0 inputs jump.args) o fun loopInputs o' => ∃ base o₁ ks,
      base = inputs ++ results ((capture jump.args).run o).1 ∧ base ⊆ inputs ++ results body ∧
      o₁.token = o.token ∧
      Entered T base (inputs ++ results body) inputs jump.args rest {n with recorded := []} o₁
        loopInputs o' ∧
      List.Forall₂ o'.values.EmittedAs jump.args ks ∧ loopInputs = distinctBoxes ks := by
  unfold turn
  rw [ends_bind, ends_lift]
  refine (capture_built (o := o) hjump.reads hw.built).and_run.mono ?_
  rintro preamble o₁ ⟨⟨oc, events, hb, hg, hemitted, rfl, rfl⟩, hrun⟩
  have hoc := (hg.numbered N).working hw hb
  have hat₁ : At rest n {oc with out := #[], sink := .keeping, mayRaise := false, events} :=
    hg.at_ hat
  rw [ends_bind, ends_lift, yields_modifyNotes hat₁, hrun]
  refine (enter_ends (o := {oc with
      out := #[], sink := .keeping, mayRaise := false, events
      chain := (⟨none, {n with recorded := []}⟩ :: rest).toArray}) rfl rfl hoc.built.table hoc.known
    hoc.ids hoc.sink.below rfl rfl hjump.kinds.length_eq.symm hemitted).mono
    fun loopInputs o₂ ⟨hent, ks, hks, hloop⟩ => ?_
  exact ⟨_, _, ks, rfl, hoc.built.table.subset, by rw [hg.same], hent, hks, hloop⟩

/-- What is gone through once more begins with the names of the inputs. -/
theorem Entered.replaying {o' : Optimizer}
    (h : Entered T base (inputs ++ results body) inputs jump.args rest n o loopInputs o')
    (hjump : Closes target inputs body jump) :
    Replaying T base (inputs ++ results body) inputs rest
      {n with next := .ofList (inputs.zip jump.args), relinker := .copying} o' where
  working := h.working
  notes := by
    obtain ⟨_, hsame⟩ := h.same
    rw [At, hsame]
  names := .begin hjump.nodup hjump.kinds hjump.reads h.working.sink.below rfl rfl

/-- The second way begins with the boxes that the jump hands over, each once. -/
theorem turn_ends {E : OptError → Prop} {N : Nat}
    (hw : Working T inputs [] (inputs ++ results body) (o.numbered N)) (hat : At rest n o)
    (hjump : Closes target inputs body jump) :
    Ends E (turn 0 inputs jump.args) o fun loopInputs o' => ∃ base n',
      Replaying T base (inputs ++ results body) inputs rest n' o' ∧ o'.token = o.token ∧
        base ⊆ inputs ++ results body ∧ loopInputs.Nodup ∧ loopInputs ⊆ base ∧
        loopInputs = distinctBoxes (jump.args.map (·.mapBox o'.standsFor)) := by
  refine (turn_enters hw hat hjump).mono ?_
  rintro loopInputs o' ⟨base, o₁, ks, -, hbase, htoken, hent, hks, hloop⟩
  obtain ⟨_, hsame⟩ := hent.same
  refine ⟨base, _, hent.replaying hjump, by rw [hsame, htoken], hbase, hent.nodup, hent.subset, ?_⟩
  have hstands : List.Forall₂ Eq (jump.args.map (·.mapBox o'.standsFor)) ks :=
    List.forall₂_map_left_iff.2 (hks.imp fun _ _ hk =>
      (eq_mapBox_of_emittedAs hent.working.built.table hk).symm)
  rw [List.forall₂_eq_eq_eq] at hstands
  rw [hloop, hstands]

/-- The list and the jump that was written behind it once all recorded operations were gone
through, in a state from which inputs are searched for. -/
structure Round (T : FrameTable) (base defined walked loopInputs : List Box) (rest : List Stage)
    (target : LoopToken) (n : Peeling) (out : Array Operation) (jump : Operation) (o : Optimizer) :
    Prop where
  notes : At rest n o
  names : Renaming T defined walked n o.pool.nextFrame
  token : o.token = target
  closes : jump.closes target = true
  plain : jump.Plain
  result : jump.result = none
  ids : ∀ b ∈ defined, b.id < o.pool.nextBox
  built : Built o.pool.nextGuard T base base defined o.values out.toList
  ready : ∀ a ∈ jump.args, o.values.Ready (base ++ results out.toList) base a
  written : o.out = out.push jump
  hands : List.Forall₂ (Continues n.next o.values) loopInputs jump.args

theorem Jumped.token {o asked written : Optimizer} {jump' last : Operation} {out : Array Operation}
    (h : Jumped c base defined rest n loopInputs jump o asked jump' written out last) :
    written.token = o.token := by
  obtain ⟨_, _, _, _, hr, hg, _, _⟩ := h.renamed
  obtain ⟨_, hhandled⟩ := h.handled
  have hasked : asked.token = o.token := by rw [hg.same, hr.same]
  exact hhandled.keeps.token.trans hasked

/-- The boxes that are defined behind the list have numbers that were given out. -/
theorem Jumped.ids {o asked written : Optimizer} {jump' last : Operation} {out : Array Operation}
    (h : Jumped c base defined rest n loopInputs jump o asked jump' written out last) :
    ∀ b ∈ defined, b.id < written.pool.nextBox := by
  obtain ⟨_, _, _, _, _, _, _, hasked⟩ := h.renamed
  obtain ⟨_, hhandled⟩ := h.handled
  intro b hb
  rw [hhandled.keeps.nextBox]
  exact hasked.ids b hb

/-- What the jump was given in front of it, it hands over behind the list. -/
theorem Jumped.continues {o asked written : Optimizer} {jump' last : Operation}
    {out : Array Operation}
    (h : Jumped c base defined rest n loopInputs jump o asked jump' written out last)
    (hjump : jump.opcode = .jump) :
    List.Forall₂ (Continues n.next written.values) loopInputs last.args := by
  obtain ⟨_, _, jump₀, _, hr, _, hjump', hasked⟩ := h.renamed
  obtain ⟨events, hhandled⟩ := h.handled
  have hfinal : jump'.opcode.isFinal = true := by
    rw [hjump']
    show jump₀.opcode.isFinal = true
    rw [hr.renders.opcode, hjump]
    rfl
  have hintact : Intact {asked with events} := ⟨hasked.intact.values, hasked.intact.known⟩
  obtain ⟨hemitted, front, hfront⟩ := finishes_handled _ _ _ _ hintact hfinal hhandled
  have hlast : last = asked.writes jump' := by
    rw [h.out, Array.toList_push] at hfront
    exact List.singleton_inj.1 (List.append_inj' hfront rfl).2
  have hsame : last.args = jump'.args := by
    rw [hlast]
    show jump'.args.map (·.mapBox asked.standsFor) = _
    refine (List.map_congr_left fun k hk => ?_).trans (List.map_id _)
    obtain ⟨_, _, _, _, _, hd⟩ := exists_right_of_mem h.hands.flip hk
    exact mapBox_standsFor_of_emittedAs hasked.built.table hd.emitted
  rw [hsame]
  refine h.hands.imp fun b k ⟨a, ha, _, hd⟩ => ⟨a, ha, hemitted a k hd.emitted⟩

/-- All recorded operations are gone through once more. -/
theorem replay_rounds (hrest : rest.map (·.pass) = c.behind.map some)
    (h : Replaying T base (inputs ++ results body) inputs rest n o)
    (hjump : Closes o.token inputs body jump) {nextGuard nextBox : Nat}
    (hbody : Coming T inputs nextGuard nextBox body) (hloop : loopInputs ⊆ base)
    (hbase : base ⊆ inputs ++ results body) :
    Ends (fun _ => True) (replay (send c.behind.length) 0 loopInputs (body ++ [jump])) o
      fun _ o' => ∃ T' defined' n' out jump', Round T' base defined' (inputs ++ results body)
        loopInputs rest o.token n' out jump' o' := by
  have hC : ∀ cause : OptCause, cause.isGuardFailure = true → True := fun _ _ => trivial
  rw [replay_append, ends_bind]
  refine (replay_ends (C := fun _ => True) hC hrest h hbody).mono ?_
  rintro _ o₁ ⟨n₁, T₁, defined', hrep, hT₁, h₁, he₁, hsub₁⟩
  have htoken := hrep.token
  refine (replayJump_ends (E := fun _ => True) hrest h₁ (by rwa [htoken])
    (List.Subset.trans hloop hbase)).mono ?_
  rintro _ o₂ ⟨asked, jump', out, last, hjumped, hop, htoken', T₂, n₂, hbuilt, hat₂, hnext, hnames⟩
  obtain ⟨T', hrenders⟩ := hjumped.renders
  refine ⟨T₂, defined', n₂, out, last, hat₂, hnames, hjumped.token.trans htoken,
    Operation.closes_iff.2 ⟨hop, htoken'.trans (by rw [htoken])⟩, hjumped.plain, hjumped.result,
    hjumped.ids, hbuilt, fun a ha => ?_, hjumped.out, hnext ▸ hjumped.continues hjump.opcode⟩
  obtain ⟨_, _, hready⟩ := exists_right_of_mem hrenders.args.flip ha
  exact hready.2

/-- What the list reads, and what the jump hands over, is ready behind the search. -/
theorem Searched.ready {N : Nat} {next : Bindings Box Operand} {added : List Box}
    {args handed : List Operand} {o' : Optimizer}
    (h : Searched N T base defined next inputs added args handed o o') (hr : o.values.InRange)
    (hargs : ∀ a ∈ args, o.values.Ready (base ++ results o.out.toList) base a) {b : Box}
    (hb : Read (args ++ handed) o' b) :
    o'.values.Ready (base ++ results o'.out.toList) base (.box b) := by
  rcases hb with hb | hb
  · exact ready_of_read h.built hb
  · rcases List.mem_append.1 hb with hb | hb
    · exact (hargs _ hb).mono hr (h.grown.extends_.available base) h.grown.later
    · obtain ⟨_, _, _, _, _, hd⟩ := exists_right_of_mem h.hands.flip hb
      exact hd.stands.2

/-- What a list reads that ends in a jump: what is in front of the jump, and what it hands over. -/
theorem mem_boxesRead_push {out : Array Operation} (op : Operation) (hop : op.opcode = .jump)
    (hplain : op.Plain) {b : Box} :
    b ∈ boxesRead (out.push op).toList ↔ b ∈ boxesRead out.toList ∨ .box b ∈ op.args := by
  rw [Array.toList_push, boxesRead_append, List.mem_append]
  exact or_congr .rfl (by simp [mem_boxesRead, usedArgs_of_jump op hop hplain])

/-- A list that goes round, behind the search for its inputs: those that it began with come
first, each that was added exists since before and is read, and none is missing. The jump that
ends the list hands over what each of them is in the next iteration. -/
structure InStep (target : LoopToken) (first inputs : List Box) (next : Bindings Box Operand)
    (v : Values) (ops : List Operation) : Prop where
  nodup : inputs.Nodup
  adds : ∃ added, inputs = first ++ added ∧ ∀ b ∈ added, v.IsFromStart b ∧ b ∈ boxesRead ops
  covers : ∀ b ∈ boxesRead ops, v.IsFromStart b → b ∈ inputs
  hands : ∃ jump, ops.getLast? = some jump ∧ jump.closes target = true ∧
    List.Forall₂ (Continues next v) inputs jump.args

/-- The search for inputs brings them in step with the jump, in however many rounds. -/
theorem Round.inStep {walked : List Box} {out : Array Operation}
    (h : Round T base defined walked loopInputs rest target n out jump o) (hbase : base ⊆ walked)
    (hnodup : loopInputs.Nodup) (hsub : loopInputs ⊆ base) : ∃ inputs' o',
      (∀ fuel ≥ o.values.slots.size + o.values.index.size + 1,
        (fixUpWithin fuel 0 loopInputs).run.run o = (.ok inputs', o')) ∧
      o'.token = target ∧ At rest n o' ∧
      InStep target loopInputs inputs' n.next o'.values o'.out.toList := by
  obtain ⟨added, handed, o₁, stats, hsearched, hadded, hrun⟩ := fixUpWithin_searches h.notes
    h.names hbase h.written (Operation.closes_iff.1 h.closes).1 h.built h.ready hnodup hsub
  have hg := hsearched.grown
  set jump' : Operation := {jump with args := jump.args ++ handed}
  have hreads : ∀ b, b ∈ boxesRead (o₁.out.push jump').toList ↔ Read (jump.args ++ handed) o₁ b :=
    fun _ => mem_boxesRead_push jump' (Operation.closes_iff.1 h.closes).1 h.plain
  have hfrom : ∀ b, Read (jump.args ++ handed) o₁ b → (o₁.values.IsFromStart b ↔ b ∈ base) :=
    fun b hb => hsearched.built.table.isFromStart_iff
      (hsearched.ready h.built.table.inRange h.ready hb)
  refine ⟨_, _, hrun, ?_, ?_, hsearched.nodup, ⟨added, rfl, fun b hb => ?_⟩,
    fun b hb hstart => ?_, jump', by simp, h.closes, ?_⟩
  · show o₁.token = target
    rw [hg.same]
    exact h.token
  · exact hg.at_ h.notes
  · have hmem : b ∈ base := hsearched.subset (List.mem_append_right _ hb)
    exact ⟨(hfrom b (hadded b hb)).2 hmem, (hreads b).2 (hadded b hb)⟩
  · have hread := (hreads b).1 hb
    exact hsearched.closed b ((hfrom b hread).1 hstart) hread
  · refine List.rel_append (h.hands.imp fun b k ⟨a, ha, hk⟩ => ⟨a, ha, ?_⟩)
      (hsearched.hands.imp fun _ _ hk => hk.continues)
    exact hg.emittedAs h.built.table.inRange hk

/-- Where a preamble was closed, all recorded operations were gone through once more behind it,
and then the search for inputs ended. -/
theorem closePreamble_rounds {N : Nat} {o' : Optimizer}
    (hrest : rest.map (·.pass) = c.behind.map some)
    (hw : Working T inputs [] (inputs ++ results body) (o.numbered N)) (hat : At rest n o)
    (hrecorded : n.recorded = body ++ [jump]) (hinputs : o.inputs = inputs)
    (hjump : Closes o.token inputs body jump) {nextGuard nextBox : Nat}
    (hbody : Coming T inputs nextGuard nextBox body)
    (h : (closePreamble (send c.behind.length) 0 jump).run.run o = (.ok (), o')) :
    ∃ preamble loopInputs entered written inputs' fixed base T' defined n' out last,
      (turn 0 inputs jump.args).run.run o = (.ok loopInputs, entered) ∧
      (replay (send c.behind.length) 0 loopInputs (body ++ [jump])).run.run entered =
        (.ok (), written) ∧
      (fixUp 0 loopInputs).run.run written = (.ok inputs', fixed) ∧
      loopInputs = distinctBoxes (jump.args.map (·.mapBox entered.standsFor)) ∧
      base ⊆ inputs ++ results body ∧ loopInputs.Nodup ∧ loopInputs ⊆ base ∧
      Round T' base defined (inputs ++ results body) loopInputs rest o.token n' out last written ∧
      o' = {fixed with
        preamble := some ⟨inputs, preamble ++ [.jumpTo fixed.token (inputs'.map .box)]⟩
        inputs := inputs'} := by
  obtain ⟨preamble, loopInputs, entered, written, inputs', fixed, -, hturn, hreplay, hfix, ho'⟩ :=
    closePreamble_run hat h
  rw [hinputs] at hturn ho'
  rw [hrecorded] at hreplay
  obtain ⟨base, n₁, hreplaying, htoken, hbase, hnodup, hsub, hfirst⟩ :=
    (turn_ends (E := fun _ => True) hw hat hjump).of_run hturn
  obtain ⟨T', defined', n', out, jump', hround⟩ := (replay_rounds hrest hreplaying
    (by rwa [htoken]) hbody hsub hbase).of_run hreplay
  rw [htoken] at hround
  exact ⟨preamble, loopInputs, entered, written, inputs', fixed, base, T', defined', n', out,
    jump', hturn, hreplay, hfix, hfirst, hbase, hnodup, hsub, hround, ho'⟩

/-- A preamble that was closed leaves inputs and jump in step. -/
theorem closePreamble_inStep {N : Nat} {o' : Optimizer}
    (hrest : rest.map (·.pass) = c.behind.map some)
    (hw : Working T inputs [] (inputs ++ results body) (o.numbered N)) (hat : At rest n o)
    (hrecorded : n.recorded = body ++ [jump]) (hinputs : o.inputs = inputs)
    (hjump : Closes o.token inputs body jump) {nextGuard nextBox : Nat}
    (hbody : Coming T inputs nextGuard nextBox body)
    (h : (closePreamble (send c.behind.length) 0 jump).run.run o = (.ok (), o')) :
    ∃ loopInputs entered written inputs' fixed n' preamble,
      (turn 0 inputs jump.args).run.run o = (.ok loopInputs, entered) ∧
      (replay (send c.behind.length) 0 loopInputs (body ++ [jump])).run.run entered =
        (.ok (), written) ∧
      (fixUp 0 loopInputs).run.run written = (.ok inputs', fixed) ∧
      (∃ rounds, ∀ fuel ≥ rounds,
        (fixUpWithin fuel 0 loopInputs).run.run written = (.ok inputs', fixed)) ∧
      loopInputs = distinctBoxes (jump.args.map (·.mapBox entered.standsFor)) ∧
      At rest n' fixed ∧
      InStep o.token loopInputs inputs' n'.next fixed.values fixed.out.toList ∧
      o' = {fixed with
        preamble := some ⟨inputs, preamble ++ [.jumpTo o.token (inputs'.map .box)]⟩
        inputs := inputs'} := by
  obtain ⟨preamble, loopInputs, entered, written, inputs', fixed, base, T', defined', n', out,
    jump', hturn, hreplay, hfix, hfirst, hbase, hnodup, hsub, hround, rfl⟩ :=
    closePreamble_rounds hrest hw hat hrecorded hinputs hjump hbody h
  obtain ⟨inputs'', fixed', hrun, htoken, hat', hstep⟩ := hround.inStep hbase hnodup hsub
  have hsame := hfix
  rw [fixUp_eq, hrun _ (Nat.le_refl _)] at hsame
  cases hsame
  exact ⟨loopInputs, entered, written, inputs', fixed, n', preamble, hturn, hreplay, hfix,
    ⟨_, hrun⟩, hfirst, hat', hstep, by rw [htoken]⟩

/-- The operation that closes the loop is sent: the preamble is closed, and peeling put back. -/
theorem sendTo_closes {o' : Optimizer} (hchain : o.chain = (⟨some .peel, n⟩ :: rest).toArray)
    (hrest : rest.map (·.pass) = c.behind.map some) (hclose : jump.closes o.token = true)
    (h : (sendTo 0 jump).run.run o = (.ok (), o')) :
    ∃ o₁, (closePreamble (send c.behind.length) 0 jump).run.run {o with
        chain := (⟨none, n⟩ :: rest).toArray, cursor := 0} = (.ok (), o₁) ∧
      o' = {o₁ with
        cursor := o.cursor, chain := o₁.chain.modify 0 fun s => {s with pass := some .peel}} := by
  have hinner : Ends (fun _ => True) (Peel.step (send c.behind.length) 0 jump) {o with
      chain := (⟨none, n⟩ :: rest).toArray, cursor := 0} fun _ o₁ =>
        (closePreamble (send c.behind.length) 0 jump).run.run {o with
          chain := (⟨none, n⟩ :: rest).toArray, cursor := 0} = (.ok (), o₁) := by
    unfold Peel.step
    rw [ends_bind, ends_get, if_pos hclose]
    exact ends_run
  exact (head_ends (C := fun _ => True) hchain hrest (Q := fun _ o' => ∃ o₁,
    (closePreamble (send c.behind.length) 0 jump).run.run {o with
      chain := (⟨none, n⟩ :: rest).toArray, cursor := 0} = (.ok (), o₁) ∧
    o' = {o₁ with
      cursor := o.cursor, chain := o₁.chain.modify 0 fun s => {s with pass := some .peel}})
    (hinner.mono fun _ o₁ hrun => ⟨o₁, hrun, rfl⟩)).of_run h

/-- The operation that lands on the inputs of a trace closes the loop. -/
theorem closes_of_split {t : Trace} (ht : t.Drawn) (hsplit : t.Split body jump)
    (hclose : jump.closes t.token = true) (htoken : target = t.token) :
    Closes target t.inputs body jump :=
  ⟨htoken ▸ hclose, hsplit.fits, ht.plain jump (by simp [hsplit.ops]), hsplit.kinds hclose,
    hsplit.nodup⟩

/-- Where all that stands in front of the last operation was sent, it is that operation's turn,
and peeling stands first with all that it recorded. -/
theorem processed_of_run {t : Trace} (hsplit : t.Split body jump) (hpeel : c.peel = true)
    (hbody : (body.forM (sendTo 0)).run.run (c.begin t) = (.ok (), o)) :
    Processed c.behind body (c.begin t) o ∧ c.after t (t.ops.length - 1) = o ∧
      o.chain = (⟨some .peel, { recorded := t.ops }⟩ :: stagesBehind c).toArray := by
  have hprocessed : Processed c.behind body (c.begin t) o :=
    (processed_of_open (C := fun _ => True) (fun _ _ _ => trivial) (ready_begin c t)
      (intact_begin c t) fun op hop _ => closes_of_mem hsplit hop _).of_run hbody
  refine ⟨hprocessed, ?_, ?_⟩
  · rw [Config.after, hsplit.take_front, hbody]
  · rw [hprocessed.keeps.chain]
    simp [Config.begin, Config.chain, hpeel, stagesBehind]

/-- A run over a trace that ends in the jump back ends behind the loop that is written there. -/
theorem run_closes {t : Trace} {o' : Optimizer} (hsplit : t.Split body jump)
    (hpeel : c.peel = true) (hclose : jump.closes t.token = true)
    (h : run.run.run (c.optimizer t) = (.ok (), o')) :
    ∃ o o₁, Processed c.behind body (c.begin t) o ∧ c.after t (t.ops.length - 1) = o ∧
      o.chain = (⟨some .peel, { recorded := t.ops }⟩ :: stagesBehind c).toArray ∧
      (closePreamble (send c.behind.length) 0 jump).run.run {o with
        chain := (⟨none, { recorded := t.ops }⟩ :: stagesBehind c).toArray, cursor := 0} =
          (.ok (), o₁) ∧
      o' = {o₁ with
        cursor := o.cursor, chain := o₁.chain.modify 0 fun s => {s with pass := some .peel}} := by
  rw [run_eq, hsplit.ops] at h
  obtain ⟨o, hbody, h⟩ := run_forM_append.1 h
  obtain ⟨hprocessed, hafter, hchain⟩ := processed_of_run hsplit hpeel hbody
  have htoken : o.token = t.token := hprocessed.keeps.token
  obtain ⟨⟨⟩, _, hsend, hend⟩ := run_bind_ok.1 h
  cases hend
  obtain ⟨o₁, hclosed, ho'⟩ :=
    sendTo_closes hchain (map_pass_stagesBehind c) (by rwa [htoken]) hsend
  exact ⟨o, o₁, hprocessed, hafter, hchain, hclosed, ho'⟩

end
end Optimizer

namespace Config
open Optimizer

/-- The state in which a run over the trace ends. -/
def ending (c : Config) (t : Trace) : Optimizer :=
  (run.run.run (c.optimizer t)).2

/-- What each box of an iteration is in the next, when the run has ended. -/
def argmap (c : Config) (t : Trace) : Bindings Box Operand :=
  (((c.ending t).chain[0]?.map Stage.peeling).getD {}).next

/-- The boxes that the operands of the last operation stand for when the preamble closes. -/
def firstInputs (c : Config) (t : Trace) : List Box :=
  ((((t.ops.getLast?.map (·.args)).getD []).map (·.mapBox (c.around t 0).standsFor)).filterMap
    Operand.box?).eraseDups

/-- The search for inputs of the loop ends by itself, with more rounds it would end in the same
way, and then the inputs and what the jump hands over are in step. The preamble hands over
just those inputs. -/
theorem inputs_inStep {c : Config} {t : Trace} {l : Loop} (ht : t.Drawn) (hpeel : c.peel = true)
    (hclose : ∃ jump, t.ops.getLast? = some jump ∧ jump.closes t.token = true)
    (h : c.optimizeLoop t = .ok l) :
    (∃ o, (Peel.fixUp 0 (c.firstInputs t)).run.run (c.around t t.ops.length) = (.ok l.inputs, o) ∧
      o.out.toList = l.ops ∧ ∃ rounds, ∀ fuel ≥ rounds,
        (Peel.fixUpWithin fuel 0 (c.firstInputs t)).run.run (c.around t t.ops.length) =
          (.ok l.inputs, o)) ∧
    InStep t.token (c.firstInputs t) l.inputs (c.argmap t) (c.ending t).values l.ops ∧
    ∃ p, l.preamble = some p ∧
      p.ops.getLast? = some (.jumpTo t.token (l.inputs.map .box)) := by
  obtain ⟨hverify, o', hrun, rfl⟩ := run_of_ok h
  have hending : c.ending t = o' := by rw [ending, hrun]
  obtain ⟨body, jump, hsplit⟩ := Trace.exists_split hverify
  have hlast : t.ops.getLast? = some jump := by simp [hsplit.ops]
  obtain ⟨_, hjump, hclose⟩ := hclose
  cases hlast.symm.trans hjump
  obtain ⟨o, o₁, hprocessed, hafter, hchain, hclosed, rfl⟩ := run_closes hsplit hpeel hclose hrun
  have hk := hprocessed.keeps
  have htoken : o.token = t.token := hk.token
  obtain ⟨T, N, -, hcoming, hw⟩ := hprocessed.working_of_drawn ht hsplit
  obtain ⟨loopInputs, entered, written, inputs, fixed, n, preamble, hturn, hreplay, hfix,
      hrounds, hfirst, hat, hstep, rfl⟩ :=
    closePreamble_inStep (N := N) (map_pass_stagesBehind c) (o := {o with
      chain := (⟨none, { recorded := t.ops }⟩ :: stagesBehind c).toArray, cursor := 0})
      { hw with } rfl hsplit.ops hk.inputs (closes_of_split ht hsplit hclose htoken) hcoming hclosed
  -- The states of the second way.
  have hsecond := fun k => secondWay_run (c := c) hchain rfl hlast hturn k
  have hstart : c.around t 0 = entered := by
    rw [around, hafter, hsecond]
    rfl
  have hwritten : c.around t t.ops.length = written := by
    rw [around, hafter, hsecond, List.take_length, hsplit.ops, hreplay]
  have hinputs' : c.firstInputs t = loopInputs := by
    rw [firstInputs, hlast, hstart, hfirst, Peel.distinctBoxes_eq]
    rfl
  have hargmap : c.argmap t = n.next := by
    rw [argmap, hending, show fixed.chain = _ from hat]
    rfl
  rw [hinputs', hwritten, hargmap, hending]
  have hstep : InStep t.token loopInputs inputs n.next fixed.values fixed.out.toList :=
    htoken ▸ hstep
  refine ⟨⟨fixed, hfix, rfl, hrounds⟩, hstep, _, rfl, ?_⟩
  rw [List.getLast?_append, ← htoken]
  rfl

/-- Counts on by a multiple of an input that stays the same. -/
def scaling : Trace :=
  let (i, t) := (Trace.start "scaling").input .int
  let (step, t) := t.input .int
  let (scaled, t) := t.record .intMul [.box step, .const (.int 3)] .int
  let (sum, t) := t.record .intAdd [.box i, .box scaled] .int
  t.close [.box sum, .box step]

/-- The multiple is computed in the preamble and becomes an input of the loop. -/
theorem scaling_inStep : ∃ l, optimizeLoop {} scaling = .ok l ∧
    l.inputs.length = (firstInputs {} scaling).length + 1 ∧
    InStep scaling.token (firstInputs {} scaling) l.inputs (argmap {} scaling)
      (ending {} scaling).values l.ops := by
  obtain ⟨l, hl, hmore⟩ : ∃ l, optimizeLoop {} scaling = .ok l ∧
      (l.inputs.length == (firstInputs {} scaling).length + 1) = true :=
    exists_ok_of_any (by decide +kernel)
  exact ⟨l, hl, beq_iff_eq.1 hmore,
    (inputs_inStep (by decide : scaling.Drawn) rfl ⟨_, rfl, by decide⟩ hl).2.1⟩

end Config
end TracePeel
