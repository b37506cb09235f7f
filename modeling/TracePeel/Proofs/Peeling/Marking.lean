import TracePeel.Proofs.Effects
import TracePeel.Proofs.Peeling.Fixpoint
import TracePeel.Proofs.Refusing

/-! What the loop may rely on when the preamble has closed.

Marking looks at the level of a slot only: what is neither a constant nor an object held back is
marked. That is enough because every other slot stands for a box that is available in the
preamble, and each of these was walked, so it has a name in the next iteration.

An object that is still held back then is lost to the loop. `Severed` is the invariant: what the
next iteration is made of was handed over by the jump, which forced it, or is new, and neither
leads to such an object. So nothing forces it any more and no operation names it (`Spares`). This
holds also where the run is refused on the way: what is refused is a guard, and it leaves nothing
behind but operands that were met. -/
namespace TracePeel

/-- The value is no constant and no object held back, and it stands for one of the boxes. -/
structure Slot.StandsFor (boxes : List Box) (s : Slot) : Prop where
  notConstant : s.isConstant = false
  notVirtual : s.isVirtual = false
  box : ∃ b ∈ boxes, s.operand = .box b

/-- What is marked are the values that stand for a box of the preamble. -/
theorem Values.Consistent.marked_iff {v : Values} {defined base : List Box}
    (h : v.markFromStart.Consistent defined base base) (id : ValueId) :
    (v.markFromStart.slot id).fromStart = true ↔ (v.markFromStart.slot id).StandsFor base := by
  by_cases hid : id < v.slots.size
  · have hslot := Values.Consistent.slot_markFromStart v id hid
    have hsafe : (v.markFromStart.slot id).fromStart =
        (v.markFromStart.slot id).isSafeToForce := by rw [hslot]; rfl
    have hsound := h.slots id (by simpa [Values.markFromStart] using hid)
    constructor
    · intro hmarked
      obtain ⟨hconstant, hvirtual⟩ : (v.markFromStart.slot id).isConstant = false ∧
          (v.markFromStart.slot id).isVirtual = false := by
        rw [hsafe] at hmarked
        simpa [Slot.isSafeToForce] using hmarked
      refine ⟨hconstant, hvirtual, ?_⟩
      cases hoperand : (v.markFromStart.slot id).operand with
      | const c =>
        rw [hsound.constant, hoperand] at hconstant
        cases hconstant
      | box b => exact ⟨b, (hsound.fromStart b hoperand).1 hmarked, rfl⟩
    · rintro ⟨-, -, b, hb, hoperand⟩
      exact (hsound.fromStart b hoperand).2 hb
  · rw [Values.slot_of_not_lt (by simpa [Values.markFromStart] using hid)]
    constructor
    · intro hmarked
      cases hmarked
    · rintro ⟨-, -, b, -, hoperand⟩
      cases hoperand

namespace Optimizer
open Peel

/-- What the boxes of one iteration are in the next, as peeling notes it. -/
def argmap (o : Optimizer) : Bindings Box Operand :=
  ((o.chain[0]?.map Stage.peeling).getD {}).next

theorem At.argmap {rest : List Stage} {n : Peeling} {o : Optimizer} (h : At rest n o) :
    o.argmap = n.next := by
  rw [Optimizer.argmap, show o.chain = _ from h]
  rfl

/-- The objects that the table `v` holds back are as they were, each under its box, and nothing
leads to one of them: no box that an operation of the list names, and nothing that a box is in
the next iteration. -/
structure Spares (v : Values) (o : Optimizer) : Prop where
  kept : ∀ id, v.Holding id → o.values.slot id = v.slot id
  home : ∀ id b, v.Holding id → (v.slot id).operand = .box b → o.values.lookup b = some id
  unnamed : ∀ op ∈ o.out.toList, ∀ b, .box b ∈ op.usedArgs ∨ op.result = some b →
    o.values.Live v.Holding (.box b)
  unreached : ∀ b a, o.argmap.get? b = some a → o.values.Live v.Holding a

section
variable {v : Values} {o o' : Optimizer} {seen : Box → Prop} {n : Peeling}
  {source : List Operation}

/-- The state is changed where it is not asked for. -/
theorem Spares.congr (h : Spares v o) (hvalues : o'.values = o.values) (hout : o'.out = o.out)
    (hnext : o'.argmap = o.argmap) : Spares v o' := by
  refine ⟨?_, ?_, ?_, ?_⟩
  · rw [hvalues]
    exact h.kept
  · rw [hvalues]
    exact h.home
  · rw [hvalues, hout]
    exact h.unnamed
  · rw [hvalues, hnext]
    exact h.unreached

/-- The table changes, and nothing comes to lead to the objects. -/
theorem Spares.stays (h : Spares v o) (hs : Stays v.Holding seen source o o')
    (hout : o'.out = o.out) (hnext : o'.argmap = o.argmap) : Spares v o' := by
  have hkept : ∀ id, v.Holding id → o'.values.slot id = v.slot id :=
    fun id hid => (hs.kept id hid).trans (h.kept id hid)
  refine ⟨hkept, fun id b hid hb => hs.sealed.values.home id b (by rwa [hkept id hid]), ?_, ?_⟩
  · rw [hout]
    exact fun op hop b hb => hs.live _ (h.unnamed op hop b hb)
  · rw [hnext]
    exact fun b a ha => hs.live a (h.unreached b a ha)

/-- The invariant while the operations `source` are sent for the list that goes round: what is
used and what is written does not lead to the objects that `v` holds back. -/
structure Severed (v : Values) (seen : Box → Prop) (n : Peeling) (source : List Operation)
    (o : Optimizer) : Prop where
  sealed : o.Sealed v.Holding seen source
  naming : Naming v.Holding seen n o
  kept : ∀ id, v.Holding id → o.values.slot id = v.slot id
  written : results o.out.toList ⊆ results source
  live : ∀ r ∈ results source, o.values.Live v.Holding (.box r)

theorem Severed.stays (h : Severed v seen n source o) (hs : Stays v.Holding seen source o o')
    (hwritten : results o'.out.toList ⊆ results source) : Severed v seen n source o' :=
  ⟨hs.sealed, h.naming.stays hs, fun id hid => (hs.kept id hid).trans (h.kept id hid), hwritten,
    fun r hr => hs.live _ (h.live r hr)⟩

/-- What is ready leads to no object: it was marked, or one of the operations produced it. -/
theorem Severed.live_of_ready (h : Severed v seen n source o) {base : List Box} {b : Box}
    (hb : o.values.Ready (base ++ results o.out.toList) base (.box b)) :
    o.values.Live v.Holding (.box b) := by
  obtain ⟨hmem, hstart⟩ := hb b rfl
  rcases List.mem_append.1 hmem with hbase | hresult
  · obtain ⟨id, hid, hmarked, -⟩ := hstart hbase
    intro id' hid'
    rw [hid] at hid'
    cases hid'
    exact h.sealed.values.marked id hmarked
  · exact h.live b (h.written hresult)

theorem Severed.spares (h : Severed v seen n source o) (base : List Box)
    (hnext : o.argmap = n.next) (hread : ∀ b ∈ boxesRead o.out.toList,
      o.values.Ready (base ++ results o.out.toList) base (.box b)) : Spares v o where
  kept := h.kept
  home id b hid hb := h.sealed.values.home id b (by rwa [h.kept id hid])
  unnamed op hop b hb := by
    rcases hb with hb | hb
    · exact h.live_of_ready (hread b (mem_boxesRead.2 ⟨op, hop, hb⟩))
    · exact h.live b (h.written (mem_results.2 ⟨op, hop, hb⟩))
  unreached b a ha := (h.naming b a (hnext ▸ ha)).1

/-- What is written behind a list produces nothing that the operations do not. -/
theorem results_subset_of_supplied {list forced : List Operation} {last : Operation}
    (hlist : results list ⊆ results source) (hforced : ∀ f ∈ forced, f.SuppliedBy source)
    (hlast : ∀ r, last.result = some r → r ∈ results source) :
    results (list ++ forced ++ [last]) ⊆ results source := by
  intro r hr
  obtain ⟨op, hop, hresult⟩ := mem_results.1 hr
  simp only [List.mem_append, List.mem_singleton] at hop
  rcases hop with (hop | hop) | rfl
  · exact hlist (mem_results.2 ⟨op, hop, hresult⟩)
  · exact (hforced op hop).result_mem hresult
  · exact hlast r hresult

end

/-! ### The operations in front of the jump -/

section
variable {c : Config} {v : Values} {T T' : FrameTable} {base defined walked : List Box}
  {rest : List Stage} {n n' : Peeling} {source : List Operation} {o o₁ o' : Optimizer}
  {op op' : Operation} {nextGuard nextBox : Nat}

/-- The invariant while the recorded operations are gone through once more. -/
structure Sparing (v : Values) (T : FrameTable) (base defined walked : List Box)
    (rest : List Stage) (n : Peeling) (source : List Operation) (o : Optimizer) : Prop extends
    Replaying T base defined walked rest n o, Severed v (· ∈ defined) n source o

theorem Sparing.spares (h : Sparing v T base defined walked rest n source o) : Spares v o :=
  h.toSevered.spares base h.notes.argmap fun _ hb => ready_of_read h.working.built hb

/-- What a box is in the next iteration it was before, or it is what the operation produces. -/
theorem Renamed.next_of_some (hr : Renamed T' rest n n' op op' o o₁) {b : Box} {a : Operand}
    (ha : n'.next.get? b = some a) :
    n.next.get? b = some a ∨ ∃ r, op'.result = some r ∧ a = .box r := by
  cases hresult : op.result with
  | none =>
    rw [(hr.unproduced hresult).2] at ha
    exact .inl ha
  | some r =>
    obtain ⟨hresult', hnext⟩ := hr.produced r hresult
    rw [hnext, Bindings.get?_set] at ha
    split at ha
    next => exact .inr ⟨_, hresult', (Option.some.inj ha).symm⟩
    next => exact .inl ha

/-- An operation of the next iteration leads to no object, and what it produces is new. -/
theorem Sparing.expects (h : Sparing v T base defined walked rest n source o)
    (hr : Renamed T' rest n n' op op' o o₁) (hop : op'.Comes T' defined nextGuard nextBox) :
    Unmet op' o ∧
      Expects v.Holding (· ∈ op'.result.toList ++ defined) (source ++ [op']) op' o := by
  have hlive : ∀ a' ∈ op'.usedArgs, o.values.Live v.Holding a' := by
    intro a' ha'
    obtain ⟨a, -, hnext⟩ := exists_right_of_mem hr.renders.usedArgs.flip ha'
    cases a with
    | const c =>
      cases hnext
      exact h.sealed.values.live_const c
    | box b => exact (h.naming b a' hnext).1
  have hunmet : Unmet op' o := fun r hr =>
    h.working.built.table.index_of_not_defined (hop.fits.produced r hr).2.2
  refine ⟨hunmet, fun _ => by simp, hlive, fun b hb => ?_, fun r hr => by simp [hr],
    fun r hr hmem => ?_, fun r hr id hid => ?_, fun r hr => .inl (hunmet r hr)⟩
  · exact List.mem_append_right _ (hop.fits.reads b hb)
  · exact (hop.fits.produced r hr).2.2 (hop.reads_args r hmem)
  · rw [hunmet r hr] at hid
    cases hid

/-- One recorded operation is gone through and dealt with. -/
theorem Sparing.step {events : Array Event} (h : Sparing v T base defined walked rest n source o)
    (hT : T.Extends T') (hr : Renamed T' rest n n' op op' o o₁)
    (hop : op.Comes T walked nextGuard nextBox) (hs : Handled c.behind op' {o₁ with events} o') :
    ∃ T'', T.Extends T'' ∧ Sparing v T'' base (op'.result.toList ++ defined)
      (op.result.toList ++ walked) rest n' (source ++ [op']) o' := by
  obtain ⟨T'', hT'', hreplaying, -⟩ := h.toReplaying.step hT hr hop hs
  obtain ⟨hunmet, hexpects⟩ := h.expects hr (hr.comes h.toReplaying hop)
  obtain ⟨pool, rfl⟩ : ∃ pool, o₁ = {o with chain := (⟨none, n'⟩ :: rest).toArray, pool} :=
    ⟨_, hr.same⟩
  have hseen : ∀ b, b ∈ defined → b ∈ op'.result.toList ++ defined :=
    fun b => List.mem_append_right _
  have hi := h.working.intact
  have hmono := h.sealed.mono hseen (List.subset_append_left source [op'])
  have hsealed : Sealed v.Holding (· ∈ op'.result.toList ++ defined) (source ++ [op'])
      {o with chain := (⟨none, n'⟩ :: rest).toArray, pool, events} := ⟨hmono.values, hmono.known⟩
  obtain ⟨hstays, hout⟩ := hs.sends ⟨hi.values, hi.known⟩ hsealed { hexpects with } hunmet
  refine ⟨T'', hT'', hreplaying, hstays.sealed, fun b a ha => ?_, fun id hid => ?_, ?_,
    fun r hresult => ?_⟩
  · rcases hr.next_of_some ha with ha | ⟨r, hresult, rfl⟩
    · have husable := h.naming b a ha
      exact hstays.usable ⟨husable.1, fun b' hb' => hseen b' (husable.2 b' hb')⟩
    · refine hstays.usable ⟨hexpects.produces r hresult, ?_⟩
      rintro _ ⟨⟩
      exact hexpects.seen r hresult
  · exact (hstays.kept id hid).trans (h.kept id hid)
  · have hwritten : results o.out.toList ⊆ results (source ++ [op']) := by
      rw [results_append]
      exact List.subset_append_of_subset_left _ h.written
    rcases hout with ⟨-, hout⟩ | ⟨forced, hforced, hout⟩
    · rw [hout]
      exact hwritten
    · rw [hout]
      refine results_subset_of_supplied hwritten hforced fun r hresult => ?_
      exact mem_results.2 ⟨op', by simp, hresult⟩
  · refine hstays.live _ ?_
    rw [results_append, List.mem_append] at hresult
    rcases hresult with hresult | hresult
    · exact h.live r hresult
    · obtain ⟨_, hmem, hresult⟩ := mem_results.1 hresult
      cases List.mem_singleton.1 hmem
      exact hexpects.produces r hresult

/-- Where an operation is refused, it was a guard, and only operands of it were met. -/
theorem Sparing.refused {events : Array Event}
    (h : Sparing v T base defined walked rest n source o)
    (hr : Renamed T' rest n n' op op' o o₁) (hop : op.Comes T walked nextGuard nextBox)
    (hs : Refused op' {o₁ with events} o') : Spares v o' := by
  obtain ⟨hguard, hmet⟩ := hs
  have hcomes := hr.comes h.toReplaying hop
  have hnone : op.result = none := by
    cases hresult : op.result with
    | none => rfl
    | some r =>
      have hguard' : op.isGuard = true := by
        rw [Operation.isGuard, ← hr.renders.opcode]
        exact hguard
      have hsome := (hop.fits.guarded hguard').1
      rw [(hop.fresh r hresult).2] at hsome
      cases hsome
  obtain ⟨pool, rfl⟩ : ∃ pool, o₁ = {o with chain := (⟨none, n'⟩ :: rest).toArray, pool} :=
    ⟨_, hr.same⟩
  have hsealed : Sealed v.Holding (· ∈ defined) source
      {o with chain := (⟨none, n'⟩ :: rest).toArray, pool, events} :=
    ⟨h.sealed.values, h.sealed.known⟩
  have hstays := hsealed.of_met hmet hcomes.reads_args
  have hat : At rest n' o' := hmet.chain
  refine h.spares.stays ⟨hstays.sealed, hstays.live, hstays.kept⟩ hmet.sameList.out ?_
  rw [hat.argmap, h.notes.argmap, (hr.unproduced hnone).2]

/-- Whether they are all dealt with or one of them is refused, the objects are spared. -/
theorem replay_spares (hrest : rest.map (·.pass) = c.behind.map some)
    (h : Sparing v T base defined walked rest n source o) {loopInputs : List Box}
    {ops : List Operation} (hops : Coming T walked nextGuard nextBox ops) :
    Leaves (Spares v) (replay (send c.behind.length) 0 loopInputs ops) o fun _ o' =>
      ∃ T' defined' n' source', Sparing v T' base defined' (walked ++ results ops) rest n' source'
        o' ∧ o'.token = o.token := by
  induction ops generalizing T defined walked n source o with
  | nil => exact ⟨T, defined, n, source, by simpa using h, rfl⟩
  | cons op ops ih =>
    have hop := hops.head
    show Leaves _ ((do
      let op ← rename 0 loopInputs op
      tell (.inlined op.opcode)
      send c.behind.length op) >>= fun _ => replay _ 0 loopInputs ops) o _
    rw [leaves_bind, leaves_bind]
    refine (rename_open_ends h.notes h.names hop.ordinary hop.fits.reads hop.neat.frames
      hop.fresh).leaves.mono (fun _ h => h) fun op' o₁ ⟨T₁, n₁, hT₁, hr⟩ => ?_
    rw [leaves_bind, leaves_lift, yields_tell]
    have hin : o₁.values.InRange := by
      rw [hr.same]
      exact h.working.inRange
    refine (behind_leaves (o := {o₁ with events := o₁.events.push (.inlined op'.opcode)})
      (hr.at_.behind hrest) hin op').mono (fun _ hs => h.refused hr hop hs) fun _ o₂ hs => ?_
    obtain ⟨T₂, hT₂, h₂⟩ := h.step hT₁ hr hop hs
    have htoken : o₂.token = o.token := by rw [hs.keeps.token, hr.same]
    refine (ih h₂ (hops.tail hT₂)).mono (fun _ h => h)
      fun _ o' ⟨T', defined', n', source', h', htoken'⟩ => ?_
    exact ⟨T', defined', n', source',
      {h' with names := h'.names.congr fun _ => mem_append_results_cons.symm},
      htoken'.trans htoken⟩

end

/-! ### The turn -/

section
variable {c : Config} {v : Values} {T : FrameTable} {inputs base defined loopInputs : List Box}
  {rest : List Stage} {n : Peeling} {body : List Operation} {jump : Operation}
  {source : List Operation} {target : LoopToken} {o o' : Optimizer}

/-- Where the list that goes round begins, the marks are at the values that stand for a box of the
preamble, and no object that is held back can be reached. -/
theorem turn_spares {N : Nat} (hw : Working T inputs [] (inputs ++ results body) (o.numbered N))
    (hat : At rest n o) (hjump : Closes target inputs body jump) (hi : o.Intact)
    (hsealed : o.Sealed (fun _ => False) (· ∈ inputs ++ results body) source) :
    ∃ loopInputs o' base n', (turn 0 inputs jump.args).run.run o = (.ok loopInputs, o') ∧
      base = inputs ++ results ((capture jump.args).run o).1 ∧ base ⊆ inputs ++ results body ∧
      loopInputs.Nodup ∧ loopInputs ⊆ base ∧ o'.token = o.token ∧
      (∀ id, (o'.values.slot id).fromStart = true ↔ (o'.values.slot id).StandsFor base) ∧
      Sparing o'.values T base (inputs ++ results body) inputs rest n' [] o' := by
  obtain ⟨loopInputs, o', hrun, base, o₁, ks, hbase, hsub, htoken, hent, -⟩ :=
    exists_of_ends (turn_enters (E := fun _ => False) hw hat hjump)
  have hbegun := (turn_begun hat hsealed hi hjump.reads fun b hb => hsub (hbase ▸ hb)).of_run hrun
  have hout : o'.out = #[] := hbegun.out
  have htable := hent.working.built.table
  obtain ⟨_, hsame⟩ := hent.same
  obtain ⟨_, _, -, hmarked⟩ := hent.marked
  refine ⟨loopInputs, o', base, _, hrun, hbase, hsub, hent.nodup, hent.subset,
    by rw [hsame]; exact htoken, fun id => ?_, hent.replaying hjump, hbegun.sealed,
    fun b a ha => ?_, fun _ _ => rfl, by simp [hout], nofun⟩
  · rw [hout, results_nil, List.append_nil, hmarked] at htable
    rw [hmarked]
    exact htable.marked_iff id
  · have hzip := (next_inputs hjump.nodup hjump.kinds.length_eq.symm).1 ha
    exact hbegun.usable a (List.of_mem_zip hzip).2

/-! ### The jump and what is read -/

/-- The jump is never refused, and what is forced for it is no object held back. -/
theorem replayJump_spares {F : Optimizer → Prop}
    (h : Sparing v T base defined (inputs ++ results body) (stagesBehind c) n source o)
    (hjump : Closes o.token inputs body jump) (hloop : loopInputs ⊆ inputs ++ results body) :
    Leaves F (replay (send c.behind.length) 0 loopInputs [jump]) o fun _ o' =>
      At (stagesBehind c) n o' ∧ Severed v (· ∈ defined) n source o' := by
  have hplain := hjump.plain (Operation.isGuard_of_jump hjump.opcode)
  have hreads : ∀ b, .box b ∈ jump.usedArgs → n.next.get? b ≠ none := by
    intro b hb
    obtain ⟨a, ha, -⟩ := h.names.next b (hjump.fits.reads b hb)
    simp [ha]
  have hjumped := replayJump_ends (E := fun _ => False) (map_pass_stagesBehind c) h.toReplaying
    hjump hloop
  refine (hjumped.leaves.and_ends (replayJump_draws h.working.intact h.notes h.sealed
    h.naming hreads hjump.closes hjump.result hplain)).mono (fun _ h => h) ?_
  rintro _ o' ⟨⟨_, _, out, last, hwritten, -⟩, hstays, hchain, ids, o₁, last', hgathers, hout, -⟩
  refine ⟨hchain.trans h.notes, h.toSevered.stays hstays ?_⟩
  rw [hout, Array.toList_push, hgathers.out]
  refine results_subset_of_supplied h.written hgathers.source fun r hr => ?_
  obtain ⟨rfl, -⟩ := Array.push_eq_push.1 (hwritten.out.symm.trans hout)
  rw [hwritten.result] at hr
  cases hr

theorem Round.results_eq {walked : List Box} {out : Array Operation}
    (h : Round T base defined walked loopInputs rest target n out jump o) :
    results o.out.toList = results out.toList := by
  rw [h.written, Array.toList_push]
  simp [h.result]

/-- The list that the jump ends names no object that is held back. -/
theorem Round.spares {walked : List Box} {seen : Box → Prop} {out : Array Operation}
    (h : Round T base defined walked loopInputs rest target n out jump o)
    (hs : Severed v seen n source o) : Spares v o := by
  refine hs.spares base h.notes.argmap fun b hb => ?_
  rw [h.results_eq]
  rw [h.written, mem_boxesRead_push _ (Operation.closes_iff.1 h.closes).1 h.plain] at hb
  rcases hb with hb | hb
  · exact ready_of_read h.built hb
  · exact h.ready _ hb

/-- What the search for inputs forces is no object held back. -/
theorem Round.fixUp_spares {F : Optimizer → Prop} {walked : List Box} {seen : Box → Prop}
    {out : Array Operation}
    (h : Round T base defined walked loopInputs rest target n out jump o)
    (hs : Severed v seen n source o) (hbase : base ⊆ walked) (hnodup : loopInputs.Nodup)
    (hsub : loopInputs ⊆ base) : Leaves F (fixUp 0 loopInputs) o fun _ o' => Spares v o' := by
  have hjump := (Operation.closes_iff.1 h.closes).1
  have hfixed := fixUp_ends (E := fun _ => False) h.notes h.names hbase h.written hjump h.built
    h.ready hnodup hsub
  refine (hfixed.leaves.and_ends (fixUp_draws loopInputs h.notes hs.sealed hs.naming)).mono
    (fun _ h => h) ?_
  rintro _ _ ⟨⟨added, handed, o₁, stats, -, hsearched, rfl⟩, hstays, out', jump', forced, args,
    hout, -, hforced, hwritten⟩
  set last : Operation := {jump with args := jump.args ++ handed}
  obtain ⟨rfl, rfl⟩ : out = out' ∧ jump = jump' := by
    have hpush := congrArg Array.toList (h.written.symm.trans hout)
    rw [Array.toList_push, Array.toList_push] at hpush
    obtain ⟨hfront, hlast⟩ := List.append_inj' hpush rfl
    exact ⟨Array.toList_inj.1 hfront, List.singleton_inj.1 hlast⟩
  have hsevered := hs.stays hstays (by
    rw [hwritten]
    refine results_subset_of_supplied (h.results_eq ▸ hs.written) hforced fun r hr => ?_
    rw [show Operation.result _ = none from h.result] at hr
    cases hr)
  refine hsevered.spares base (hsearched.grown.at_ h.notes).argmap fun b hb => ?_
  have hresults : results (o₁.out.push last).toList = results o₁.out.toList := by
    rw [Array.toList_push]
    simp [last, h.result]
  rw [mem_boxesRead_push last hjump h.plain] at hb
  rw [hresults]
  exact hsearched.ready h.built.table.inRange h.ready hb

/-! ### The whole way -/

/-- All recorded operations are gone through once more, or one of them is refused. -/
theorem replayAll_spares (h : Sparing v T base (inputs ++ results body) inputs (stagesBehind c) n
      source o) (hjump : Closes o.token inputs body jump) {nextGuard nextBox : Nat}
    (hbody : Coming T inputs nextGuard nextBox body) (hloop : loopInputs ⊆ base)
    (hbase : base ⊆ inputs ++ results body) :
    Leaves (Spares v) (replay (send c.behind.length) 0 loopInputs (body ++ [jump])) o
      fun _ o' => ∃ seen source' T' defined' n' out last, Severed v seen n' source' o' ∧
        Round T' base defined' (inputs ++ results body) loopInputs (stagesBehind c) o.token n' out
          last o' := by
  have hrounds := replay_rounds (map_pass_stagesBehind c) h.toReplaying hjump hbody hloop hbase
  have hall : Leaves (Spares v) (replay (send c.behind.length) 0 loopInputs (body ++ [jump])) o
      fun _ o' => ∃ seen source' n', At (stagesBehind c) n' o' ∧ Severed v seen n' source' o' := by
    rw [replay_append, leaves_bind]
    refine (replay_spares (map_pass_stagesBehind c) h hbody).mono (fun _ h => h) ?_
    rintro _ o₁ ⟨T₁, defined₁, n₁, source₁, h₁, htoken⟩
    exact (replayJump_spares h₁ (by rwa [htoken]) (List.Subset.trans hloop hbase)).mono
      (fun _ h => h) fun _ _ hs => ⟨_, _, _, hs⟩
  refine (hall.and_ends hrounds).mono (fun _ h => h) ?_
  rintro _ o' ⟨⟨seen, source', n', hat, hs⟩, T', defined', n'', out, last, hround⟩
  obtain rfl : n' = n'' := by
    have hsame := Array.toList_inj.2 (hat.symm.trans hround.notes)
    cases hsame
    rfl
  exact ⟨seen, source', T', defined', n', out, last, hs, hround⟩

/-- Whatever the closing of the preamble comes to, the objects are spared. -/
theorem closePreamble_spares {started : Peeling} {entered : Optimizer} (hat : At rest n o)
    (hrecorded : n.recorded = body ++ [jump])
    (hturn : (turn 0 o.inputs jump.args).run.run o = (.ok loopInputs, entered))
    (h : Sparing v T base (inputs ++ results body) inputs (stagesBehind c) started source entered)
    (hjump : Closes entered.token inputs body jump) {nextGuard nextBox : Nat}
    (hbody : Coming T inputs nextGuard nextBox body) (hbase : base ⊆ inputs ++ results body)
    (hnodup : loopInputs.Nodup) (hloop : loopInputs ⊆ base) :
    Spares v ((closePreamble (send c.behind.length) 0 jump).run.run o).2 := by
  rw [closePreamble_eq hat, run_bind, hturn, hrecorded]
  refine Leaves.state (F := Spares v) ?_
  rw [leaves_bind]
  refine (replayAll_spares h hjump hbody hloop hbase).mono (fun _ h => h) ?_
  rintro _ written ⟨seen, source', T', defined', n', out, last, hs, hround⟩
  rw [leaves_bind]
  exact (hround.fixUp_spares hs hbase hnodup hloop).mono (fun _ h => h)
    fun _ _ hspares => hspares.congr rfl rfl rfl

/-- Putting peeling back in its place spares them too. -/
theorem sendTo_spares (hchain : o.chain = (⟨some .peel, n⟩ :: stagesBehind c).toArray)
    (hclose : jump.closes o.token = true)
    (h : Spares v ((closePreamble (send c.behind.length) 0 jump).run.run {o with
      chain := (⟨none, n⟩ :: stagesBehind c).toArray, cursor := 0}).2) :
    Spares v ((sendTo 0 jump).run.run o).2 := by
  have hpass : o.passes[0]? = some (some .peel) := by
    rw [passes, hchain]
    rfl
  have hsize : o.chain.size - (0 + 1) = c.behind.length := by
    rw [hchain]
    simp [stagesBehind]
  have hstep : (runPass .peel (send c.behind.length) 0 jump).run.run (o.running 0) =
      (closePreamble (send c.behind.length) 0 jump).run.run (o.running 0) := by
    have hget : (get : Optimize Optimizer).run.run (o.running 0) =
        (.ok (o.running 0), o.running 0) := rfl
    have hclose' : jump.closes (o.running 0).token = true := hclose
    show (Peel.step _ 0 jump).run.run _ = _
    unfold Peel.step
    rw [run_bind, hget]
    dsimp only
    rw [if_pos hclose']
  rw [sendTo_eq_restored hpass, hsize, hstep, running_zero hchain]
  generalize (closePreamble (send c.behind.length) 0 jump).run.run _ = r at h ⊢
  obtain ⟨outcome, o'⟩ := r
  refine h.congr rfl rfl ?_
  unfold argmap
  simp [restored, Array.getElem?_modify, Function.comp_def]

end
end Optimizer

namespace Config
open Optimizer

/-- The preamble as it stands when it closes, without the jump behind it. -/
def captured (c : Config) (t : Trace) : List Operation :=
  ((do
    setPass 0 none
    setCursor 0
    Peel.capture ((t.ops.getLast?.map (·.args)).getD []) : Step (List Operation)).run
      (c.after t (t.ops.length - 1))).1

/-- The preamble of a trace was closed and its list begins to go round: `base` is what the
preamble made available, `entered` the state. -/
structure Opened (c : Config) (t : Trace) (T : FrameTable) (body : List Operation)
    (jump : Operation) (base loopInputs : List Box) (n : Peeling) (entered : Optimizer) :
    Prop where
  split : t.Split body jump
  sent : (body.forM (sendTo 0)).run.run (c.begin t) = (.ok (), c.after t (t.ops.length - 1))
  chain : (c.after t (t.ops.length - 1)).chain =
    (⟨some .peel, { recorded := t.ops }⟩ :: stagesBehind c).toArray
  inputs : (c.after t (t.ops.length - 1)).inputs = t.inputs
  token : (c.after t (t.ops.length - 1)).token = entered.token
  turn : (turn 0 t.inputs jump.args).run.run {c.after t (t.ops.length - 1) with
    chain := (⟨none, { recorded := t.ops }⟩ :: stagesBehind c).toArray, cursor := 0} =
      (.ok loopInputs, entered)
  closes : Closes entered.token t.inputs body jump
  coming : ∃ nextGuard, Coming T t.inputs nextGuard t.pool.nextBox body
  base_eq : base = t.inputs ++ results (c.captured t)
  subset : base ⊆ t.inputs ++ results body
  nodup : loopInputs.Nodup
  loop : loopInputs ⊆ base
  marked : ∀ id, (entered.values.slot id).fromStart = true ↔
    (entered.values.slot id).StandsFor base
  sparing : Sparing entered.values T base (t.inputs ++ results body) t.inputs (stagesBehind c) n []
    entered

section
variable {c : Config} {t : Trace} {T : FrameTable} {body : List Operation} {jump : Operation}
  {base loopInputs : List Box} {n : Peeling} {entered : Optimizer}

/-- Once all in front of the jump was sent, the preamble closes. -/
theorem exists_opened (ht : t.Drawn) (hpeel : c.peel = true)
    (hclose : ∃ jump, t.ops.getLast? = some jump ∧ jump.closes t.token = true)
    (hsent : (((t.ops.take (t.ops.length - 1)).forM (sendTo 0)).run.run (c.begin t)).1 = .ok ()) :
    ∃ T body jump base loopInputs n entered,
      Opened c t T body jump base loopInputs n entered := by
  obtain ⟨body, jump, hsplit⟩ := Trace.exists_split ht.verified
  have hlast : t.ops.getLast? = some jump := by simp [hsplit.ops]
  obtain ⟨_, hjump, hclose⟩ := hclose
  cases hlast.symm.trans hjump
  have htake := hsplit.take_front
  rw [htake] at hsent
  have hbody : (body.forM (sendTo 0)).run.run (c.begin t) =
      (.ok (), c.after t (t.ops.length - 1)) := by
    rw [after, htake]
    exact Prod.ext hsent rfl
  obtain ⟨hprocessed, -, hchain⟩ := processed_of_run hsplit hpeel hbody
  have hopen : ∀ op ∈ t.ops.take (t.ops.length - 1), c.peel = true → op.closes t.token = false := by
    intro op hop _
    rw [htake] at hop
    exact closes_of_mem hsplit hop _
  have hsealed := (front_of_run ht hopen (by rwa [htake]) _ (Nat.le_refl _) (Nat.sub_le _ _)).sealed
  rw [htake] at hsealed
  have hk := hprocessed.keeps
  have hi := hprocessed.intact (intact_begin c t)
  obtain ⟨T, N, -, hcoming, hw⟩ := hprocessed.working_of_drawn ht hsplit
  have hcloses := closes_of_split ht hsplit hclose (show Optimizer.token _ = t.token from hk.token)
  obtain ⟨loopInputs, entered, base, n, hturn, hbase, hsub, hnodup, hloop, htoken, hmarked,
      hsparing⟩ :=
    turn_spares (N := N) (o := {c.after t (t.ops.length - 1) with
      chain := (⟨none, { recorded := t.ops }⟩ :: stagesBehind c).toArray, cursor := 0})
      { hw with } rfl hcloses ⟨hi.values, hi.known⟩ ⟨hsealed.values, hsealed.known⟩
  refine ⟨T, body, jump, base, loopInputs, n, entered, hsplit, hbody, hchain, hk.inputs,
    htoken.symm, hturn, htoken ▸ hcloses, ⟨N, hcoming⟩, ?_, hsub, hnodup, hloop, hmarked, hsparing⟩
  rw [hbase, captured, hlast]
  show _ = t.inputs ++ results ((Peel.capture jump.args).run {c.after t (t.ops.length - 1) with
    chain := Array.modify _ 0 fun s => {s with pass := none}, cursor := 0}).1
  rw [hchain]
  rfl

namespace Opened
variable (h : Opened c t T body jump base loopInputs n entered)
include h

theorem secondWay_eq (k : Nat) : (c.secondWay t k).run.run (c.after t (t.ops.length - 1)) =
    (Peel.replay (send c.behind.length) 0 loopInputs (t.ops.take k)).run.run entered :=
  secondWay_run h.chain rfl (by simp [h.split.ops]) h.turn k

theorem around_zero : c.around t 0 = entered := by
  rw [around, h.secondWay_eq]
  rfl

/-- Behind the operations in front of the jump, each box of the preamble has a name of its kind. -/
theorem named (hreached :
      ((c.secondWay t (t.ops.length - 1)).run.run (c.after t (t.ops.length - 1))).1 = .ok ())
    {b : Box} (hb : b ∈ base) :
    ∃ a, (c.around t (t.ops.length - 1)).argmap.get? b = some a ∧ a.kind = b.kind := by
  obtain ⟨_, hcoming⟩ := h.coming
  have hrun : (Peel.replay (send c.behind.length) 0 loopInputs body).run.run entered =
      (.ok (), c.around t (t.ops.length - 1)) := by
    rw [h.secondWay_eq, h.split.take_front] at hreached
    rw [around, h.secondWay_eq, h.split.take_front]
    exact Prod.ext hreached rfl
  obtain ⟨T', defined', n', source', h', -⟩ :=
    (replay_spares (map_pass_stagesBehind c) h.sparing hcoming).of_run hrun
  obtain ⟨a, ha, hkind, -⟩ := h'.names.next b (h.subset hb)
  exact ⟨a, h'.notes.argmap ▸ ha, hkind⟩

/-- While the recorded operations are gone through once more, the objects are spared. -/
theorem around_spares (k : Nat) : Spares entered.values (c.around t k) := by
  obtain ⟨_, hcoming⟩ := h.coming
  rw [around, h.secondWay_eq]
  rcases Nat.lt_or_ge body.length k with hk | hk
  · have hall : t.ops.take k = body ++ [jump] := by
      rw [h.split.ops, List.take_of_length_le (by simpa using Nat.succ_le_of_lt hk)]
    rw [hall]
    refine ((replayAll_spares h.sparing h.closes hcoming h.loop h.subset).mono
      (fun _ h => h) ?_).state
    rintro _ o' ⟨_, _, _, _, _, _, _, hs, hround⟩
    exact hround.spares hs
  · have hfront : t.ops.take k = body.take k := by
      rw [h.split.ops, List.take_append_of_le_length hk]
    rw [hfront]
    refine ((replay_spares (map_pass_stagesBehind c) h.sparing (hcoming.take k)).mono
      (fun _ h => h) ?_).state
    rintro _ o' ⟨_, _, _, _, h', -⟩
    exact h'.spares

theorem ending_eq : c.ending t = ((sendTo 0 jump).run.run (c.after t (t.ops.length - 1))).2 := by
  have hsent : (forM body (sendTo 0) : Optimize PUnit).run.run (c.begin t) = _ := h.sent
  rw [ending, run_eq, show t.ops.forM (sendTo 0) = forM (body ++ [jump]) (sendTo 0) from
    congrArg (fun ops : List Operation => ops.forM (sendTo 0)) h.split.ops,
    List.forM_append, run_bind, hsent]
  show ((sendTo 0 jump >>= fun _ => pure ⟨⟩ : Optimize PUnit).run.run _).2 = _
  rw [run_bind]
  rcases (sendTo 0 jump).run.run (c.after t (t.ops.length - 1)) with ⟨_ | _, _⟩ <;> rfl

/-- Where the run ends, the objects are spared. -/
theorem ending_spares : Spares entered.values (c.ending t) := by
  obtain ⟨_, hcoming⟩ := h.coming
  rw [h.ending_eq]
  refine sendTo_spares h.chain (by rw [h.token]; exact h.closes.closes) ?_
  refine closePreamble_spares (o := {c.after t (t.ops.length - 1) with
    chain := (⟨none, { recorded := t.ops }⟩ :: stagesBehind c).toArray, cursor := 0}) rfl
    h.split.ops ?_ h.sparing h.closes hcoming h.subset h.nodup h.loop
  rw [show Optimizer.inputs _ = t.inputs from h.inputs]
  exact h.turn

end Opened
end

/-- Once the operations in front of the jump were sent, the preamble closes. What is marked then
are the values that are no constants and no objects held back and stand for an input or for what
an operation of the preamble produces. If the jump is reached, each of these boxes has a name of
its kind in the next iteration. The objects that are held back then are spared, whatever the run
comes to. -/
theorem marking_sound {c : Config} {t : Trace} (ht : t.Drawn) (hpeel : c.peel = true)
    (hclose : ∃ jump, t.ops.getLast? = some jump ∧ jump.closes t.token = true)
    (hsent : (((t.ops.take (t.ops.length - 1)).forM (sendTo 0)).run.run (c.begin t)).1 = .ok ()) :
    ((c.secondWay t 0).run.run (c.after t (t.ops.length - 1))).1 = .ok () ∧
    (∀ id, ((c.around t 0).values.slot id).fromStart = true ↔
      ((c.around t 0).values.slot id).StandsFor (t.inputs ++ results (c.captured t))) ∧
    (((c.secondWay t (t.ops.length - 1)).run.run (c.after t (t.ops.length - 1))).1 = .ok () →
      ∀ b ∈ t.inputs ++ results (c.captured t),
        ∃ a, (c.around t (t.ops.length - 1)).argmap.get? b = some a ∧ a.kind = b.kind) ∧
    (∀ k, Spares (c.around t 0).values (c.around t k)) ∧
    Spares (c.around t 0).values (c.ending t) := by
  obtain ⟨T, body, jump, base, loopInputs, n, entered, h⟩ := exists_opened ht hpeel hclose hsent
  rw [h.around_zero, ← h.base_eq]
  refine ⟨?_, h.marked, fun hreached b hb => h.named hreached hb, h.around_spares, h.ending_spares⟩
  rw [h.secondWay_eq]
  rfl

/-- Keeps the count in an object that is never needed. -/
def dropping : Trace :=
  let (i, t) := (Trace.start "dropping").input .int
  let (held, t) := t.recordWithDescr .new [] (some .ref) (.size "Cell")
  let cell : Operand := held.elim (.const (.ref 0)) .box
  let t := t.append (.setField cell "value" (.box i))
  let (next, t) := t.record .intAdd [.box i, .const (.int 1)] .int
  t.close [.box next]

/-- The preamble ends with the object held back. The value beside it is marked and has a name in
the next iteration, and when the run has ended well the object is still there. -/
theorem dropping_marking : ∃ marked object b a,
    ((around {} dropping 0).values.slot marked).StandsFor
      (dropping.inputs ++ results (captured {} dropping)) ∧
    ((around {} dropping 0).values.slot marked).operand = .box b ∧
    (around {} dropping (dropping.ops.length - 1)).argmap.get? b = some a ∧ a.kind = b.kind ∧
    (around {} dropping 0).values.Holding object ∧
    (ending {} dropping).values.slot object = (around {} dropping 0).values.slot object ∧
    (optimizeLoop {} dropping).isOk = true := by
  obtain ⟨-, hmarked, hnamed, -, hending⟩ := marking_sound (c := {})
    (by decide : dropping.Drawn) rfl ⟨_, rfl, by decide⟩ (by decide +kernel)
  have hstart : ((around {} dropping 0).values.slot 1).fromStart = true := by decide +kernel
  have hstands := (hmarked 1).1 hstart
  obtain ⟨b, hbase, hb⟩ := hstands.box
  obtain ⟨a, ha, hkind⟩ := hnamed (by decide +kernel) b hbase
  have hheld : ((around {} dropping 0).values.slot 0).virtual.isSome = true := by decide +kernel
  have hobject : (around {} dropping 0).values.Holding 0 := Option.isSome_iff_ne_none.1 hheld
  exact ⟨1, 0, b, a, hstands, hb, ha, hkind, hobject, hending.kept 0 hobject, by decide +kernel⟩

end Config
end TracePeel
