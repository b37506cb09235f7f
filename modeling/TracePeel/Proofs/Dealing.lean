import TracePeel.Proofs.Peeling.Fixpoint
import TracePeel.Proofs.Releasing

/-! What becomes of each operation.

Without allocation removal no value is a virtual object, and then nothing is written but
operations that were sent. `Dealt` lists what rewriting makes of one of them, by what becomes of
the list, of the computations that are remembered and of the counts; `Deals` is a run of them.
`dealtWith_of_run` says so of a whole run over a trace, on both ways. -/
namespace TracePeel

/-! ### The ledger -/

/-- How many operations were left out and counted. -/
def Stats.spared (s : Stats) : Nat :=
  s.folded + s.cseHits + s.guardsRemoved

/-- The list being written, the computations that are remembered and the counts. -/
structure Ledger where
  out : List Operation
  known : Bindings PureKey ValueId
  stats : Stats

/-- The operation computes nothing that is remembered: of those that depend on their operands
alone, just a call may have no result. -/
def Operation.Unremembered (op : Operation) : Prop :=
  op.opcode.isAlwaysPure = true → op.opcode = .callPure ∧ op.result = none

theorem Operation.Unremembered.ne_sameAs {op : Operation} (h : op.Unremembered) :
    op.opcode ≠ .sameAs := by
  intro he
  have hcall := (h (by rw [he]; rfl)).1
  rw [he] at hcall
  cases hcall

theorem Operation.unremembered_of_isGuard {op : Operation} (h : op.isGuard = true) :
    op.Unremembered := by
  intro hpure
  simp [Opcode.isAlwaysPure_eq_false_of_isGuard h] at hpure

theorem Operation.unremembered_of_isFinal {op : Operation} (h : op.opcode.isFinal = true) :
    op.Unremembered := by
  intro hpure
  simp [Opcode.isAlwaysPure_eq_false_of_isFinal h] at hpure

open Rewrite in
/-- What becomes of an operation in rewriting. -/
inductive Dealt (op : Operation) (l : Ledger) : Ledger → Prop
  /-- Its result stands for the value of its operand. -/
  | aliased : op.opcode = .sameAs → Dealt op l l
  /-- It is left out, and that is counted. -/
  | spared {stats : Stats} : op.opcode ≠ .sameAs → stats.spared = l.stats.spared + 1 →
      stats.opsIn = l.stats.opsIn → stats.fixupInputs = l.stats.fixupInputs →
      Dealt op l {l with stats}
  /-- It is written. -/
  | written {op' : Operation} : op.Unremembered → op'.opcode = op.opcode →
      op'.result = op.result → Dealt op l {l with out := l.out ++ [op']}
  /-- It is written as a computation that was not made before, and remembered. -/
  | computed {ks : List Operand} {r : Box} {id : ValueId} : op.opcode ≠ .sameAs →
      op.result = some r → l.known.get? (keyOf op ks r) = none →
      (∀ cs, ks = cs.map .const → fold op.opcode cs = none) →
      Dealt op l {l with
        out := l.out ++ [{op with args := ks}]
        known := l.known.set (keyOf op ks r) id}

/-- One operation after the other is dealt with. -/
inductive Deals : List Operation → Ledger → Ledger → Prop
  | nil {l : Ledger} : Deals [] l l
  | cons {op : Operation} {ops : List Operation} {l l₁ l' : Ledger} :
      Dealt op l l₁ → Deals ops l₁ l' → Deals (op :: ops) l l'

theorem Deals.snoc {op : Operation} {ops : List Operation} {l l₁ l' : Ledger}
    (h : Deals ops l l₁) (hop : Dealt op l₁ l') : Deals (ops ++ [op]) l l' := by
  induction h with
  | nil => exact .cons hop .nil
  | cons h₁ _ ih => exact .cons h₁ (ih hop)

namespace Optimizer
open Rewrite Peel

def ledger (o : Optimizer) : Ledger :=
  ⟨o.out.toList, o.known, o.stats⟩

/-- Nothing was written, remembered, counted or held back on the way, and every box stands for
what it stood for. -/
structure Rests (o o' : Optimizer) : Prop where
  ledger : o'.ledger = o.ledger
  unheld : o'.values.Unheld
  standsFor : o'.standsFor = o.standsFor

/-- Where nothing is held back, meeting and forcing write nothing. -/
theorem Grown.rests {o o' : Optimizer} (h : Grown o o') (hi : o.Intact) (hu : o.values.Unheld) :
    Rests o o' := by
  induction h with
  | refl => exact ⟨rfl, hu, rfl⟩
  | met a hg ih =>
    exact ⟨ih.ledger, ih.unheld.valueOf a,
      (funext (standsFor_met (hg.intact hi) a)).trans ih.standsFor⟩
  | forced id _ ih =>
    rw [forcing_of_unheld ih.unheld]
    exact ih
  | told events _ ih => exact ⟨ih.ledger, ih.unheld, ih.standsFor⟩

/-! ### One operation -/

section
variable {op : Operation} {o o' : Optimizer}

/-- Where nothing is held back, an operation is put behind the list and nothing else is. -/
theorem handled_nil (hi : o.Intact) (hu : o.values.Unheld) (h : Handled [] op o o') :
    o'.ledger = {o.ledger with out := o.ledger.out ++ [o.writes op]} ∧
      o'.values = o.values := by
  obtain ⟨chain, cursor, o₂, rfl, rfl⟩ := h
  have hi' : Optimizer.Intact {o with chain, cursor} := ⟨hi.values, hi.known⟩
  obtain ⟨o₁, events, hf, he⟩ := emit_forces hi' op
  rw [hf.idle hu] at he
  rw [he]
  exact ⟨by simp only [ledger, Array.toList_push]; rfl, rfl⟩

/-- An operation that is handed on as it is computes nothing that is remembered. -/
theorem Untouched.unremembered {defined : List Box} {v : Values} (h : Rewrite.Untouched op v)
    (hfits : op.Fits defined) (hu : v.Unheld) : op.Unremembered := by
  cases h with
  | ordinary _ _ hno => exact fun hpure => absurd hpure (by simp [hno])
  | shapeless hguard => exact Operation.unremembered_of_isGuard hguard
  | noResult hpure hno =>
    rcases hno with hnone | ⟨hsame, hargs⟩
    · intro _
      have hneeds := hfits.unproduced hnone
      revert hpure hneeds
      cases hop : op.opcode <;>
        simp [Opcode.isAlwaysPure, Opcode.needsResult, Opcode.hasResult, Opcode.isGuard, hnone]
    · have hone := hfits.arity 1 (by rw [hsame]; rfl)
      rw [hargs] at hone
      cases hone
  | virtual _ _ _ hv =>
    rw [hu.not_isVirtual] at hv
    cases hv

theorem dealt_rewritten {defined available start : List Box}
    (ht : o.values.Consistent defined available start) (hi : o.Intact) (hu : o.values.Unheld)
    (hfits : op.Fits defined) (hplain : op.Plain) (hs : Rewritten (Handled []) op o o') :
    Dealt op o.ledger o'.ledger := by
  have hsent : ∀ {o₁ o₂ : Optimizer}, o₁.Intact → o₁.values.Unheld → o₁.ledger = o.ledger →
      op.Unremembered → Handled [] op o₁ o₂ → Dealt op o.ledger o₂.ledger := by
    intro o₁ o₂ hi₁ hu₁ hl₁ hop hs
    rw [(handled_nil hi₁ hu₁ hs).1, hl₁]
    exact .written hop rfl rfl
  cases hs with
  | @passed o₁ _ hmet hun hs =>
    have hr := hmet.grown.rests hi hu
    exact hsent (hi.of_met hmet) hr.unheld hr.ledger
      (Untouched.unremembered hun hfits hr.unheld) hs
  | dropped _ himplied =>
    refine .spared (Operation.unremembered_of_isGuard himplied.isGuard).ne_sameAs ?_ rfl rfl
    simp only [Stats.spared, ledger]
    omega
  | @kept arg rest f o₁ _ hteaches hs =>
    have hd := hsent (hi.met arg) (hu.valueOf arg) rfl
      (Operation.unremembered_of_isGuard hteaches.isGuard) hs
    exact hd
  | unraised hop =>
    refine .spared (by rw [hop]; nofun) ?_ rfl rfl
    simp only [Stats.spared, ledger]
    omega
  | checked hop _ hs =>
    have hd := hsent hi hu rfl
      (Operation.unremembered_of_isGuard (by rw [Operation.isGuard, hop]; rfl)) hs
    exact hd
  | called hop hs =>
    have hi' : Optimizer.Intact {o with mayRaise := true} := ⟨hi.values, hi.known⟩
    exact hsent hi' hu rfl (fun hpure => by rw [hop] at hpure; cases hpure) hs
  | aliased hop => exact .aliased hop
  | @folded o₁ cs c r _ hne _ hmet =>
    rw [← (hmet.grown.rests hi hu).ledger]
    refine .spared hne ?_ rfl rfl
    simp only [Stats.spared, ledger]
    omega
  | @reused o₁ ks r id _ hne _ hmet =>
    rw [← (hmet.grown.rests hi hu).ledger]
    refine .spared hne ?_ rfl rfl
    simp only [Stats.spared, ledger]
    omega
  | @computed o₁ _ ks r hpure hne hres hmet hks hnone hfold hs =>
    have hr := hmet.grown.rests hi hu
    have ht₁ := hmet.consistent (fun b hb => hfits.reads b (by simp [Operation.usedArgs, hb])) ht
    have ht₂ : Met [.box r] o₁ (o₁.met (.box r)) := .one (List.mem_cons_self ..)
    have hsettles : Settles [] [] (Handled []) := settles_nil
    obtain ⟨events, rfl⟩ := hsettles.computed (o := {o₁.met (.box r) with
      known := o₁.known.set (keyOf op ks r) (o₁.idOf (.box r))}) (ht₁.keeps_valueOf r) hpure hplain
      (hks.imp fun _ _ => ht₂.emittedAs ht₁.inRange) hs
    have hconstant : ∀ cs : List Const, ks = cs.map .const → fold op.opcode cs = none := by
      rintro cs rfl
      refine hfold cs ((List.forall₂_map_right_iff.1 hks).imp ?_)
      rintro a c ⟨id, hid, -, hop⟩
      refine ⟨id, hid, ?_⟩
      rw [(ht₁.slots id (ht₁.inRange a id hid)).constant?_eq, hop]
      rfl
    have hledger : ledger {o₁.met (.box r) with
        out := (o₁.met (.box r)).out.push {op with args := ks}
        known := o₁.known.set (keyOf op ks r) (o₁.idOf (.box r)), events} =
        {o₁.ledger with
          out := o₁.ledger.out ++ [{op with args := ks}]
          known := o₁.ledger.known.set (keyOf op ks r) (o₁.idOf (.box r))} := by
      simp only [ledger, Array.toList_push]
      rfl
    rw [← hr.ledger, hledger]
    exact .computed hne hres hnone hconstant

theorem handled_dealt {defined available start : List Box}
    (ht : o.values.Consistent defined available start) (hi : o.Intact) (hu : o.values.Unheld)
    (hfits : op.Fits defined) (hplain : op.Plain) (h : Handled [.rewrite] op o o') :
    Dealt op o.ledger o'.ledger ∧ o'.values.Unheld := by
  refine ⟨?_, unholding_rewrite op o o' hi hu h⟩
  obtain ⟨chain, cursor, o₂, hs, rfl⟩ := h
  have hi' : Optimizer.Intact {o with chain, cursor} := ⟨hi.values, hi.known⟩
  have hd : Dealt op o.ledger o₂.ledger :=
    dealt_rewritten (o := {o with chain, cursor}) ht hi' hu hfits hplain hs
  exact hd

/-- What ends a list is written. -/
theorem handled_final (hi : o.Intact) (hu : o.values.Unheld) (hfinal : op.opcode.isFinal = true)
    (h : Handled [.rewrite] op o o') : ∃ last, last.opcode = op.opcode ∧
      o'.ledger = {o.ledger with out := o.ledger.out ++ [last]} ∧ o'.values.Unheld := by
  obtain ⟨chain, cursor, o₂, hs, rfl⟩ := h
  have hpure : op.opcode.isAlwaysPure = false ∧ op.isGuard = false :=
    ⟨Opcode.isAlwaysPure_eq_false_of_isFinal hfinal, Opcode.isGuard_eq_false_of_isFinal hfinal⟩
  cases hs with
  | @passed o₁ _ hmet _ hs =>
    have hi' : Optimizer.Intact {o with chain, cursor} := ⟨hi.values, hi.known⟩
    have hr := hmet.grown.rests hi' hu
    obtain ⟨hledger, hvalues⟩ := handled_nil (hi'.of_met hmet) hr.unheld hs
    rw [hr.ledger] at hledger
    exact ⟨o₁.writes op, rfl, hledger, hvalues ▸ hr.unheld⟩
  | dropped _ himplied => simp [himplied.isGuard] at hpure
  | kept _ hteaches => simp [hteaches.isGuard] at hpure
  | unraised hop | checked hop | called hop | aliased hop => rw [hop] at hfinal; cases hfinal
  | folded hop | reused hop | computed hop => simp [hop] at hpure

end

/-! ### The first way -/

section
variable {c : Config} (hc : c.behind = [.rewrite])
include hc

theorem Processed.deals {T : FrameTable} {base start defined : List Box} {ops : List Operation}
    {o o' : Optimizer} (h : Processed c.behind ops o o') (hw : Working T base start defined o)
    (hops : Coming T defined o.pool.nextGuard o.pool.nextBox ops) (hu : o.values.Unheld) :
    Deals ops o.ledger o'.ledger ∧ o'.values.Unheld := by
  induction h generalizing T defined with
  | nil => exact ⟨.nil, hu⟩
  | @cons op ops o o₁ o' hs _ ih =>
    have hop := hops.head
    obtain ⟨hd, hu₁⟩ := handled_dealt hw.built.table hw.intact hu hop.fits hop.neat.plain (hc ▸ hs)
    obtain ⟨T₁, hT₁, hw₁, -⟩ := sends_handled c hw hop hs
    have hk := hs.keeps
    obtain ⟨hds, hu'⟩ := ih hw₁ (by
      rw [hk.nextGuard, hk.nextBox]
      exact hops.tail hT₁) hu₁
    exact ⟨.cons hd hds, hu'⟩

theorem Processed.deals_begin {t : Trace} (ht : t.Drawn) {body : List Operation}
    {last : Operation} (hsplit : t.Split body last) {o : Optimizer}
    (h : Processed c.behind body (c.begin t) o) :
    Deals body (c.begin t).ledger o.ledger ∧ o.values.Unheld := by
  obtain ⟨n, hrecorded⟩ := ht.exists_recorded
  exact (h.numbered n).deals hc (working_begin c hrecorded)
    ((hsplit.numbered n).coming hrecorded) (unheld_begin c t)

theorem straight_deals {t : Trace} (ht : t.Drawn) {o : Optimizer}
    (h : Processed c.behind t.ops (c.begin t) o) : Deals t.ops (c.begin t).ledger o.ledger := by
  obtain ⟨body, last, hsplit⟩ := Trace.exists_split ht.verified
  rw [hsplit.ops] at h ⊢
  obtain ⟨o₁, hbody, hlast⟩ := h.exists_last
  obtain ⟨hd, hu⟩ := hbody.deals_begin hc ht hsplit
  obtain ⟨T, n, -, -, hw⟩ := hbody.working_of_drawn ht hsplit
  have hlast : Dealt last o₁.ledger o.ledger ∧ _ :=
    handled_dealt hw.built.table (hbody.intact (intact_begin c t)) hu hsplit.fits
      (ht.plain last (by simp [hsplit.ops])) (hc ▸ hlast)
  exact hd.snoc hlast.1

/-! ### The second way -/

theorem Replayed.deals {T : FrameTable} {base defined walked : List Box} {rest : List Stage}
    {n n' : Peeling} {ops : List Operation} {o o' : Optimizer}
    (h : Replayed c.behind rest ops n o n' o') (hr : Replaying T base defined walked rest n o)
    {nextGuard nextBox : Nat} (hops : Coming T walked nextGuard nextBox ops)
    (hu : o.values.Unheld) : ∃ again, again.map (·.opcode) = ops.map (·.opcode) ∧
      Deals again o.ledger o'.ledger ∧ o'.values.Unheld := by
  induction h generalizing T defined walked with
  | nil => exact ⟨[], rfl, .nil, hu⟩
  | @cons T₀ op op' ops n n₁ n' o o₁ o₂ o' events _ hrenames hs _ ih =>
    have hop := hops.head
    obtain ⟨T₁, hT₁, hrenamed⟩ := hrenames hr.names hop.fits.reads hop.neat.frames hop.fresh
    have hop' := hrenamed.comes hr hop
    have hvalues : o₁.values = o.values := by rw [hrenamed.same]
    have hledger : ledger {o₁ with events} = o.ledger := by rw [hrenamed.same]; rfl
    have hi : Optimizer.Intact {o₁ with events} := by
      rw [hrenamed.same]
      exact ⟨hr.working.intact.values, hr.working.intact.known⟩
    obtain ⟨hd, hu₂⟩ := handled_dealt (o := {o₁ with events}) (hvalues ▸ hr.working.built.table)
      hi (hvalues ▸ hu) hop'.fits hop'.neat.plain (hc ▸ hs)
    rw [hledger] at hd
    obtain ⟨T₂, hT₂, hr₂, -⟩ := hr.step hT₁ hrenamed hop hs
    obtain ⟨again, hcodes, hds, hu'⟩ := ih hr₂ (hops.tail hT₂) hu₂
    exact ⟨op' :: again, by rw [List.map_cons, List.map_cons, hcodes, hrenamed.renders.opcode],
      .cons hd hds, hu'⟩

omit hc in
theorem standsFor_markFromStart {o : Optimizer} (hr : o.values.InRange) :
    ({o with values := o.values.markFromStart} : Optimizer).standsFor = o.standsFor := by
  funext b
  have hlookup : ({o with values := o.values.markFromStart} : Optimizer).values.lookup b =
      o.values.lookup b := rfl
  unfold standsFor
  rw [hlookup]
  cases hb : o.values.lookup b with
  | none => rfl
  | some id =>
    show (o.values.markFromStart.slot id).operand = (o.values.slot id).operand
    rw [Values.Consistent.slot_markFromStart _ _ (hr _ id hb)]

omit hc in
/-- At the turn the list begins anew, and nothing else happens. -/
theorem turn_rests {rest : List Stage} {n : Peeling} {o : Optimizer} (hat : At rest n o)
    (hi : o.Intact) (hu : o.values.Unheld) (inputs : List Box) (args : List Operand) :
    Ends (fun _ => True) (turn 0 inputs args) o fun _ o' =>
      o'.ledger = {o.ledger with out := []} ∧ o'.values.Unheld ∧ o'.standsFor = o.standsFor := by
  unfold turn
  rw [ends_bind, ends_lift]
  refine (capture_grown args o).mono ?_
  rintro preamble _ ⟨oc, events, hcap, -, rfl⟩
  have hcaptured := hcap.rests hi hu
  have hic := hcap.intact hi
  have hat₁ : At rest n {oc with out := #[], sink := .keeping, mayRaise := false, events} :=
    hcap.at_ hat
  rw [ends_bind, ends_lift, yields_modifyNotes hat₁]
  refine (enter_grown (n := {n with recorded := []}) (o := {oc with
      out := #[], sink := .keeping, mayRaise := false, events
      chain := (⟨none, {n with recorded := []}⟩ :: rest).toArray}) rfl _ _ _).mono ?_
  rintro _ o' ⟨-, om, hmet, hent⟩
  have hib : Optimizer.Intact {oc with
      out := #[], sink := .keeping, mayRaise := false, events
      chain := (⟨none, startingNotes inputs args⟩ :: rest).toArray} := ⟨hic.values, hic.known⟩
  have him : om.Intact := hib.of_met hmet
  have hmeet := hmet.grown.rests hib hcaptured.unheld
  have hmarked : Intact {om with values := om.values.markFromStart} := him.markFromStart
  have hentered := hent.rests hmarked hmeet.unheld.markFromStart
  refine ⟨?_, hentered.unheld, ?_⟩
  · rw [hentered.ledger]
    show om.ledger = _
    rw [hmeet.ledger, ← hcaptured.ledger]
    rfl
  · rw [hentered.standsFor, standsFor_markFromStart him.values.inRange, hmeet.standsFor,
      ← hcaptured.standsFor]
    rfl

/-- What became of the list and the counts on the way from the jump that closes the loop:
`again` are the operations in front of it as they came the second time, `l` is the ledger behind
them, and `added` are the inputs that were found missing. -/
structure Looped (body : List Operation) (args : List Operand) (again : List Operation)
    (l : Ledger) (added : List Box) (o o' : Optimizer) : Prop where
  codes : again.map (·.opcode) = body.map (·.opcode)
  deals : Deals again {o.ledger with out := []} l
  ends : ∃ last, last.opcode = .jump ∧ o'.ledger = {l with
    out := l.out ++ [last]
    stats := {l.stats with fixupInputs := l.stats.fixupInputs + added.length}}
  preamble : ∃ exit, exit.opcode = .jump ∧ o'.preamble = some ⟨o.inputs, o.ledger.out ++ [exit]⟩
  inputs : o'.inputs = distinctBoxes (args.map (·.mapBox o.standsFor)) ++ added

/-- The jump is written in the next iteration, and nothing else is. -/
theorem Jumped.ledger {T : FrameTable} {base defined walked loopInputs : List Box}
    {rest : List Stage} {n : Peeling} {jump jump' last : Operation} {o asked written : Optimizer}
    {out : Array Operation} (h : Jumped c base defined rest n loopInputs jump o asked jump' written
      out last) (hr : Replaying T base defined walked rest n o) (hu : o.values.Unheld)
    (hjump : jump.opcode = .jump) : ∃ last', last'.opcode = .jump ∧
      written.ledger = {o.ledger with out := o.ledger.out ++ [last']} ∧ written.values.Unheld ∧
        written.Intact := by
  obtain ⟨_, n', jump₀, o₁, hrenamed, hasked, hjump', -⟩ := h.renamed
  obtain ⟨events, hs⟩ := h.handled
  have hcode : jump'.opcode = .jump := by
    rw [hjump']
    exact hrenamed.renders.opcode.trans hjump
  have hi : o₁.Intact := by
    rw [hrenamed.same]
    exact ⟨hr.working.intact.values, hr.working.intact.known⟩
  have hu₁ : o₁.values.Unheld := by
    rw [hrenamed.same]
    exact hu
  have hledger : o₁.ledger = o.ledger := by
    rw [hrenamed.same]
    rfl
  have ha := hasked.rests hi hu₁
  have hgrown := hasked.intact hi
  have hi' : Optimizer.Intact {asked with events} := ⟨hgrown.values, hgrown.known⟩
  obtain ⟨last', hlast, hwritten, hu'⟩ := handled_final (o := {asked with events}) hi' ha.unheld
    (by rw [hcode]; rfl) (hc ▸ hs)
  refine ⟨last', hlast.trans hcode, ?_, hu', (settled_handled _ _ _ _ hi' hs).1⟩
  rw [hwritten, ← hledger, ← ha.ledger]
  rfl

theorem closePreamble_looped {T : FrameTable} {rest : List Stage} {n : Peeling} {N : Nat}
    {inputs : List Box} {body : List Operation} {jump : Operation} {o o' : Optimizer}
    (hrest : rest.map (·.pass) = c.behind.map some)
    (hw : Working T inputs [] (inputs ++ results body) (o.numbered N)) (hat : At rest n o)
    (hrecorded : n.recorded = body ++ [jump]) (hinputs : o.inputs = inputs)
    (hjump : Closes o.token inputs body jump) {nextGuard nextBox : Nat}
    (hbody : Coming T inputs nextGuard nextBox body) (hu : o.values.Unheld)
    (h : (closePreamble (send c.behind.length) 0 jump).run.run o = (.ok (), o')) :
    ∃ again l added, Looped body jump.args again l added o o' := by
  have hi : o.Intact := ⟨hw.intact.values, hw.intact.known⟩
  obtain ⟨preamble, loopInputs, entered, written, inputs', fixed, hcapture, hturn, hreplay, hfix,
    rfl⟩ := closePreamble_run hat h
  rw [hrecorded, replay_append] at hreplay
  rw [hinputs] at hturn
  obtain ⟨⟨⟩, replayed, hreplay, hlast⟩ := run_bind_ok.1 hreplay
  -- The preamble is what was written when the jump came.
  have hpreamble : preamble = o.ledger.out := by
    obtain ⟨oc, events, hcap, hpre, -⟩ := capture_grown jump.args o
    rw [← hcapture, hpre]
    exact congrArg Ledger.out (hcap.rests hi hu).ledger
  obtain ⟨base, n₁, hreplaying, htoken, hbase, -, hsub, hfirst⟩ :=
    (turn_ends (E := fun _ => True) hw hat hjump).of_run hturn
  obtain ⟨hledger, hu₁, hstands⟩ := (turn_rests hat hi hu inputs jump.args).of_run hturn
  -- The operations in front of the jump come again.
  have hC : ∀ cause : OptCause, cause.isGuardFailure = true → True := fun _ _ => trivial
  obtain ⟨n₂, T₂, defined, hrep, hT₂, hreplaying₂, -, -⟩ :=
    (replay_ends (C := fun _ => True) hC hrest hreplaying hbody).of_run hreplay
  obtain ⟨again, hcodes, hdeals, hu₂⟩ := hrep.deals hc hreplaying hbody hu₁
  rw [hledger] at hdeals
  -- The jump comes again.
  obtain ⟨asked, jump', out, last, hjumped, -⟩ := (replayJump_ends (E := fun _ => True) hrest
    hreplaying₂ (by rwa [hrep.token, htoken]) (List.Subset.trans hsub hbase)).of_run hlast
  obtain ⟨last', hcode, hwritten, hu₃, hi₃⟩ := hjumped.ledger hc hreplaying₂ hu₂ hjump.opcode
  -- Inputs are added.
  obtain ⟨out', jump₁, o₁, added, handed, hout, hop, hsearched, rfl, rfl⟩ :=
    (fixUp_grown loopInputs written).of_run hfix
  have hi' : Optimizer.Intact {written with out := out'} := ⟨hi₃.values, hi₃.known⟩
  have hs := hsearched.rests hi' hu₃
  have hends : out'.toList = replayed.ledger.out := by
    have hlists := congrArg Ledger.out hwritten
    simp only [ledger, hout, Array.toList_push] at hlists
    exact (List.append_inj' hlists rfl).1
  refine ⟨again, replayed.ledger, added, hcodes, hdeals,
    ⟨{jump₁ with args := jump₁.args ++ handed}, hop, ?_⟩,
    ⟨.jumpTo o₁.token ((loopInputs ++ added).map .box), rfl, ?_⟩, ?_⟩
  · have hlists : o₁.ledger = replayed.ledger := by
      rw [hs.ledger]
      show ({written.ledger with out := out'.toList} : Ledger) = _
      rw [hwritten, hends]
    rw [← hlists]
    simp only [ledger, Array.toList_push]
  · rw [hinputs, hpreamble]
  · show loopInputs ++ added = _
    rw [hfirst, hstands]

/-! ### The whole run -/

omit hc in
/-- How a run dealt with a trace: it went through the trace once, or through what is in front of
the jump twice. -/
inductive DealtWith (c : Config) (t : Trace) (o' : Optimizer) : Prop
  | straight : o'.preamble = none → Deals t.ops (c.begin t).ledger o'.ledger → DealtWith c t o'
  | peeled {body again : List Operation} {jump : Operation} {l : Ledger} {added : List Box}
      {o : Optimizer} : t.ops = body ++ [jump] → jump.opcode = .jump →
      c.after t (t.ops.length - 1) = o → Deals body (c.begin t).ledger o.ledger →
      Looped body jump.args again l added o o' → DealtWith c t o'

theorem dealtWith_of_run {t : Trace} (ht : t.Drawn) {o' : Optimizer}
    (hrun : run.run.run (c.optimizer t) = (.ok (), o')) : DealtWith c t o' := by
  have hran : Ran c t o' := (ran_ends ht.verified).of_run hrun
  cases hran with
  | straight hops _ _ =>
    exact .straight hops.keeps.preamble (straight_deals hc ht hops)
  | @peeled body jump _ o₂ _ chain cursor hpeel hsource hclose _ _ _ =>
    obtain ⟨body', last, hsplit⟩ := Trace.exists_split ht.verified
    obtain ⟨rfl, hlast⟩ := List.append_inj' (hsource.symm.trans hsplit.ops) rfl
    cases hlast
    obtain ⟨o, o₁, hprocessed, hafter, -, hclosed, ho'⟩ := run_closes hsplit hpeel hclose hrun
    have hk := hprocessed.keeps
    have htoken : o.token = t.token := hk.token
    obtain ⟨T, N, -, hcoming, hw⟩ := hprocessed.working_of_drawn ht hsplit
    obtain ⟨hdeals, hu⟩ := hprocessed.deals_begin hc ht hsplit
    obtain ⟨again, l, added, hlooped⟩ := closePreamble_looped hc (N := N)
      (map_pass_stagesBehind c) (o := {o with
        chain := (⟨none, { recorded := t.ops }⟩ :: stagesBehind c).toArray, cursor := 0})
      { hw with } rfl hsplit.ops hk.inputs
      (closes_of_split ht hsplit hclose htoken) hcoming hu hclosed
    have hlooped' : Looped body jump.args again l added o {o₂ with chain, cursor} := by
      rw [ho']
      exact ⟨hlooped.codes, hlooped.deals, hlooped.ends, hlooped.preamble, hlooped.inputs⟩
    exact .peeled hsource (Operation.closes_iff.1 hclose).1 hafter hdeals hlooped'

end
end Optimizer
end TracePeel
