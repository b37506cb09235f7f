import TracePeel.Proofs.Compiled

/-! Every loop is well formed.

Whatever the settings, a recorded trace becomes a loop that passes every check, and
whose list is a recorded trace again; the only other end is a reason that lies in the
trace. So optimizing can go on for any number of rounds. -/
namespace TracePeel

namespace Optimizer

/-- The loop that the lists of a state make. -/
def loop (o : Optimizer) (name : String) : Loop :=
  (o.finish name).1

/-- What a trace becomes as one straight list is a recorded trace. -/
theorem recorded_straight {c : Config} {t : Trace} (ht : t.Recorded) {body : List Operation}
    {last : Operation} (h : t.Split body last) {o o' : Optimizer}
    (hbody : Processed c.behind body (c.begin t) o) (hlast : Handled c.behind last o o') :
    (o'.loop t.name).toTrace.Recorded := by
  obtain ⟨T, hT, hw, -⟩ := hbody.working (working_begin c ht) (h.coming ht)
  have hmem : last ∈ t.ops := by simp [h.ops]
  have hneat := ht.neat hmem
  obtain ⟨T', out, last', hT', -, hbelow, hbuilt, hout, hrenders, hresult, hguard⟩ :=
    concludes_handled c hw h.fits h.lands.isFinal (hneat.frames.mono hT) hlast
  have hk := hbody.keeps.trans hlast.keeps
  have hinputs : o'.inputs = t.inputs := hk.inputs
  have htoken : o'.token = t.token := hk.token
  have hn : o.pool.nextGuard = t.pool.nextGuard := hbody.keeps.nextGuard
  have hn' : o'.pool.nextGuard = t.pool.nextGuard := hk.nextGuard
  have hbox : o'.pool.nextBox = t.pool.nextBox := hk.nextBox
  have hfits : last'.Fits (t.inputs ++ results out.toList) :=
    hrenders.fits (fun _ _ h => h.1) (fun _ b h => (h.2 b rfl).1) (by rw [hresult])
      (fun r hr => absurd hr (by rw [hresult, h.result]; exact nofun)) h.fits
  have hsplit : (o'.loop t.name).toTrace.Split out.toList last' := by
    refine ⟨?_, ?_, ?_, ?_, ?_⟩
    · show o'.out.toList = _
      rw [hout, Array.toList_push]
    · show o'.inputs.Nodup
      rw [hinputs]
      exact h.nodup
    · show Accepts o'.inputs _
      rw [hinputs]
      exact hbuilt.accepts
    · show last'.Fits (o'.inputs ++ _)
      rwa [hinputs]
    · show last'.Lands o'.token o'.inputs
      rw [hinputs, htoken]
      exact hrenders.lands (fun _ _ h => h.1) h.lands
  refine hsplit.recorded (T := T') (fun op hop => ?_) hbelow fun b hb => ?_
  · have hop' : op ∈ out.toList ++ [last'] := by rwa [← hsplit.ops]
    show op.Neat o'.pool.nextGuard T'
    rw [hn', ← hn]
    rcases List.mem_append.1 hop' with hop | hop
    · exact hbuilt.neat op hop
    · rw [List.mem_singleton.1 hop, hn]
      exact hrenders.neat hneat hguard
  · show b.id < o'.pool.nextBox
    rw [hbox, ← show o.pool.nextBox = t.pool.nextBox from hbody.keeps.nextBox]
    have hb' : b ∈ t.inputs ++ results out.toList := by rw [← hinputs]; exact hb
    exact hw.ids b (hbuilt.table.subset hb')

/-- A list that goes round behind the operations `front` and the jump into it. -/
structure Opened (t : Trace) (front : List Operation) (l : Loop) : Prop where
  preamble : l.preamble = some ⟨t.inputs, front ++ [.jumpTo t.token (l.inputs.map .box)]⟩
  token : l.token = t.token
  inputs : l.inputs ⊆ t.inputs ++ results front
  begins : Accepts t.inputs front
  fresh : ∀ r ∈ results l.ops, r ∉ t.inputs ++ results front

/-- A preamble that jumps into a list that goes round passes the checks with it. -/
theorem Opened.verify {t : Trace} {front : List Operation} {l : Loop} (h : Opened t front l)
    (hn : t.inputs.Nodup) (hl : l.toTrace.verify = .ok ()) : l.verify = .ok () := by
  have hkinds : List.Forall₂ (fun a b => a.kind = b.kind) (l.inputs.map Operand.box) l.inputs := by
    induction l.inputs with
    | nil => exact .nil
    | cons b bs ih => exact .cons rfl ih
  have hbox : ∀ b, .box b ∈ l.inputs.map Operand.box → b ∈ l.inputs := by
    intro b hb
    obtain ⟨_, hc, hcb⟩ := List.mem_map.1 hb
    cases hcb
    exact hc
  have hjump : (Operation.jumpTo t.token (l.inputs.map .box)).Fits (t.inputs ++ results front) :=
    fits_of_jump _ rfl (fun _ => ⟨rfl, rfl⟩) rfl fun b hb => h.inputs (hbox b hb)
  have hresults : (front ++ [Operation.jumpTo t.token (l.inputs.map .box)]).filterMap (·.result) =
      results front := by
    simp [results, Operation.jumpTo]
  have hopened : Verify.ops t.inputs (front ++ [.jumpTo t.token (l.inputs.map .box)]) l.token
      l.inputs = .ok () :=
    Verify.ops_ok_iff.2 ⟨hn, _, _, rfl, h.begins, hjump, .inr ⟨rfl, t.token, rfl, fun _ => hkinds⟩⟩
  have hfresh : ∀ r ∈ results l.ops, r ∉ results front := fun r hr hm =>
    h.fresh r hr (List.mem_append_right _ hm)
  rw [← hresults] at hfresh
  unfold Loop.verify
  rw [h.preamble]
  exact Verify.bind_ok.2 ⟨(), hopened, Verify.bind_ok.2 ⟨(), Verify.checkDisjoint_ok.2 hfresh, hl⟩⟩

/-- Once no input is missing, a list that goes round is recorded, if it stands behind its inputs. -/
theorem Searched.recorded {T : FrameTable} {base defined first added : List Box}
    {next : Bindings Box Operand} {jump : Operation} {handed : List Operand} {out : Array Operation}
    {o o₁ : Optimizer} {t : Trace}
    (h : Searched o.pool.nextGuard T base defined next first added jump.args handed {o with out} o₁)
    (hjump : jump.opcode = .jump) (hplain : jump.Plain) (hbelow : T.Below o.pool.nextFrame)
    (hids : ∀ b ∈ base ++ results o₁.out.toList, b.id < o.pool.nextBox)
    (hinputs : t.inputs = first ++ added) (hpool : t.pool = o.pool)
    (hsplit : t.Split o₁.out.toList {jump with args := jump.args ++ handed}) : t.Recorded := by
  refine hsplit.recorded (T := T) (fun op hop => ?_) (by rwa [hpool]) fun b hb => ?_
  · rw [hsplit.ops] at hop
    rw [hpool]
    rcases List.mem_append.1 hop with hop | hop
    · exact h.built.neat op hop
    · rw [List.mem_singleton.1 hop]
      exact neat_of_jump {jump with args := jump.args ++ handed} hjump hplain
  · rw [hpool]
    refine hids b ?_
    rw [hinputs] at hb
    rcases List.mem_append.1 hb with hb | hb
    · exact List.mem_append_left _ (h.subset hb)
    · exact List.mem_append_right _ hb

section Peeled
variable {c : Config} {T : FrameTable} {inputs : List Box} {rest : List Stage}
  {body : List Operation} {jump : Operation} {o : Optimizer} {w : Way} {o' : Optimizer}

/-- What the jump hands over is ready, and of the kinds of the inputs. -/
theorem Closed.handed (h : Closed c T inputs rest body jump o w o') :
    (∀ a ∈ w.last.args ++ w.handed, w.searched.values.Ready
      (w.base inputs ++ results w.searched.out.toList) (w.base inputs) a) ∧
    List.Forall₂ (fun a b => a.kind = b.kind) (w.last.args ++ w.handed) w.inputs := by
  obtain ⟨T', -, hbuilt, hs⟩ := h.searched
  obtain ⟨T'', hrenders⟩ := h.jumped.renders
  refine ⟨fun a ha => ?_, List.rel_append ?_ ?_⟩
  · rcases List.mem_append.1 ha with ha | ha
    · obtain ⟨_, _, _, hready⟩ := exists_right_of_mem hrenders.args.flip ha
      exact hready.mono hbuilt.table.inRange (hs.grown.extends_.available _) hs.grown.later
    · obtain ⟨b, _, _, _, _, hdel⟩ := exists_right_of_mem hs.hands.flip ha
      exact hdel.stands.2
  · exact kinds_trans (hrenders.args.imp fun _ _ h => h.1)
      (h.jumped.hands.flip.imp fun _ _ h => Hands.kind h)
  · exact hs.hands.flip.imp fun _ _ h => Hands.kind h

/-! ### The loop behind the preamble -/

theorem Closed.token (h : Closed c T inputs rest body jump o w o') :
    w.searched.token = o.token ∧ o'.token = o.token := by
  obtain ⟨_, _, _, hent⟩ := h.entered
  obtain ⟨_, hentered⟩ := hent.same
  obtain ⟨_, _, _, o₁, hr, hg, -, -⟩ := h.jumped.renamed
  obtain ⟨_, hs⟩ := h.jumped.handled
  obtain ⟨_, -, -, hsearched⟩ := h.searched
  obtain ⟨_, hends⟩ := h.ends
  have hcaptured : w.captured.token = o.token := by rw [h.captured.grown.same]
  have hreplayed : w.replayed.token = o.token := by rw [h.replayed.token, hentered, hcaptured]
  have hasked : w.asked.token = o.token := by rw [hg.same, hr.same, hreplayed]
  have hwritten : w.written.token = o.token := hs.keeps.token.trans hasked
  have hlast : w.searched.token = o.token := by
    rw [hsearched.grown.same]
    exact hwritten
  refine ⟨hlast, ?_⟩
  rw [hends]
  exact hlast

/-- The boxes that are read or defined have numbers that were given out. -/
theorem Closed.ids (h : Closed c T inputs rest body jump o w o') :
    ∀ b ∈ w.base inputs ++ results w.searched.out.toList, b.id < o'.pool.nextBox := by
  obtain ⟨_, _, _, _, -, -, -, hasked⟩ := h.jumped.renamed
  obtain ⟨_, hs⟩ := h.jumped.handled
  obtain ⟨_, -, -, hsearched⟩ := h.searched
  obtain ⟨_, hends⟩ := h.ends
  have hpool : o'.pool = w.written.pool := by
    rw [hends]
    show w.searched.pool = _
    rw [hsearched.grown.same]
  intro b hb
  rw [hpool, hs.keeps.nextBox]
  exact hasked.ids b (hsearched.built.table.subset hb)

/-- The list that goes round stands behind its inputs and ends in its jump. -/
theorem Closed.split (h : Closed c T inputs rest body jump o w o') (name : String) :
    (o'.loop name).toTrace.Split w.searched.out.toList
      {w.last with args := w.last.args ++ w.handed} := by
  obtain ⟨_, -, -, hs⟩ := h.searched
  obtain ⟨hready, hkinds⟩ := h.handed
  obtain ⟨_, hends⟩ := h.ends
  have hreads : ∀ op ∈ w.searched.out.toList, ∀ b, .box b ∈ op.usedArgs → b ∈ w.base inputs →
      b ∈ w.inputs := fun op hop b hb hbase =>
    hs.closed b hbase (.inl (Peel.mem_boxesRead.2 ⟨op, hop, hb⟩))
  have hfits : ({w.last with args := w.last.args ++ w.handed} : Operation).Fits
      (w.inputs ++ results w.searched.out.toList) := by
    refine fits_of_jump {w.last with args := w.last.args ++ w.handed} h.last.1 h.jumped.plain
      h.jumped.result fun b hb => ?_
    have hb' : .box b ∈ w.last.args ++ w.handed := hb
    rcases List.mem_append.1 (hready _ hb' b rfl).1 with hbase | hres
    · exact List.mem_append_left _ (hs.closed b hbase (.inr hb'))
    · exact List.mem_append_right _ hres
  have htoken : o'.token = o.token := h.token.2
  subst hends
  refine ⟨?_, hs.nodup, hs.built.accepts.restrict hs.subset hreads, hfits, ?_⟩
  · show (w.searched.out.push _).toList = _
    rw [Array.toList_push]
  · exact .inr ⟨h.last.1, o.token, h.last.2, fun _ => hkinds⟩

theorem Closed.recorded (h : Closed c T inputs rest body jump o w o') (name : String) :
    (o'.loop name).toTrace.Recorded := by
  obtain ⟨T', hbelow, -, hs⟩ := h.searched
  obtain ⟨_, hends⟩ := h.ends
  have hpool : o'.pool = w.written.pool := by
    rw [hends]
    show w.searched.pool = _
    rw [hs.grown.same]
  have hinputs : o'.inputs = w.inputs := by rw [hends]
  exact hs.recorded h.last.1 h.jumped.plain hbelow (fun b hb => hpool ▸ h.ids b hb) hinputs hpool
    (h.split name)

theorem Closed.opened {t : Trace} (h : Closed c T t.inputs rest body jump o w o')
    (htoken : o.token = t.token) (name : String) :
    Opened t w.captured.out.toList (o'.loop name) := by
  obtain ⟨_, -, -, hs⟩ := h.searched
  obtain ⟨_, hends⟩ := h.ends
  have hinputs : o'.inputs = w.inputs := by rw [hends]
  obtain ⟨hsearched, ho'⟩ := h.token
  refine ⟨?_, ho'.trans htoken, ?_, h.captured.working.built.accepts, fun r hr => ?_⟩
  · show o'.preamble = some ⟨t.inputs, _ ++ [.jumpTo t.token (o'.inputs.map .box)]⟩
    rw [hinputs, hends]
    show some _ = some _
    rw [hsearched, htoken]
  · show o'.inputs ⊆ _
    rw [hinputs]
    exact hs.subset
  · have hops : results (o'.loop name).ops = results w.searched.out.toList := by
      have := (h.split name).ops
      rw [show (o'.loop name).ops = (o'.loop name).toTrace.ops from rfl, this]
      simp [h.jumped.result]
    rw [hops] at hr
    exact hs.built.accepts.nodup.2 r hr

end Peeled

/-! ### Every way through the chain -/

variable {c : Config} {t : Trace} {body : List Operation} {last : Operation} {o : Optimizer}

theorem Compiled.recorded (ht : t.Recorded) (hsplit : t.Split body last)
    (h : Compiled c t body last o) : (o.loop t.name).toTrace.Recorded := by
  cases h with
  | straight hbody hlast _ => exact recorded_straight ht hsplit hbody hlast
  | peeled _ _ _ _ h => exact h.recorded t.name

theorem Compiled.verify (ht : t.Recorded) (hsplit : t.Split body last)
    (h : Compiled c t body last o) : (o.loop t.name).verify = .ok () := by
  have hrecorded := h.recorded ht hsplit
  cases h with
  | @straight o₁ o' hbody hlast _ =>
    have hk := hbody.keeps.trans hlast.keeps
    have hnone : (o.loop t.name).preamble = none := hk.preamble
    unfold Loop.verify
    rw [hnone]
    exact hrecorded.verified
  | peeled _ _ hbody _ h =>
    exact (h.opened hbody.keeps.token t.name).verify hsplit.nodup hrecorded.verified

end Optimizer

namespace Config
open Optimizer

variable {c : Config} {t : Trace}

theorem optimizeLoop_tooLong (h : c.maxOps < t.ops.length) :
    c.optimizeLoop t = .error { cause := .tooLong t.ops.length c.maxOps } := by
  unfold optimizeLoop optimize
  rw [if_pos h]
  rfl

/-- A run that ended well gives a loop, if its lists pass the checks. -/
theorem optimizeLoop_of_run {o : Optimizer} (hlen : t.ops.length ≤ c.maxOps)
    (ht : t.verify = .ok ()) (hrun : run.run.run (c.optimizer t) = (.ok (), o))
    (hl : (o.loop t.name).verify = .ok ()) : c.optimizeLoop t = .ok (o.loop t.name) := by
  have hverify : (o.finish t.name).1.verify = .ok () := hl
  have hchecked : (if c.verify then (o.finish t.name).1.verify else .ok ()) = .ok () := by
    rw [hverify, ite_self]
  unfold optimizeLoop optimize
  rw [if_neg (Nat.not_lt.2 hlen), ht]
  simp only [optimizeRecorded, hrun, conclude, hchecked]
  rfl

/-- A recorded trace becomes the loop that the run compiled, or is refused for its length
or for a guard that can never pass. -/
theorem optimizeLoop_cases (c : Config) (ht : t.Recorded) :
    (∃ body last o, t.Split body last ∧ Compiled c t body last o ∧
      c.optimizeLoop t = .ok (o.loop t.name)) ∨
    ∃ e, c.optimizeLoop t = .error e ∧
      (c.maxOps < t.ops.length ∧ e.cause = .tooLong t.ops.length c.maxOps ∨
        e.cause.isGuardFailure = true) := by
  obtain ⟨body, last, hsplit⟩ := ht.split
  have hran := run_ends (c := c) ht hsplit
  by_cases hlong : c.maxOps < t.ops.length
  · exact .inr ⟨_, optimizeLoop_tooLong hlong, .inl ⟨hlong, rfl⟩⟩
  · unfold Ends at hran
    rcases hrun : run.run.run (c.optimizer t) with ⟨e | _, o⟩
    · rw [hrun] at hran
      refine .inr ⟨e, ?_, .inr hran⟩
      unfold optimizeLoop optimize
      rw [if_neg hlong, ht.verified]
      simp only [optimizeRecorded, hrun]
      rfl
    · rw [hrun] at hran
      exact .inl ⟨body, last, o, hsplit, hran, optimizeLoop_of_run (Nat.not_lt.1 hlong)
        ht.verified hrun (hran.verify ht hsplit)⟩

/-- Every loop passes the checks, and no error says that one did not. -/
theorem optimizeLoop_verifies (c : Config) (ht : t.Recorded) :
    (∀ l, c.optimizeLoop t = .ok l → l.verify = .ok ()) ∧
      ∀ e, c.optimizeLoop t = .error e → ∀ cause name, e.cause ≠ .invalidResult cause name := by
  rcases optimizeLoop_cases c ht with ⟨body, last, o, hsplit, ho, hok⟩ | ⟨e, he, hcause⟩
  · rw [hok]
    refine ⟨?_, nofun⟩
    rintro _ ⟨⟩
    exact ho.verify ht hsplit
  · rw [he]
    refine ⟨nofun, ?_⟩
    rintro _ ⟨⟩ cause name hinvalid
    rw [hinvalid] at hcause
    rcases hcause with ⟨_, hcause⟩ | hcause <;> cases hcause

theorem counting_verifies :
    ∃ l, optimizeLoop {} .counting = .ok l ∧ l.isPeeled = true ∧ l.verify = .ok () := by
  obtain ⟨l, hl, hpeeled⟩ : ∃ l, optimizeLoop {} .counting = .ok l ∧ l.isPeeled = true :=
    exists_ok_of_any (by decide +kernel)
  exact ⟨l, hl, hpeeled, (optimizeLoop_verifies {} Trace.counting_recorded).1 l hl⟩

/-! ### Round after round -/

/-- The traces that a trace becomes when it is optimized again and again, each time under
settings of their own. -/
inductive Rounds (t : Trace) : Trace → Prop
  | start : Rounds t t
  | again {t' : Trace} {c : Config} {l : Loop} : Rounds t t' → c.optimizeLoop t' = .ok l →
      Rounds t l.toTrace

theorem Rounds.trans {t t' t'' : Trace} (h : Rounds t t') (h' : Rounds t' t'') : Rounds t t'' := by
  induction h' with
  | start => exact h
  | again _ hl ih => exact .again ih hl

theorem code_of_isGuardFailure {e : OptError} (h : e.cause.isGuardFailure = true) :
    e.diagnostic.code = .e2001 := by
  obtain ⟨cause, passes⟩ := e
  cases cause <;> first | rfl | cases h

/-- What a recorded trace becomes is recorded after each round, and the only errors are
those of a trace that is too long or holds a guard that can never pass. -/
theorem rounds_recorded (ht : t.Recorded) {t' : Trace} (h : Rounds t t') :
    t'.Recorded ∧ ∀ c : Config, ∀ e, c.optimizeLoop t' = .error e → e.diagnostic.code = .e2001 ∧
      (c.maxOps < t'.ops.length ∧ e.cause = .tooLong t'.ops.length c.maxOps ∨
        e.cause.isGuardFailure = true) := by
  have hrecorded : t'.Recorded := by
    induction h with
    | start => exact ht
    | @again t' c l _ hl ih =>
      rcases optimizeLoop_cases c ih with ⟨body, last, o, hsplit, ho, hok⟩ | ⟨e, he, _⟩
      · rw [hl] at hok
        cases hok
        exact ho.recorded ih hsplit
      · rw [hl] at he
        cases he
  refine ⟨hrecorded, fun c e he => ?_⟩
  rcases optimizeLoop_cases c hrecorded with ⟨_, _, _, _, _, hok⟩ | ⟨e', he', hcause⟩
  · rw [he] at hok
    cases hok
  · rw [he] at he'
    cases he'
    refine ⟨?_, hcause⟩
    rcases hcause with ⟨_, hcause⟩ | hcause
    · unfold OptError.diagnostic
      rw [hcause]
      rfl
    · exact code_of_isGuardFailure hcause

/-- The loop that counting becomes is refused only for its length. -/
theorem counting_refused : ∃ l e, optimizeLoop {} .counting = .ok l ∧
    optimizeLoop { maxOps := 0 } l.toTrace = .error e ∧ e.diagnostic.code = .e2001 := by
  obtain ⟨l, hl, hlong⟩ : ∃ l, optimizeLoop {} .counting = .ok l ∧
      decide (0 < l.ops.length) = true :=
    exists_ok_of_any (by decide +kernel)
  have herror := optimizeLoop_tooLong (c := { maxOps := 0 }) (t := l.toTrace)
    (of_decide_eq_true hlong)
  have hrounds : Rounds .counting l.toTrace := .again .start hl
  exact ⟨l, _, hl, herror,
    ((rounds_recorded Trace.counting_recorded hrounds).2 _ _ herror).1⟩

end Config
end TracePeel
