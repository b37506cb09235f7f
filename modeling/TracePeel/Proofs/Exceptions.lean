import TracePeel.Proofs.Completed

/-! Exceptions are checked behind every call that was checked.

A call may raise an exception, and `guard_no_exception` leaves the loop if one is
pending. Of a list only the calls and the checks matter here. Rewriting drops a check
without a call since the check before it, and looks back no further than to the beginning
of the iteration; `needed` is what is left. The calls and checks of the preamble and of
the list that goes round are those that are needed of the recorded list, so a call that
was checked in its iteration is checked in every round. -/
namespace TracePeel

/-- Whether the operation makes a call or checks for an exception of one. -/
def Opcode.callsOrChecks (o : Opcode) : Bool :=
  o == .call || o == .guardNoException

/-- The calls and checks of a list. -/
def callsAndChecks (ops : List Operation) : List Opcode :=
  (ops.map (·.opcode)).filter Opcode.callsOrChecks

/-- Whether a call was made since the last check, behind an operation; what ends an
iteration ends the search for one. -/
def Opcode.mayHaveRaised (raised : Bool) (o : Opcode) : Bool :=
  if o = .call then true else if o = .guardNoException ∨ o.isFinal then false else raised

/-- The calls, and the checks with a call since the check before in the same iteration.
`raised` says whether there was a call in front of the list. -/
def needed : Bool → List Operation → List Opcode
  | _, [] => []
  | raised, op :: ops =>
    let rest := needed (op.opcode.mayHaveRaised raised) ops
    if op.opcode = .call ∨ op.opcode = .guardNoException ∧ raised then op.opcode :: rest else rest

/-- The calls and checks that an optimization writes. -/
def Config.callsAndChecks (c : Config) (raised : Bool) (ops : List Operation) : List Opcode :=
  if c.rewrite then needed raised ops else TracePeel.callsAndChecks ops

/-- How many calls a list makes. -/
def calls (ops : List Operation) : Nat :=
  ops.countP (·.opcode == .call)

theorem callsAndChecks_cons (op : Operation) (ops : List Operation) :
    callsAndChecks (op :: ops) =
      if op.opcode.callsOrChecks then op.opcode :: callsAndChecks ops else callsAndChecks ops := by
  simp [callsAndChecks, List.filter_cons]

@[simp] theorem callsAndChecks_append (xs ys : List Operation) :
    callsAndChecks (xs ++ ys) = callsAndChecks xs ++ callsAndChecks ys := by
  simp [callsAndChecks]

theorem callsAndChecks_of_forall {ops : List Operation}
    (h : ∀ op ∈ ops, op.opcode.callsOrChecks = false) : callsAndChecks ops = [] := by
  simp only [callsAndChecks, List.filter_eq_nil_iff, List.mem_map]
  rintro _ ⟨op, hop, rfl⟩
  simp [h op hop]

/-- Whether a call was made since the last check, behind a list. -/
def mayHaveRaised (raised : Bool) (ops : List Operation) : Bool :=
  ops.foldl (fun raised op => op.opcode.mayHaveRaised raised) raised

theorem needed_append (raised : Bool) (xs ys : List Operation) :
    needed raised (xs ++ ys) = needed raised xs ++ needed (mayHaveRaised raised xs) ys := by
  induction xs generalizing raised with
  | nil => rfl
  | cons op xs ih =>
    simp only [List.cons_append, needed, ih, mayHaveRaised, List.foldl_cons]
    split <;> rfl

theorem needed_of_forall {ops : List Operation} (raised : Bool)
    (h : ∀ op ∈ ops, op.opcode.callsOrChecks = false) : needed raised ops = [] := by
  induction ops generalizing raised with
  | nil => rfl
  | cons op ops ih =>
    have hop := h op (List.mem_cons_self ..)
    simp only [Opcode.callsOrChecks, Bool.or_eq_false_iff, beq_eq_false_iff_ne] at hop
    simp only [needed, hop, false_and, or_self, if_false]
    exact ih _ fun op' hop' => h op' (.tail _ hop')

namespace Config
variable (c : Config)

theorem callsAndChecks_cons (raised : Bool) (op : Operation) (ops : List Operation) :
    c.callsAndChecks raised (op :: ops) =
      c.callsAndChecks raised [op] ++ c.callsAndChecks (op.opcode.mayHaveRaised raised) ops := by
  unfold Config.callsAndChecks
  split
  · exact needed_append raised [op] ops
  · exact callsAndChecks_append [op] ops

/-- Without rewriting it does not matter what was in front of the list. -/
theorem callsAndChecks_congr {raised raised' : Bool} (h : c.rewrite = true → raised = raised')
    (ops : List Operation) : c.callsAndChecks raised ops = c.callsAndChecks raised' ops := by
  unfold Config.callsAndChecks
  split
  next hrewrite => rw [h hrewrite]
  next => rfl

theorem callsAndChecks_of_forall (raised : Bool) {ops : List Operation}
    (h : ∀ op ∈ ops, op.opcode.callsOrChecks = false) : c.callsAndChecks raised ops = [] := by
  unfold Config.callsAndChecks
  rw [needed_of_forall raised h, TracePeel.callsAndChecks_of_forall h, ite_self]

theorem callsAndChecks_append_of_forall (raised : Bool) (xs : List Operation)
    {ys : List Operation} (h : ∀ op ∈ ys, op.opcode.callsOrChecks = false) :
    c.callsAndChecks raised (xs ++ ys) = c.callsAndChecks raised xs := by
  unfold Config.callsAndChecks
  rw [needed_append, needed_of_forall _ h, callsAndChecks_append,
    TracePeel.callsAndChecks_of_forall h, List.append_nil, List.append_nil]

end Config

namespace Optimizer

/-! ### One operation -/

/-- What is sent on is written if it is a call or a check, and nothing else is. -/
def Plainly (send : Operation → Optimizer → Optimizer → Prop) : Prop :=
  ∀ op o o', o.Intact → send op o o' →
    callsAndChecks o'.out.toList = callsAndChecks o.out.toList ++ callsAndChecks [op] ∧
      o'.mayRaise = o.mayRaise

/-- Of calls and checks, just those that are needed are written. -/
def Sparingly (send : Operation → Optimizer → Optimizer → Prop) : Prop :=
  ∀ op o o', o.Intact → send op o o' →
    callsAndChecks o'.out.toList = callsAndChecks o.out.toList ++ needed o.mayRaise [op] ∧
      (op.opcode.isFinal = false → o'.mayRaise = op.opcode.mayHaveRaised o.mayRaise)

theorem callsAndChecks_of_forcing {ops : List Operation}
    (h : ∀ op ∈ ops, op.isForcing = true) : callsAndChecks ops = [] := by
  refine TracePeel.callsAndChecks_of_forall fun op hop => ?_
  have hf := h op hop
  simp only [Operation.isForcing, Bool.or_eq_true, beq_iff_eq] at hf
  rcases hf with hf | hf <;> rw [hf] <;> rfl

theorem plainly_emit : Plainly fun op o o' => o' = ((emit op).run o).2 := by
  rintro op o _ ho rfl
  obtain ⟨o₁, _, hf, he⟩ := emit_forces ho op
  rw [he]
  obtain ⟨ops, hout, hops⟩ := hf.out
  refine ⟨?_, by rw [hf.same]⟩
  simp only [Array.toList_push, hout, callsAndChecks_append, callsAndChecks_of_forcing hops,
    List.append_nil]
  rfl

theorem plainly_placed {send : Operation → Optimizer → Optimizer → Prop} (h : Plainly send) :
    Plainly (Placed send) := by
  rintro op o _ ho ⟨chain, cursor, o₂, hs, rfl⟩
  exact h op {o with chain, cursor} o₂ ⟨ho.values, ho.known⟩ hs

theorem sparingly_placed {send : Operation → Optimizer → Optimizer → Prop} (h : Sparingly send) :
    Sparingly (Placed send) := by
  rintro op o _ ho ⟨chain, cursor, o₂, hs, rfl⟩
  exact h op {o with chain, cursor} o₂ ⟨ho.values, ho.known⟩ hs

/-- An operation that is neither call nor check changes nothing of what matters here. -/
theorem passes_by {op : Operation} (hop : op.opcode.callsOrChecks = false) (raised : Bool) :
    callsAndChecks [op] = [] ∧ needed raised [op] = [] ∧
      (op.opcode.isFinal = false → op.opcode.mayHaveRaised raised = raised) := by
  have hall : ∀ op' ∈ [op], op'.opcode.callsOrChecks = false := by simpa using hop
  refine ⟨TracePeel.callsAndChecks_of_forall hall, needed_of_forall raised hall, fun hfinal => ?_⟩
  simp only [Opcode.callsOrChecks, Bool.or_eq_false_iff, beq_eq_false_iff_ne] at hop
  simp [Opcode.mayHaveRaised, hop, hfinal]

theorem plainly_virtualized {send : Operation → Optimizer → Optimizer → Prop} (h : Plainly send) :
    Plainly (Virtualize.Virtualized send) := by
  intro op o o' ho hs
  have hquiet : ∀ o₂ : Optimizer, op.opcode.callsOrChecks = false → o₂.out = o.out →
      o₂.mayRaise = o.mayRaise → callsAndChecks o₂.out.toList =
        callsAndChecks o.out.toList ++ callsAndChecks [op] ∧ o₂.mayRaise = o.mayRaise := by
    intro o₂ hop hout hraise
    rw [(passes_by hop true).1, hout, List.append_nil]
    exact ⟨rfl, hraise⟩
  cases hs with
  | @passed o₁ _ hmet _ hs =>
    have heq := hmet.eq_values
    have hstep := h op o₁ o' (ho.of_met hmet) hs
    rwa [show o₁.out = o.out by rw [heq], show o₁.mayRaise = o.mayRaise by rw [heq]] at hstep
  | held hop | written hop => exact hquiet _ (by rw [hop]; rfl) rfl rfl
  | read hop | readZero hop => exact hquiet _ (by rcases hop with hop | hop <;> rw [hop] <;> rfl) rfl rfl

theorem sparingly_rewritten {send : Operation → Optimizer → Optimizer → Prop} (h : Plainly send) :
    Sparingly (Rewrite.Rewritten send) := by
  intro op o o' ho hs
  have hquiet : ∀ o₂ : Optimizer, op.opcode.callsOrChecks = false → o₂.out = o.out →
      o₂.mayRaise = o.mayRaise → callsAndChecks o₂.out.toList =
        callsAndChecks o.out.toList ++ needed o.mayRaise [op] ∧
      (op.opcode.isFinal = false → o₂.mayRaise = op.opcode.mayHaveRaised o.mayRaise) := by
    intro o₂ hop hout hraise
    obtain ⟨_, hneeded, hraised⟩ := passes_by hop o.mayRaise
    rw [hneeded, hout, hraise, List.append_nil]
    exact ⟨rfl, fun hf => (hraised hf).symm⟩
  have hsent : ∀ o₁ o₂ : Optimizer, op.opcode.callsOrChecks = false → o₁.Intact →
      o₁.out = o.out → o₁.mayRaise = o.mayRaise → send op o₁ o₂ → callsAndChecks o₂.out.toList =
        callsAndChecks o.out.toList ++ needed o.mayRaise [op] ∧
      (op.opcode.isFinal = false → o₂.mayRaise = op.opcode.mayHaveRaised o.mayRaise) := by
    intro o₁ o₂ hop ho₁ hout hraise hs
    obtain ⟨hcalls, hmay⟩ := h op o₁ o₂ ho₁ hs
    obtain ⟨hplain, hneeded, hraised⟩ := passes_by hop o.mayRaise
    rw [hcalls, hmay, hplain, hneeded, hout, hraise]
    exact ⟨rfl, fun hf => (hraised hf).symm⟩
  have hpure : op.opcode.isAlwaysPure = true → op.opcode.callsOrChecks = false := by
    intro hop
    revert hop
    cases op.opcode <;> decide
  cases hs with
  | @passed o₁ _ hmet hun hs =>
    have heq := hmet.eq_values
    refine hsent o₁ o' ?_ (ho.of_met hmet) (by rw [heq]) (by rw [heq]) hs
    cases hun with
    | ordinary hguard hcall =>
      have hno : op.opcode ≠ .guardNoException := fun he => by
        rw [Operation.isGuard, he] at hguard
        cases hguard
      simp [Opcode.callsOrChecks, hcall, hno]
    | shapeless hguard hno =>
      have hcall : op.opcode ≠ .call := fun he => by
        rw [Operation.isGuard, he] at hguard
        cases hguard
      simp [Opcode.callsOrChecks, hcall, hno]
    | noResult hop | virtual hop => exact hpure hop
  | dropped _ himplied =>
    refine hquiet _ ?_ rfl rfl
    cases himplied with
    | truth hop => rcases hop with hop | hop <;> rw [hop] <;> rfl
    | value hop | nonNull hop | null hop | ofClass hop => rw [hop]; rfl
  | @kept arg rest f o₁ _ hteaches hs =>
    refine hsent (o.met arg) o₁ ?_ (ho.met arg) rfl rfl hs
    cases hteaches with
    | truth hop | nothing hop => rcases hop with hop | hop <;> rw [hop] <;> rfl
    | value hop | nonNull hop | null hop | ofClass hop => rw [hop]; rfl
  | unraised hop hmay => simp [needed, Opcode.mayHaveRaised, hop, hmay]
  | @checked o₁ hop hmay hs =>
    refine ⟨?_, fun _ => by simp [Opcode.mayHaveRaised, hop]⟩
    show callsAndChecks o₁.out.toList = _
    rw [(h op o o₁ ho hs).1]
    simp [callsAndChecks, needed, Opcode.callsOrChecks, hop, hmay]
  | called hop hs =>
    have hstep := h op {o with mayRaise := true} o' ⟨ho.values, ho.known⟩ hs
    refine ⟨?_, fun _ => by simp [Opcode.mayHaveRaised, hop, hstep.2]⟩
    rw [hstep.1]
    simp [callsAndChecks, needed, Opcode.callsOrChecks, hop]
  | aliased hop => exact hquiet _ (by rw [hop]; rfl) rfl rfl
  | folded hop _ _ hmet => exact hquiet _ (hpure hop) (by rw [hmet.eq_values]) (by rw [hmet.eq_values])
  | reused hop _ _ hmet => exact hquiet _ (hpure hop) (by rw [hmet.eq_values]) (by rw [hmet.eq_values])
  | @computed o₁ _ ks r hop _ _ hmet _ _ _ hs =>
    have hi := (ho.of_met hmet).remember (Rewrite.keyOf op ks r) r
    refine hsent _ o' (hpure hop) hi ?_ ?_ hs
    · rw [hmet.eq_values]; rfl
    · rw [hmet.eq_values]; rfl

/-- What the passes behind peeling write of an operation. -/
theorem handled_callsAndChecks (c : Config) {op : Operation} {o o' : Optimizer} (ho : o.Intact)
    (h : Handled c.behind op o o') :
    callsAndChecks o'.out.toList =
        callsAndChecks o.out.toList ++ c.callsAndChecks o.mayRaise [op] ∧
      (op.opcode.isFinal = false → c.rewrite = true →
        o'.mayRaise = op.opcode.mayHaveRaised o.mayRaise) := by
  have hvirtual : Plainly (Handled (if c.virtualize then [.virtualize] else [])) := by
    split
    · exact plainly_placed (plainly_virtualized (plainly_placed plainly_emit))
    · exact plainly_placed plainly_emit
  unfold Config.callsAndChecks
  unfold Config.behind at h
  cases hrewrite : c.rewrite with
  | false =>
    rw [hrewrite] at h
    exact ⟨(hvirtual op o o' ho h).1, nofun⟩
  | true =>
    rw [hrewrite] at h
    exact (sparingly_placed (sparingly_rewritten hvirtual) op o o' ho h).imp id fun hr hf _ => hr hf

/-! ### A list of operations -/

theorem Processed.callsAndChecks_out {c : Config} {ops : List Operation} {o o' : Optimizer}
    (h : Processed c.behind ops o o') (ho : o.Intact)
    (hopen : ∀ op ∈ ops.dropLast, op.opcode.isFinal = false) :
    callsAndChecks o'.out.toList =
      callsAndChecks o.out.toList ++ c.callsAndChecks o.mayRaise ops := by
  induction h with
  | nil => rw [c.callsAndChecks_of_forall _ (by simp), List.append_nil]
  | @cons op ops o o₁ o' hs hrest ih =>
    obtain ⟨hout, hraised⟩ := handled_callsAndChecks c ho hs
    have ho₁ := (settled_handled _ _ _ _ ho hs).1
    cases ops with
    | nil =>
      cases hrest
      exact hout
    | cons op' ops =>
      have hfinal := hopen op (by simp)
      rw [ih ho₁ fun op'' hop'' => hopen op'' (.tail _ hop''), hout,
        c.callsAndChecks_cons _ op (op' :: ops), List.append_assoc,
        c.callsAndChecks_congr (hraised hfinal)]

open Peel in
theorem Retraced.callsAndChecks_out {c : Config} {rest : List Stage} {ops : List Operation}
    {n n' : Peeling} {o o' : Optimizer} (h : Retraced c.behind rest ops n o n' o') (ho : o.Intact)
    (hopen : ∀ op ∈ ops, op.opcode.isFinal = false) :
    callsAndChecks o'.out.toList =
      callsAndChecks o.out.toList ++ c.callsAndChecks o.mayRaise ops := by
  induction h with
  | nil => rw [c.callsAndChecks_of_forall _ (by simp), List.append_nil]
  | @cons op ops n n' o o₁ o' events hs _ ih =>
    set o₀ : Optimizer := {o.noting rest (recast n o.pool op).2.1 (recast n o.pool op).2.2 with
      events} with ho₀
    have hi : o₀.Intact := ⟨ho.values, ho.known⟩
    obtain ⟨hout, hraised⟩ := handled_callsAndChecks c hi hs
    have hrest := ih (settled_handled _ _ _ _ hi hs).1 fun op' hop' => hopen op' (.tail _ hop')
    rw [hrest, hout, c.callsAndChecks_cons _ op, List.append_assoc,
      c.callsAndChecks_congr (hraised (hopen op (List.mem_cons_self ..)))]
    rfl

theorem Grown.callsAndChecks_out {o o' : Optimizer} (h : Grown o o') (ho : o.Intact) :
    callsAndChecks o'.out.toList = callsAndChecks o.out.toList := by
  obtain ⟨ops, hout, hops⟩ := h.forcing ho
  rw [hout, callsAndChecks_append, callsAndChecks_of_forcing hops, List.append_nil]

theorem callsAndChecks_jump {op : Operation} (hop : op.opcode = .jump) :
    TracePeel.callsAndChecks [op] = [] :=
  TracePeel.callsAndChecks_of_forall (by simp [hop, Opcode.callsOrChecks])

/-- Closing the preamble goes through the recorded calls and checks a second time. -/
theorem Traversed.callsAndChecks_lists {c : Config} {rest : List Stage} {body : List Operation}
    {jump : Operation} {o o' : Optimizer} {w : Passage} (h : Traversed c rest body jump o w o')
    (ho : o.Intact) (hopen : ∀ op ∈ body, op.opcode.isFinal = false) (hjump : jump.opcode = .jump) :
    callsAndChecks o'.out.toList = c.callsAndChecks false body ∧
      ∀ p, o'.preamble = some p → callsAndChecks p.ops = callsAndChecks o.out.toList := by
  obtain ⟨events, hmet⟩ := h.met
  obtain ⟨events', hhandled⟩ := h.handled
  obtain ⟨stats, hends⟩ := h.ends
  have hmarked : Intact {w.met with values := w.met.values.markFromStart} :=
    (h.intact_met ho).markFromStart
  have hentered := h.entered.intact hmarked
  -- The list begins anew, and so does the search for a call.
  have hout : w.met.out = #[] := by rw [hmet.eq_values]
  have hraise : w.entered.mayRaise = false := by
    rw [h.entered.same]
    show w.met.mayRaise = false
    rw [hmet.eq_values]
  have hbegins : callsAndChecks w.entered.out.toList = [] := by
    rw [h.entered.callsAndChecks_out hmarked]
    show callsAndChecks w.met.out.toList = []
    rw [hout]
    rfl
  have hreplayed := h.replayed.intact hentered
  have hbody := h.replayed.callsAndChecks_out hentered hopen
  rw [hbegins, hraise, List.nil_append] at hbody
  have hasked : Intact {w.asked with events := events'} :=
    ⟨(h.asked.intact hreplayed).values, (h.asked.intact hreplayed).known⟩
  obtain ⟨hwritten, -⟩ := handled_callsAndChecks c hasked hhandled
  have hi : w.written.Intact := (settled_handled _ _ _ _ hasked hhandled).1
  rw [c.callsAndChecks_of_forall _ (by simp [hjump, Opcode.callsOrChecks]), List.append_nil]
    at hwritten
  refine ⟨?_, fun p hp => ?_⟩
  · rw [hends]
    show callsAndChecks (w.searched.out.push _).toList = _
    rw [Array.toList_push, callsAndChecks_append,
      callsAndChecks_jump (show {w.last with args := w.last.args ++ w.handed}.opcode = .jump from
        h.last),
      List.append_nil, h.searched.callsAndChecks_out ⟨hi.values, hi.known⟩, ← hbody,
      ← h.asked.callsAndChecks_out hreplayed, ← hwritten, h.out, Array.toList_push,
      callsAndChecks_append, callsAndChecks_jump h.last, List.append_nil]
  · rw [hends] at hp
    cases hp
    show callsAndChecks (w.captured.out.toList ++ [_]) = _
    rw [callsAndChecks_append, callsAndChecks_jump rfl, List.append_nil,
      h.captured.callsAndChecks_out ho]

/-- Each of the lists that a run writes has the calls and checks that are needed. -/
theorem Ran.callsAndChecks_lists {c : Config} {t : Trace} {o : Optimizer} (h : Ran c t o)
    (ht : t.verify = .ok ()) :
    callsAndChecks o.out.toList = c.callsAndChecks false t.ops ∧
      ∀ p, o.preamble = some p → callsAndChecks p.ops = c.callsAndChecks false t.ops := by
  obtain ⟨body, last, hsplit⟩ := Trace.exists_split ht
  have hopen : ∀ op ∈ body, op.opcode.isFinal = false := fun op => hsplit.accepts.isFinal
  have hbegin := intact_begin c t
  cases h with
  | straight hops _ _ =>
    refine ⟨?_, fun p hp => ?_⟩
    · rw [hops.callsAndChecks_out hbegin (by simpa [hsplit.ops] using hopen)]
      rfl
    · rw [hops.keeps.preamble] at hp
      cases hp
  | @peeled body' jump o o' w chain cursor _ hsource hclose hops _ htraversed =>
    obtain ⟨rfl, hlast⟩ := List.append_inj' (hsource.symm.trans hsplit.ops) rfl
    have hcode := (Operation.closes_iff.1 hclose).1
    have hi := hops.intact hbegin
    have hpreamble : callsAndChecks o.out.toList = c.callsAndChecks false body' := by
      rw [hops.callsAndChecks_out hbegin fun op hop => hopen op (List.dropLast_subset _ hop)]
      rfl
    obtain ⟨hbody, hpre⟩ := htraversed.callsAndChecks_lists ⟨hi.values, hi.known⟩ hopen hcode
    rw [hsource, c.callsAndChecks_append_of_forall _ _ (by simp [hcode, Opcode.callsOrChecks])]
    exact ⟨hbody, fun p hp => (hpre p hp).trans hpreamble⟩

end Optimizer

/-! ### Round after round -/

/-- The operations that a list and then another, round after round, run through. -/
def rounds (first again : List Operation) : Nat → List Operation
  | 0 => []
  | n + 1 => first ++ (List.replicate n again).flatten

/-- What a trace runs through in so many iterations. -/
def Trace.rounds (t : Trace) : Nat → List Operation :=
  TracePeel.rounds t.ops t.ops

/-- What a loop runs through in so many iterations; the preamble is the first. -/
def Loop.rounds (l : Loop) : Nat → List Operation :=
  TracePeel.rounds ((l.preamble.map (·.ops)).getD l.ops) l.ops

/-- Behind the call number `k` and in front of the next one stands a check, and `between`
stands in front of it. -/
def ChecksCall (ops : List Operation) (k : Nat) (between : List Operation) : Prop :=
  ∃ before call check behind, ops = before ++ call :: (between ++ check :: behind) ∧
    call.opcode = .call ∧ check.opcode = .guardNoException ∧ calls before = k ∧
    calls between = 0

theorem calls_eq_count (ops : List Operation) : calls ops = (callsAndChecks ops).count .call := by
  induction ops with
  | nil => rfl
  | cons op ops ih =>
    rw [callsAndChecks_cons]
    by_cases hop : op.opcode = .call
    · simp_all [calls, Opcode.callsOrChecks]
    · by_cases hcheck : op.opcode = .guardNoException <;>
        simp_all [calls, Opcode.callsOrChecks]

/-- No call is dropped. -/
theorem count_needed (raised : Bool) (ops : List Operation) :
    (needed raised ops).count .call = calls ops := by
  induction ops generalizing raised with
  | nil => rfl
  | cons op ops ih =>
    by_cases hop : op.opcode = .call
    · simp [needed, calls, hop, ih, Opcode.mayHaveRaised]
    · by_cases hcheck : op.opcode = .guardNoException ∧ raised = true
      · simp [needed, hcheck, ih, calls]
      · simp [needed, hop, hcheck, ih, calls]

theorem Config.count_callsAndChecks (c : Config) (raised : Bool) (ops : List Operation) :
    (c.callsAndChecks raised ops).count .call = calls ops := by
  unfold Config.callsAndChecks
  split
  · exact count_needed raised ops
  · exact (calls_eq_count ops).symm

/-- What is written of a list stands somewhere in it. -/
theorem exists_of_callsAndChecks {ops : List Operation} {us vs : List Opcode} {o : Opcode}
    (h : callsAndChecks ops = us ++ o :: vs) : ∃ xs op ys, ops = xs ++ op :: ys ∧
      op.opcode = o ∧ callsAndChecks xs = us ∧ callsAndChecks ys = vs := by
  induction ops generalizing us with
  | nil => simp [callsAndChecks] at h
  | cons op ops ih =>
    rw [callsAndChecks_cons] at h
    by_cases hop : op.opcode.callsOrChecks = true
    · rw [if_pos hop] at h
      cases us with
      | nil =>
        obtain ⟨ho, hrest⟩ := List.cons.inj h
        exact ⟨[], op, ops, rfl, ho, rfl, hrest⟩
      | cons u us =>
        obtain ⟨hu, hrest⟩ := List.cons.inj h
        obtain ⟨xs, op', ys, rfl, ho, hxs, hys⟩ := ih hrest
        exact ⟨op :: xs, op', ys, rfl, ho, by rw [callsAndChecks_cons, if_pos hop, hxs, hu], hys⟩
    · rw [if_neg hop] at h
      obtain ⟨xs, op', ys, rfl, ho, hxs, hys⟩ := ih h
      exact ⟨op :: xs, op', ys, rfl, ho, by rw [callsAndChecks_cons, if_neg hop, hxs], hys⟩

/-- A call right in front of a check, both written of a list, is checked in the list. -/
theorem exists_checksCall {ops : List Operation} {us vs : List Opcode}
    (h : callsAndChecks ops = us ++ .call :: .guardNoException :: vs) :
    ∃ between, ChecksCall ops (us.count .call) between := by
  obtain ⟨before, call, rest, rfl, hcall, hbefore, hrest⟩ := exists_of_callsAndChecks h
  obtain ⟨between, check, behind, rfl, hcheck, hbetween, -⟩ :=
    exists_of_callsAndChecks (show _ = [] ++ _ from hrest)
  refine ⟨between, before, call, check, behind, rfl, hcall, hcheck, ?_, ?_⟩
  · rw [calls_eq_count, hbefore]
  · rw [calls_eq_count, hbetween]
    rfl

/-- The first check behind a call is needed if it comes in the same iteration. -/
theorem exists_needed_check {between : List Operation} (behind : List Operation)
    {check : Operation} (hcheck : check.opcode = .guardNoException) (hcalls : calls between = 0)
    (hopen : ∀ op ∈ between, op.opcode.isFinal = false) :
    ∃ vs, needed true (between ++ check :: behind) = .guardNoException :: vs := by
  induction between with
  | nil => exact ⟨_, by simp only [List.nil_append, needed, hcheck, and_self, or_true, if_true]; rfl⟩
  | cons op between ih =>
    have hne : op.opcode ≠ .call := by
      simp only [calls, List.countP_eq_zero] at hcalls
      simpa using hcalls op (List.mem_cons_self ..)
    by_cases hop : op.opcode = .guardNoException
    · exact ⟨_, by simp only [List.cons_append, needed, hop, and_self, or_true, if_true]; rfl⟩
    · have hfinal := hopen op (List.mem_cons_self ..)
      obtain ⟨vs, hvs⟩ := ih
        (Nat.le_zero.1 (hcalls ▸ List.Sublist.countP_le (List.sublist_cons_self ..)))
        fun op' hop' => hopen op' (.tail _ hop')
      refine ⟨vs, ?_⟩
      simp [needed, Opcode.mayHaveRaised, hne, hop, hfinal, hvs]

/-- Checks alone are written of a list without a call. -/
theorem callsAndChecks_eq_replicate {ops : List Operation} (h : calls ops = 0) :
    ∃ n, callsAndChecks ops = List.replicate n .guardNoException := by
  refine ⟨_, List.eq_replicate_iff.2 ⟨rfl, fun o ho => ?_⟩⟩
  have hcount : o ≠ .call := by
    rintro rfl
    rw [calls_eq_count] at h
    exact absurd ho (List.count_eq_zero.1 h)
  have hmark := (List.mem_filter.1 ho).2
  simpa [Opcode.callsOrChecks, hcount] using hmark

/-- A call that is checked in its iteration is written with a check. -/
theorem ChecksCall.exists_written {c : Config} {ops : List Operation} {k : Nat}
    {between : List Operation} (h : ChecksCall ops k between)
    (hopen : c.rewrite = true → ∀ op ∈ between, op.opcode.isFinal = false) :
    ∃ us vs, c.callsAndChecks false ops = us ++ .call :: .guardNoException :: vs ∧
      us.count .call = k := by
  obtain ⟨before, call, check, behind, rfl, hcall, hcheck, hk, hbetween⟩ := h
  have hcount := c.count_callsAndChecks false before
  unfold Config.callsAndChecks at hcount ⊢
  split
  next hrewrite =>
    obtain ⟨vs, hvs⟩ := exists_needed_check behind hcheck hbetween (hopen hrewrite)
    refine ⟨needed false before, vs, ?_, by rw [count_needed, hk]⟩
    rw [needed_append]
    simp [needed, hcall, Opcode.mayHaveRaised, hvs]
  next =>
    obtain ⟨n, hn⟩ := callsAndChecks_eq_replicate hbetween
    have hcons : ∀ vs : List Opcode, ∃ vs', List.replicate n .guardNoException ++
        .guardNoException :: vs = .guardNoException :: vs' := by
      cases n with
      | zero => exact fun vs => ⟨vs, rfl⟩
      | succ n => exact fun vs => ⟨_, rfl⟩
    obtain ⟨vs, hvs⟩ := hcons (callsAndChecks behind)
    refine ⟨callsAndChecks before, vs, ?_, by rw [← calls_eq_count, hk]⟩
    rw [callsAndChecks_append, callsAndChecks_cons, if_pos (by rw [hcall]; rfl),
      callsAndChecks_append, hn, callsAndChecks_cons, if_pos (by rw [hcheck]; rfl), hcall, hcheck,
      hvs]

/-- Rounds whose lists have equal calls and checks. -/
theorem callsAndChecks_rounds {first again : List Operation} {marks : List Opcode}
    (hfirst : callsAndChecks first = marks) (hagain : callsAndChecks again = marks) (n : Nat) :
    callsAndChecks (rounds first again n) = (List.replicate n marks).flatten := by
  have hflatten : ∀ n : Nat, callsAndChecks (List.replicate n again).flatten =
      (List.replicate n marks).flatten := by
    intro n
    induction n with
    | zero => rfl
    | succ n ih =>
      rw [List.replicate_succ, List.flatten_cons, callsAndChecks_append, hagain, ih]
      rfl
  cases n with
  | zero => rfl
  | succ n =>
    rw [rounds, callsAndChecks_append, hfirst, hflatten]
    rfl

/-- What ends an iteration ends the search for a call. -/
theorem needed_rounds {ops : List Operation}
    (hlast : ∃ body last, ops = body ++ [last] ∧ last.opcode.isFinal = true) (n : Nat) :
    needed false (rounds ops ops n) = (List.replicate n (needed false ops)).flatten := by
  have hreset : mayHaveRaised false ops = false := by
    obtain ⟨body, last, rfl, hlast⟩ := hlast
    have hne : last.opcode ≠ .call := fun he => by rw [he] at hlast; cases hlast
    simp [mayHaveRaised, List.foldl_append, Opcode.mayHaveRaised, hlast, hne]
  have hflatten : ∀ n : Nat, needed false (List.replicate n ops).flatten =
      (List.replicate n (needed false ops)).flatten := by
    intro n
    induction n with
    | zero => rfl
    | succ n ih => rw [List.replicate_succ, List.flatten_cons, needed_append, hreset, ih]; rfl
  cases n with
  | zero => rfl
  | succ n =>
    rw [rounds, needed_append, hreset, hflatten]
    rfl

namespace Config
open Optimizer

/-- Iteration for iteration a loop makes the calls and checks that are needed of its trace. -/
theorem callsAndChecks_iterations {c : Config} {t : Trace} {l : Loop}
    (h : c.optimizeLoop t = .ok l) (n : Nat) :
    TracePeel.callsAndChecks (l.rounds n) = c.callsAndChecks false (t.rounds n) := by
  obtain ⟨hverify, o, hran, rfl⟩ := ran_of_ok h
  obtain ⟨hlist, hpreamble⟩ := hran.callsAndChecks_lists hverify
  obtain ⟨body, last, hsplit⟩ := Trace.exists_split hverify
  have hsource : c.callsAndChecks false (t.rounds n) =
      (List.replicate n (c.callsAndChecks false t.ops)).flatten := by
    unfold Config.callsAndChecks
    split
    · exact needed_rounds ⟨body, last, hsplit.ops, hsplit.lands.isFinal⟩ n
    · exact callsAndChecks_rounds rfl rfl n
  rw [hsource]
  refine callsAndChecks_rounds ?_ hlist n
  show TracePeel.callsAndChecks ((o.preamble.map (·.ops)).getD o.out.toList) = _
  cases hp : o.preamble with
  | none => exact hlist
  | some p => exact hpreamble p hp

/-- Iteration for iteration a loop makes the calls of its trace, and a call that was checked in
its own iteration is checked before the next one is made. A check is left out only if no
call was made since the one before it in the same iteration, and none without rewriting. -/
theorem calls_stay_checked {c : Config} {t : Trace} {l : Loop} (h : c.optimizeLoop t = .ok l)
    (n : Nat) :
    calls (l.rounds n) = calls (t.rounds n) ∧
      TracePeel.callsAndChecks (l.rounds n) =
        (if c.rewrite then needed false (t.rounds n)
          else TracePeel.callsAndChecks (t.rounds n)) ∧
      ∀ k between, ChecksCall (t.rounds n) k between →
        (c.rewrite = true → ∀ op ∈ between, op.opcode.isFinal = false) →
        ∃ between', ChecksCall (l.rounds n) k between' := by
  have hwritten := callsAndChecks_iterations h n
  refine ⟨?_, hwritten, fun k between hchecks hopen => ?_⟩
  · rw [calls_eq_count, hwritten, c.count_callsAndChecks]
  · obtain ⟨us, vs, hus, rfl⟩ := hchecks.exists_written hopen
    exact exists_checksCall (hwritten.trans hus)

/-- A call, checked before the loop goes round. -/
def checkedCall : Trace :=
  let (i, t) := (Trace.start "checked").input .int
  let t := t.append { opcode := .call, args := [.box i] }
  (t.recordGuard .guardNoException [] [.box i]).close [.box i]

/-- The call of the second iteration is checked in the list that goes round. -/
theorem checkedCall_checked : ∃ l, optimizeLoop {} checkedCall = .ok l ∧ l.isPeeled = true ∧
    ChecksCall (checkedCall.rounds 2) 1 [] ∧ ∃ between, ChecksCall (l.rounds 2) 1 between := by
  obtain ⟨l, hl, hpeeled⟩ : ∃ l, optimizeLoop {} checkedCall = .ok l ∧ l.isPeeled = true :=
    exists_ok_of_any (by decide +kernel)
  have hlen : checkedCall.ops.length = 3 := rfl
  have hsource : ChecksCall (checkedCall.rounds 2) 1 [] :=
    ⟨(checkedCall.rounds 2).take 3, checkedCall.ops[0], checkedCall.ops[1],
      (checkedCall.rounds 2).drop 5, rfl, rfl, rfl, rfl, rfl⟩
  exact ⟨l, hl, hpeeled, hsource, (calls_stay_checked hl 2).2.2 1 [] hsource fun _ =>
    List.forall_mem_nil _⟩

/-- A call that is checked when the loop has gone round. -/
def checkedNextTime : Trace :=
  let (i, t) := (Trace.start "late").input .int
  let t := t.recordGuard .guardNoException [] [.box i]
  (t.append { opcode := .call, args := [.box i] }).close [.box i]

/-- A check is left out although the iteration before made a call: rewriting looks back no
further than to the beginning of the iteration. -/
theorem check_left_out_behind_iteration : ¬ ∀ (c : Config) (t : Trace) (l : Loop),
    t.verify = .ok () → (∃ jump ∈ t.ops.getLast?, jump.closes t.token = true) →
    c.optimizeLoop t = .ok l → ∀ n k between, ChecksCall (t.rounds n) k between →
      ∃ m between', ChecksCall (l.rounds m) k between' := by
  intro hclaim
  obtain ⟨l, hl, hnone⟩ : ∃ l, optimizeLoop {} checkedNextTime = .ok l ∧
      (l.ops ++ (l.preamble.map (·.ops)).getD l.ops).all (·.opcode != .guardNoException) = true :=
    exists_ok_of_any (by decide +kernel)
  have hlen : checkedNextTime.ops.length = 3 := rfl
  have hsource : ChecksCall (checkedNextTime.rounds 2) 0 [checkedNextTime.ops[2]] :=
    ⟨(checkedNextTime.rounds 2).take 1, checkedNextTime.ops[1], checkedNextTime.ops[0],
      (checkedNextTime.rounds 2).drop 4, rfl, rfl, rfl, rfl, rfl⟩
  obtain ⟨m, between, before, call, check, behind, hops, -, hcheck, -⟩ :=
    hclaim {} checkedNextTime l (by decide) ⟨_, rfl, by decide⟩ hl 2 0 _ hsource
  have hmem : check ∈ l.rounds m := by simp [hops]
  have hlists : ∀ op ∈ l.rounds m, op ∈ l.ops ++ (l.preamble.map (·.ops)).getD l.ops := by
    intro op hop
    cases m with
    | zero => cases hop
    | succ m =>
      rcases List.mem_append.1 hop with hop | hop
      · exact List.mem_append_right _ hop
      · obtain ⟨ops, hops, hop⟩ := List.mem_flatten.1 hop
        exact List.mem_append_left _ (List.eq_of_mem_replicate hops ▸ hop)
  have := List.all_eq_true.1 hnone check (hlists check hmem)
  simp [hcheck] at this

end Config
end TracePeel
