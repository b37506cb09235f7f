import TracePeel.Proofs.Peeling.Closing

/-! The whole run.

A recorded trace either goes through the chain as one straight list, or, where the last
operation closes the loop and peeling is on, as a preamble and a list that goes round.
`Compiled` says which and through which states. Either way the run ends there or at a
guard that can never pass. -/
namespace TracePeel

namespace Trace

/-- A well-formed trace is a straight list and an operation that ends it. -/
structure Split (t : Trace) (body : List Operation) (last : Operation) : Prop where
  ops : t.ops = body ++ [last]
  nodup : t.inputs.Nodup
  accepts : Accepts t.inputs body
  fits : last.Fits (t.inputs ++ results body)
  lands : last.Lands t.token t.inputs

theorem exists_split {t : Trace} (h : t.verify = .ok ()) : ∃ body last, t.Split body last := by
  obtain ⟨hn, body, last, hops, hbody, hlast, hlands⟩ := Verify.ops_ok_iff.1 h
  exact ⟨body, last, hops, hn, hbody, hlast, hlands⟩

/-- Each operation of a well-formed trace fits behind those in front of it. -/
theorem fits_at {t : Trace} (ht : t.verify = .ok ()) {k : Nat} {op : Operation}
    (hop : t.ops[k]? = some op) :
    op.Fits (t.inputs ++ results (t.ops.take k)) := by
  obtain ⟨body, last, hsplit⟩ := exists_split ht
  rw [hsplit.ops] at hop ⊢
  rw [List.getElem?_append] at hop
  split at hop
  next hlt =>
    rw [List.take_append_of_le_length (Nat.le_of_lt hlt)]
    exact (hsplit.accepts.fits_take hop).1
  next hle =>
    rw [List.getElem?_singleton] at hop
    split at hop
    next hk =>
      cases hop
      have hk' : k = body.length := by omega
      rw [hk', List.take_left]
      exact hsplit.fits
    next => cases hop

theorem Recorded.split {t : Trace} (h : t.Recorded) : ∃ body last, t.Split body last :=
  exists_split h.verified

theorem Recorded.neat {t : Trace} (h : t.Recorded) {op : Operation} (hop : op ∈ t.ops) :
    op.Neat t.pool.nextGuard t.frameTable :=
  ⟨h.plain op hop, h.guards op hop, h.drawn.snapshot_in hop⟩

namespace Split
variable {t : Trace} {body : List Operation} {last : Operation}

theorem take_front (h : t.Split body last) : t.ops.take (t.ops.length - 1) = body := by
  rw [h.ops, List.length_append, List.length_singleton, Nat.add_sub_cancel, List.take_left]

theorem result (h : t.Split body last) : last.result = none :=
  h.fits.result_of_isFinal h.lands.isFinal

/-- A jump that closes the loop hands over what the inputs are. -/
theorem kinds (h : t.Split body last) (hclose : last.closes t.token = true) :
    List.Forall₂ (fun a b => a.kind = b.kind) last.args t.inputs := by
  obtain ⟨hopcode, htoken⟩ := Operation.closes_iff.1 hclose
  rcases h.lands with hf | ⟨_, token, htoken', hargs⟩
  · rw [hf] at hopcode
    cases hopcode
  · exact hargs (Option.some.inj (htoken'.symm.trans htoken))

/-- What stands in front of the end has numbers that were given out. -/
theorem id_lt (h : t.Split body last) (ht : t.Drawn) {b : Box} (hb : b ∈ t.inputs ++ results body) :
    b.id < t.pool.nextBox := by
  refine ht.boxes b ?_
  rcases List.mem_append.1 hb with hb | hb
  · simp [boxes, hb]
  · simp [boxes, h.ops, hb]

theorem coming (h : t.Split body last) (ht : t.Recorded) :
    Optimizer.Coming t.frameTable t.inputs t.pool.nextGuard t.pool.nextBox body where
  accepts := h.accepts
  neat op hop := ht.neat (by simp [h.ops, hop])
  number r hr := ht.boxes r (by simp [boxes, h.ops, hr])

/-- A list whose numbers come from the pool is a recorded trace. -/
theorem recorded (h : t.Split body last) {T : FrameTable}
    (hneat : ∀ op ∈ t.ops, op.Neat t.pool.nextGuard T) (hbelow : T.Below t.pool.nextFrame)
    (hids : ∀ b ∈ t.inputs ++ results body, b.id < t.pool.nextBox) : t.Recorded := by
  have hshared := shared_of_in (fun op hop => (hneat op hop).frames) hbelow
  have hresults : results t.ops = results body := by simp [h.ops, h.result]
  refine ⟨Verify.ops_ok_iff.2 ⟨h.nodup, body, last, h.ops, h.accepts, h.fits, h.lands⟩,
    fun b hb => hids b ?_, fun op hop => (hneat op hop).guard, fun op hop => (hneat op hop).plain,
    hshared.1, hshared.2⟩
  simp only [boxes, hresults, List.mem_append, List.mem_flatMap, List.mem_filterMap] at hb
  rw [List.mem_append]
  rcases hb with hb | ⟨op, hop, a, ha, hb⟩
  · exact hb
  · cases a <;> cases hb
    rw [h.ops, List.mem_append, List.mem_singleton] at hop
    rw [← List.mem_append]
    rcases hop with hop | rfl
    · exact h.accepts.reads hop ha
    · exact h.fits.reads b ha

end Split
end Trace

namespace Optimizer

/-- How the optimizer came through a trace, and to which state. -/
inductive Compiled (c : Config) (t : Trace) (body : List Operation) (last : Operation) :
    Optimizer → Prop
  | straight {o o' : Optimizer} : Processed c.behind body (c.begin t) o →
      Handled c.behind last o o' → (c.peel = true → last.closes t.token = false) →
      Compiled c t body last o'
  | peeled {T : FrameTable} {rest : List Stage} {o o' : Optimizer} {w : Way} {chain : Array Stage}
      {cursor : Nat} : c.peel = true → Closes t.token t.inputs body last →
      Processed c.behind body (c.begin t) o → t.frameTable.Extends T →
      Closed c T t.inputs rest body last
        {o with chain := (⟨none, { recorded := t.ops }⟩ :: rest).toArray, cursor := 0} w o' →
      Compiled c t body last {o' with chain, cursor}

theorem Coming.mono {T T' : FrameTable} {defined : List Box} {n m : Nat} {ops : List Operation}
    (hT : T.Extends T') (h : Coming T defined n m ops) : Coming T' defined n m ops :=
  {h with neat := fun op hop => (h.neat op hop).mono (Nat.le_refl _) hT}

/-- A recorded trace comes through the chain unless a guard can never pass. -/
theorem run_ends {c : Config} {t : Trace} (ht : t.Recorded) {body : List Operation}
    {last : Operation} (h : t.Split body last) :
    Ends (fun e => e.cause.isGuardFailure = true) run (c.optimizer t) fun _ o' =>
      Compiled c t body last o' := by
  have hC : ∀ cause : OptCause, cause.isGuardFailure = true → cause.isGuardFailure = true :=
    fun _ => id
  unfold Ends
  rw [run_eq]
  show Ends _ (t.ops.forM (sendTo 0)) (c.begin t) _
  have hw := working_begin c ht
  have hcoming : Coming t.frameTable t.inputs (c.begin t).pool.nextGuard
      (c.begin t).pool.nextBox body := h.coming ht
  rw [h.ops]
  show Ends _ (forM (body ++ [last]) (sendTo 0)) (c.begin t) _
  rw [List.forM_append, ends_bind]
  refine (processed_ends hC (ready_begin c t) hw hcoming).mono fun _ o ho => ?_
  obtain ⟨T, hT, hw', -⟩ := ho.working hw hcoming
  have hk := ho.keeps
  have hready : Ready c o := by
    rw [Ready, hk.chain]
    exact ready_begin c t
  have htoken : o.token = t.token := hk.token
  show Ends _ (sendTo 0 last >>= fun _ => pure PUnit.unit) o _
  rw [ends_bind]
  by_cases hclose : c.peel = true ∧ last.closes t.token = true
  · obtain ⟨hpeel, hclose⟩ := hclose
    have hcloses : Closes t.token t.inputs body last :=
      ⟨hclose, h.fits, ht.plain last (by simp [h.ops]), h.kinds hclose, h.nodup⟩
    have hchain : o.chain = (⟨some .peel, { recorded := t.ops }⟩ ::
        c.behind.map fun p => ⟨some p, {}⟩).toArray := by
      rw [hk.chain]
      simp [Config.begin, Config.chain, hpeel]
    refine head_ends (C := fun cause => cause.isGuardFailure = true) (c := c) hchain
      (by simp [Function.comp_def]) ?_
    unfold Peel.step
    rw [ends_bind, ends_get]
    rw [if_pos (by rw [htoken]; exact hclose)]
    set rest := c.behind.map fun p => ({ pass := some p } : Stage) with hrest
    have hcoming' : Coming T t.inputs o.pool.nextGuard o.pool.nextBox body := by
      rw [hk.nextGuard, hk.nextBox]
      exact hcoming.mono hT
    have hinner := closePreamble_ends (C := fun cause => cause.isGuardFailure = true) (c := c)
      (o := {o with chain := (⟨none, { recorded := t.ops }⟩ :: rest).toArray, cursor := 0}) hC
      (by simp [hrest, Function.comp_def]) { hw' with } rfl h.ops hk.inputs
      (by rw [htoken]; exact hcloses) hcoming'
    refine hinner.mono ?_
    rintro _ o' ⟨w, hclosed⟩
    exact .peeled hpeel hcloses ho hT hclosed
  · have hopen : c.peel = true → last.closes t.token = false := fun hp =>
      Bool.eq_false_iff.2 fun hc => hclose ⟨hp, hc⟩
    exact (sendTo_ends (fun _ => hC) hready hw'.inRange (by rwa [htoken])).mono
      fun _ o' hs => .straight ho hs hopen

end Optimizer
end TracePeel
