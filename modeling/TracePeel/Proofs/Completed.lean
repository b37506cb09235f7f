import TracePeel.Proofs.Peeling.Retracing
import TracePeel.Proofs.WellFormed

/-! Runs that ended well.

A run over a well-formed trace that gives a loop dealt with all operations one after the
other, or, where the jump closes the loop and peeling is on, it closed the preamble there.
Nothing is asked of the numbers in the trace. -/
namespace TracePeel

namespace Optimizer

/-- A step that cannot fail gives a result. -/
theorem exists_of_ends {α : Type} {m : Optimize α} {o : Optimizer} {Q : α → Optimizer → Prop}
    (h : Ends (fun _ => False) m o Q) : ∃ a o', m.run.run o = (.ok a, o') ∧ Q a o' := by
  unfold Ends at h
  rcases hrun : m.run.run o with ⟨_ | a, o'⟩
  · rw [hrun] at h
    exact h.elim
  · rw [hrun] at h
    exact ⟨a, o', rfl, h⟩

/-- The stages behind the one of peeling. -/
def stagesBehind (c : Config) : List Stage :=
  c.behind.map fun p => { pass := some p }

theorem map_pass_stagesBehind (c : Config) :
    (stagesBehind c).map (·.pass) = c.behind.map some := by
  simp [stagesBehind, Function.comp_def]

/-- How a run went through the operations of a trace. -/
inductive Ran (c : Config) (t : Trace) : Optimizer → Prop
  | straight {o' : Optimizer} : Processed c.behind t.ops (c.begin t) o' →
      (∀ op ∈ t.ops.getLast?, c.peel = true → op.closes t.token = false) →
      (t.ops.forM (sendTo 0)).run.run (c.begin t) = (.ok (), o') → Ran c t o'
  | peeled {body : List Operation} {jump : Operation} {o o' : Optimizer}
      {w : Passage} {chain : Array Stage} {cursor : Nat} : c.peel = true →
      t.ops = body ++ [jump] → jump.closes t.token = true → Processed c.behind body (c.begin t) o →
      (body.forM (sendTo 0)).run.run (c.begin t) = (.ok (), o) →
      Traversed c (stagesBehind c) body jump {o with
        chain := (⟨none, { recorded := t.ops }⟩ :: stagesBehind c).toArray, cursor := 0} w o' →
      Ran c t {o' with chain, cursor}

theorem Processed.intact {ps : List Pass} {ops : List Operation} {o o' : Optimizer}
    (h : Processed ps ops o o') (ho : o.Intact) : o'.Intact := by
  induction h with
  | nil => exact ho
  | cons hs _ ih => exact ih (settled_handled _ _ _ _ ho hs).1

theorem intact_begin (c : Config) (t : Trace) : (c.begin t).Intact := by
  refine ⟨⟨nofun, fun id object hv => ?_⟩, nofun⟩
  rw [Values.slot_of_not_lt (Nat.not_lt_zero id)] at hv
  cases hv

/-- Operations none of which is the jump back are dealt with. -/
theorem processed_of_open {C : OptCause → Prop} {c : Config}
    (hC : c.rewrite = true → ∀ cause, cause.isGuardFailure = true → C cause)
    {ops : List Operation} {o : Optimizer} (hready : Ready c o) (ho : o.Intact)
    (hopen : ∀ op ∈ ops, c.peel = true → op.closes o.token = false) :
    Ends (fun e => C e.cause) (ops.forM (sendTo 0)) o fun _ o' =>
      Processed c.behind ops o o' := by
  induction ops generalizing o with
  | nil => exact .nil
  | cons op ops ih =>
    show Ends _ (sendTo 0 op >>= fun _ => ops.forM (sendTo 0)) o _
    rw [ends_bind]
    refine (sendTo_ends hC hready ho.values.inRange
      (hopen op (List.mem_cons_self ..))).mono fun _ o₁ h₁ => ?_
    have hk := h₁.keeps
    refine (ih (by rwa [Ready, hk.chain]) (settled_handled _ _ _ _ ho h₁).1
      fun op' hop' => ?_).mono fun _ o' h => .cons h₁ h
    rw [hk.token]
    exact hopen op' (.tail _ hop')

theorem closes_of_mem {t : Trace} {body : List Operation} {last : Operation}
    (h : t.Split body last) {op : Operation} (hop : op ∈ body) (token : LoopToken) :
    op.closes token = false :=
  Operation.closes_of_not_final (h.accepts.isFinal hop) token

/-- A run over a well-formed trace that ends well went one of the two ways. -/
theorem ran_ends {c : Config} {t : Trace} (ht : t.verify = .ok ()) :
    Ends (fun _ => True) run (c.optimizer t) fun _ o' => Ran c t o' := by
  obtain ⟨body, last, h⟩ := Trace.exists_split ht
  have ho := intact_begin c t
  have hlast : t.ops.getLast? = some last := by simp [h.ops]
  unfold Ends
  rw [run_eq]
  show Ends _ (t.ops.forM (sendTo 0)) (c.begin t) _
  by_cases hclose : c.peel = true ∧ last.closes t.token = true
  · obtain ⟨hpeel, hclose⟩ := hclose
    rw [h.ops]
    show Ends _ (forM (body ++ [last]) (sendTo 0)) (c.begin t) _
    rw [List.forM_append, ends_bind]
    refine (processed_of_open (C := fun _ => True) (fun _ _ _ => trivial) (ready_begin c t) ho
      fun op hop _ => closes_of_mem h hop _).and_run.mono ?_
    rintro _ o ⟨hbody, hrun⟩
    have hk := hbody.keeps
    have htoken : o.token = t.token := hk.token
    show Ends _ (sendTo 0 last >>= fun _ => pure PUnit.unit) o _
    have hchain : o.chain = (⟨some .peel, { recorded := t.ops }⟩ ::
        c.behind.map fun p => ⟨some p, {}⟩).toArray := by
      rw [hk.chain]
      simp [Config.begin, Config.chain, hpeel]
    rw [ends_bind]
    refine head_ends (C := fun _ => True) (c := c) hchain (by simp [Function.comp_def]) ?_
    unfold Peel.step
    rw [ends_bind, ends_get, if_pos (by rw [htoken]; exact hclose)]
    have hi := hbody.intact ho
    have hinputs : o.inputs = t.inputs := hk.inputs
    refine (traversed_ends (c := c) (n := { recorded := t.ops })
      (o := {o with
        chain := (⟨none, { recorded := t.ops }⟩ :: stagesBehind c).toArray, cursor := 0})
      (map_pass_stagesBehind c) rfl ⟨hi.values, hi.known⟩ h.ops ?_ ?_ ?_ ?_
      h.result).mono ?_
    · exact hinputs ▸ h.nodup
    · exact hinputs ▸ h.accepts
    · exact hinputs ▸ h.fits
    · exact htoken ▸ hclose
    · rintro _ o' ⟨w, hw⟩
      exact .peeled hpeel h.ops hclose hbody hrun hw
  · refine (processed_of_open (C := fun _ => True) (fun _ _ _ => trivial) (ready_begin c t) ho
      fun op hop hpeel => ?_).and_run.mono ?_
    · rw [h.ops, List.mem_append, List.mem_singleton] at hop
      rcases hop with hop | rfl
      · exact closes_of_mem h hop _
      · exact Bool.eq_false_iff.2 fun hc => hclose ⟨hpeel, hc⟩
    · rintro _ o' ⟨hops, hrun⟩
      refine .straight hops (fun op hop hpeel => ?_) hrun
      rw [hlast] at hop
      cases hop
      exact Bool.eq_false_iff.2 fun hc => hclose ⟨hpeel, hc⟩

end Optimizer

namespace Config
open Optimizer

/-- The state after the first operations of a trace were sent. -/
def after (c : Config) (t : Trace) (k : Nat) : Optimizer :=
  (((t.ops.take k).forM (sendTo 0)).run.run (c.begin t)).2

end Config

namespace Optimizer
variable {c : Config} {t : Trace}

/-- A run that went through the trace once: no operation closed the loop. -/
structure RanOnce (c : Config) (t : Trace) (o : Optimizer) : Prop where
  sent : Processed c.behind t.ops (c.begin t) o
  open_ : ∀ op ∈ t.ops, c.peel = true → op.closes t.token = false
  run : (t.ops.forM (sendTo 0)).run.run (c.begin t) = (.ok (), o)

/-- A run that went through the trace twice: up to the jump that closes the loop, in front of
which the state was `o`, and from there on over the states of `w` once more. -/
structure RanTwice (c : Config) (t : Trace) (body : List Operation) (jump : Operation)
    (o : Optimizer) (w : Passage) (o' : Optimizer) : Prop where
  split : t.Split body jump
  peel : c.peel = true
  closes : jump.closes t.token = true
  sent : Processed c.behind body (c.begin t) o
  run : (body.forM (sendTo 0)).run.run (c.begin t) = (.ok (), o)
  traversed : Traversed c (stagesBehind c) body jump {o with
    chain := (⟨none, { recorded := t.ops }⟩ :: stagesBehind c).toArray, cursor := 0} w o'

theorem Ran.once_or_twice {o' : Optimizer} (h : Ran c t o') (ht : t.verify = .ok ()) :
    RanOnce c t o' ∨ ∃ body jump o w last chain cursor, RanTwice c t body jump o w last ∧
      o' = {last with chain, cursor} := by
  obtain ⟨body, last, hsplit⟩ := Trace.exists_split ht
  cases h with
  | straight hops hopen hrun =>
    refine .inl ⟨hops, fun op hop => ?_, hrun⟩
    rw [hsplit.ops, List.mem_append, List.mem_singleton] at hop
    rcases hop with hop | rfl
    · exact fun _ => closes_of_mem hsplit hop _
    · exact hopen op (by simp [hsplit.ops])
  | peeled hpeel hsource hclose hops hrun hw =>
    obtain ⟨rfl, hlast⟩ := List.append_inj' (hsource.symm.trans hsplit.ops) rfl
    obtain rfl := List.singleton_inj.1 hlast
    exact .inr ⟨_, _, _, _, _, _, _, ⟨hsplit, hpeel, hclose, hops, hrun, hw⟩, rfl⟩

theorem RanOnce.after {o : Optimizer} (h : RanOnce c t o) : c.after t t.ops.length = o := by
  rw [Config.after, List.take_length, h.run]

/-- Behind the operations no box and no guard gets a number. -/
theorem Traversed.pool {rest : List Stage} {body : List Operation} {jump : Operation}
    {o o' : Optimizer} {w : Passage} (h : Traversed c rest body jump o w o') :
    o'.pool.nextBox = w.replayed.pool.nextBox ∧
      o'.pool.nextGuard = w.replayed.pool.nextGuard := by
  obtain ⟨stats, hends⟩ := h.ends
  obtain ⟨events, hs⟩ := h.handled
  have hkeeps := hs.keeps
  have hsearched : w.searched.pool = w.written.pool := by rw [h.searched.same]
  have hasked : w.asked.pool = w.replayed.pool := by rw [h.asked.same]
  rw [hends]
  show w.searched.pool.nextBox = _ ∧ w.searched.pool.nextGuard = _
  rw [hsearched, ← hasked]
  exact ⟨hkeeps.nextBox, hkeeps.nextGuard⟩

theorem Traversed.token {rest : List Stage} {body : List Operation} {jump : Operation}
    {o o' : Optimizer} {w : Passage} (h : Traversed c rest body jump o w o') :
    w.replayed.token = o.token ∧ w.searched.token = o.token := by
  obtain ⟨_, hs⟩ := h.handled
  obtain ⟨_, hmet⟩ := h.met
  have hreplayed : w.replayed.token = o.token :=
    calc w.replayed.token
        = w.entered.token := h.replayed.token
      _ = w.met.token := by rw [h.entered.same]
      _ = w.captured.token := by rw [hmet.eq_values]
      _ = o.token := by rw [h.captured.same]
  refine ⟨hreplayed, ?_⟩
  calc w.searched.token
      = w.written.token := by rw [h.searched.same]
    _ = w.asked.token := hs.keeps.token
    _ = w.replayed.token := by rw [h.asked.same]
    _ = o.token := hreplayed

namespace RanTwice
variable {body : List Operation} {jump : Operation} {o o' : Optimizer} {w : Passage}

theorem length (h : RanTwice c t body jump o w o') : t.ops.length - 1 = body.length := by
  simp [h.split.ops]

theorem take (h : RanTwice c t body jump o w o') : t.ops.take body.length = body := by
  rw [h.split.ops, List.take_left]

theorem dropLast (h : RanTwice c t body jump o w o') : t.ops.dropLast = body := by
  simp [h.split.ops]

theorem getLast? (h : RanTwice c t body jump o w o') : t.ops.getLast? = some jump := by
  simp [h.split.ops]

theorem after (h : RanTwice c t body jump o w o') : c.after t body.length = o := by
  rw [Config.after, h.take, h.run]

theorem intact (h : RanTwice c t body jump o w o') : o.Intact :=
  h.sent.intact (intact_begin c t)

theorem open_ (h : RanTwice c t body jump o w o') : ∀ op ∈ t.ops.take body.length,
    c.peel = true → op.closes t.token = false := by
  rw [h.take]
  exact fun _ hop _ => closes_of_mem h.split hop _

/-- The preamble ends behind what the jump hands over. -/
theorem preamble (h : RanTwice c t body jump o w o') :
    o'.preamble = some ⟨t.inputs, w.captured.out.toList ++
      [.jumpTo t.token (o'.inputs.map .box)]⟩ := by
  have hinputs : o.inputs = t.inputs := h.sent.keeps.inputs
  have htoken : w.searched.token = t.token := h.traversed.token.2.trans h.sent.keeps.token
  obtain ⟨stats, hends⟩ := h.traversed.ends
  rw [hends, htoken]
  show some (⟨o.inputs, _⟩ : Preamble) = _
  rw [hinputs]

end RanTwice
end Optimizer

namespace Config
open Optimizer

/-- A run that ended well is followed by nothing but the checks of the loop. -/
theorem loop_of_run {c : Config} {t : Trace} {o : Optimizer} {l : Loop}
    (hrun : run.run.run (c.optimizer t) = (.ok (), o)) (h : c.optimizeLoop t = .ok l) :
    l = o.loop t.name := by
  unfold optimizeLoop optimize at h
  split at h
  · cases h
  split at h
  · cases h
  unfold optimizeRecorded at h
  rw [hrun] at h
  simp only [conclude] at h
  split at h <;> cases h
  rfl

/-- Where a run ended well, no guard was found to fail. -/
theorem cause_of_error {c : Config} {t : Trace} {o : Optimizer} {e : OptError}
    (hrun : run.run.run (c.optimizer t) = (.ok (), o)) (h : c.optimizeLoop t = .error e) :
    e.cause.isGuardFailure = false := by
  unfold optimizeLoop optimize at h
  split at h
  · cases h
    rfl
  split at h
  · cases h
    rfl
  unfold optimizeRecorded at h
  rw [hrun] at h
  simp only [conclude] at h
  split at h <;> cases h
  rfl

/-- A loop comes from a run over a verified trace that ended well. -/
theorem run_of_ok {c : Config} {t : Trace} {l : Loop} (h : c.optimizeLoop t = .ok l) :
    t.verify = .ok () ∧ ∃ o, run.run.run (c.optimizer t) = (.ok (), o) ∧ l = o.loop t.name := by
  have hverify : t.verify = .ok () := by
    unfold optimizeLoop optimize at h
    split at h
    · cases h
    split at h
    · cases h
    next hverify => exact hverify
  refine ⟨hverify, ?_⟩
  rcases hrun : run.run.run (c.optimizer t) with ⟨_ | _, o⟩
  · unfold optimizeLoop optimize at h
    split at h
    · cases h
    rw [hverify] at h
    simp only [optimizeRecorded, hrun] at h
    cases h
  · exact ⟨o, rfl, loop_of_run hrun h⟩

/-- The loop that an optimization ends with was written by a run over a verified trace. -/
theorem ran_of_ok {c : Config} {t : Trace} {l : Loop} (h : c.optimizeLoop t = .ok l) :
    t.verify = .ok () ∧ ∃ o, Ran c t o ∧ l = o.loop t.name := by
  obtain ⟨hverify, o, hrun, hl⟩ := run_of_ok h
  exact ⟨hverify, o, (ran_ends hverify).of_run hrun, hl⟩

end Config
end TracePeel
