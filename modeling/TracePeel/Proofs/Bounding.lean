import TracePeel.Proofs.Accounting
import TracePeel.Proofs.Effects
import TracePeel.Proofs.Owing
import TracePeel.Proofs.Redrawn

/-! No list is longer than the trace.

What is written or owed grows by at most one with each operation that is sent, so the list of a
straight trace and the list of a preamble are no longer than what was sent for them. The list that
goes round begins empty, but when it begins the objects that the preamble left behind are owed. They
are never forced in it and still owed when it ends, so nothing that it writes was paid for by
them. -/
namespace TracePeel

namespace Optimizer
open Peel

/-- No list is longer than `n` operations, and an object that was forced had been held back. -/
structure Within (n : Nat) (o : Optimizer) : Prop where
  opsIn : o.stats.opsIn = n
  preamble : (o.preamble.map (·.ops.length)).getD 0 ≤ n
  list : o.out.size ≤ n
  forced : o.values.forced ≤ o.stats.virtualsCreated

theorem owed_begin (c : Config) (t : Trace) :
    (c.begin t).values.owed = 0 ∧ (c.begin t).values.objects = 0 :=
  ⟨rfl, rfl⟩

variable {c : Config} {t : Trace}

/-- Behind the beginning, nothing but what is owed pays for what is written. -/
theorem Affords.of_begin {k : Nat} {o : Optimizer} (h : Affords k (c.begin t) o) :
    o.out.size + o.values.owed ≤ k ∧ o.values.objects ≤ o.stats.virtualsCreated ∧
      o.stats.opsIn = t.ops.length := by
  obtain ⟨howed, hobjects⟩ := owed_begin c t
  have hlist : o.out.size + o.values.owed ≤ 0 + (c.begin t).values.owed + k := h.list
  have hcreated : o.values.objects + 0 ≤ (c.begin t).values.objects + o.stats.virtualsCreated :=
    h.objects
  refine ⟨?_, ?_, h.opsIn⟩ <;> omega

theorem within_straight {o : Optimizer} (h : RanOnce c t o) : Within t.ops.length o := by
  obtain ⟨hlist, hobjects, hin⟩ := (h.sent.affords (intact_begin c t)).of_begin
  have hnone : o.preamble = none := h.sent.keeps.preamble
  refine ⟨hin, ?_, by omega, (Nat.le_add_right ..).trans hobjects⟩
  rw [hnone]
  exact Nat.zero_le _

theorem within_peeled (ht : t.Drawn) {body : List Operation} {jump : Operation}
    {o o' : Optimizer} {w : Passage} (h : RanTwice c t body jump o w o') :
    Within t.ops.length o' := by
  have hlength : t.ops.length = body.length + 1 := by rw [h.split.ops, List.length_append]; rfl
  have hi := h.intact
  have hsent : Affords body.length (c.begin t) {o with
      chain := (⟨none, { recorded := t.ops }⟩ :: stagesBehind c).toArray, cursor := 0} :=
    (h.sent.affords (intact_begin c t)).congr rfl rfl rfl rfl
  -- The preamble, and the jump behind it.
  have hcaptured := (hsent.trans h.traversed.captured.affords).of_begin.1
  have hpreamble : (o'.preamble.map (·.ops.length)).getD 0 = w.captured.out.size + 1 := by
    rw [h.preamble]
    simp
  -- The list, that begins empty and ends with the same objects owed.
  obtain ⟨T, n, casts, kept, haround, hrear⟩ := h.exists_rear ht _ (Nat.le_refl _)
  have hempty : w.entered.out = #[] := h.around_zero ▸ hrear.begun
  have hkept : w.entered.values.owed ≤ o'.values.owed :=
    Values.owed_le_of_kept fun id object hv =>
      (h.told_rear ht haround hrear).1 id (by simp [Values.Holding, hv])
  have hround := h.traversed.affords ⟨hi.values, hi.known⟩
  have hlist := hround.list
  rw [hempty, Array.size_empty] at hlist
  obtain ⟨-, hobjects, hin⟩ :=
    ((hsent.trans h.traversed.affords_entered).trans hround).of_begin
  refine ⟨hin, ?_, ?_, (Nat.le_add_right ..).trans hobjects⟩ <;> omega

theorem Ran.within (ht : t.Drawn) {o : Optimizer} (h : Ran c t o) : Within t.ops.length o := by
  rcases h.once_or_twice ht.verified with honce | ⟨body, jump, o, w, o', _, _, htwice, rfl⟩
  · exact within_straight honce
  · have hwithin := within_peeled ht htwice
    exact ⟨hwithin.opsIn, hwithin.preamble, hwithin.list, hwithin.forced⟩

end Optimizer

namespace Config
open Optimizer

/-- No list of a loop is longer than the trace, so peeling at most doubles it, and no more objects
were forced than were held back. However often the list of the loop is optimized again, it never
gets longer. -/
theorem lists_within {c : Config} {t : Trace} {l : Loop} {stats : Stats} (ht : t.Drawn)
    (h : (c.optimize t).result = .ok (l, stats)) :
    (stats.opsIn = t.ops.length ∧ stats.preambleOps = (l.preamble.map (·.ops.length)).getD 0 ∧
      stats.bodyOps = l.ops.length ∧ stats.opsOut = stats.preambleOps + stats.bodyOps) ∧
    stats.preambleOps ≤ stats.opsIn ∧ stats.bodyOps ≤ stats.opsIn ∧
    stats.virtualsForced ≤ stats.virtualsCreated ∧ stats.opsOut ≤ 2 * stats.opsIn ∧
    ∀ t', Rounds l.toTrace t' → ∀ c' l', optimizeLoop c' t' = .ok l' →
      l'.ops.length ≤ t'.ops.length := by
  have hl : c.optimizeLoop t = .ok l := by rw [optimizeLoop, h]; rfl
  obtain ⟨o, hrun, hfinish⟩ := finish_of_ok h
  have hran : Ran c t o := (ran_ends ht.verified).of_run hrun
  have hwithin := hran.within ht
  cases hfinish
  have hin : o.stats.opsIn = t.ops.length := hwithin.opsIn
  have hpreamble : (o.preamble.map (·.ops.length)).getD 0 ≤ o.stats.opsIn :=
    hin.symm ▸ hwithin.preamble
  have hlist : o.out.size ≤ o.stats.opsIn := hin.symm ▸ hwithin.list
  refine ⟨⟨hin, rfl, Array.length_toList.symm, rfl⟩, hpreamble, hlist, hwithin.forced, ?_, ?_⟩
  · show (o.preamble.map (·.ops.length)).getD 0 + o.out.size ≤ 2 * o.stats.opsIn
    omega
  · intro t' hrounds c' l' hl'
    obtain ⟨hverify, o', hran', rfl⟩ := ran_of_ok hl'
    have hdrawn : t'.Drawn := rounds_drawn ht ((Rounds.again .start hl).trans hrounds) hverify
    have hlist' := (hran'.within hdrawn).list
    rwa [← Array.length_toList] at hlist'

/-- Keeps the count in an object that is never needed, and hands it to a call in another. -/
def boxing : Trace :=
  let (i, t) := (Trace.start "boxing").input .int
  let (kept, t) := t.recordWithDescr .new [] (some .ref) (.size "Cell")
  let cell : Operand := kept.elim (.const (.ref 0)) .box
  let t := t.append (.setField cell "value" (.box i))
  let (held, t) := t.recordWithDescr .new [] (some .ref) (.size "Cell")
  let object : Operand := held.elim (.const (.ref 0)) .box
  let t := t.append (.setField object "value" (.box i))
  let t := t.append { opcode := .call, args := [object] }
  let (less, t) := t.record .intLt [.box i, .const (.int 100)] .int
  let t := t.recordGuard .guardTrue [.box less] [.box i]
  let (next, t) := t.record .intAdd [.box i, .const (.int 1)] .int
  t.close [.box next]

/-- Of two objects in each list one is forced, and the list gets no longer in another round. -/
theorem boxing_within : ∃ l stats l', (optimize {} boxing).result = .ok (l, stats) ∧
    l.isPeeled = true ∧ stats.virtualsCreated = 4 ∧ stats.virtualsForced = 2 ∧
    stats.preambleOps ≤ stats.opsIn ∧ stats.bodyOps ≤ stats.opsIn ∧
    optimizeLoop {} l.toTrace = .ok l' ∧ l'.ops.length ≤ l.ops.length := by
  obtain ⟨⟨l, stats⟩, h, hshape⟩ : ∃ p : Loop × Stats, (optimize {} boxing).result = .ok p ∧
      (p.1.isPeeled && p.2.virtualsCreated == 4 && p.2.virtualsForced == 2 &&
        (optimizeLoop {} p.1.toTrace).isOk) = true :=
    exists_ok_of_any (by decide +kernel)
  simp only [Bool.and_eq_true, beq_iff_eq] at hshape
  obtain ⟨⟨⟨hpeeled, hcreated⟩, hforced⟩, hagain⟩ := hshape
  obtain ⟨-, hpreamble, hbody, -, -, hrounds⟩ := lists_within (by decide : boxing.Drawn) h
  cases hl' : optimizeLoop {} l.toTrace with
  | error e => rw [hl'] at hagain; cases hagain
  | ok l' =>
    exact ⟨l, stats, l', h, hpeeled, hcreated, hforced, hpreamble, hbody, hl',
      hrounds _ .start _ _ hl'⟩

end Config
end TracePeel
