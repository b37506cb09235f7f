import TracePeel.Proofs.Dealing

/-! The counts of a run.

An operation that comes is written, or it is left out and counted, or it is a `same_as`, which
leaves no trace. `Deals.accounted` is this law for a run of operations, and `stats_account` draws
up the balance of a whole optimization: where the loop was peeled, every operation came twice,
the jump as the end of the preamble and as the end of the list that goes round. -/
namespace TracePeel

/-- How many operations just give another name to a value. -/
def copies (ops : List Operation) : Nat :=
  ops.countP (·.opcode == .sameAs)

theorem copies_append (xs ys : List Operation) : copies (xs ++ ys) = copies xs + copies ys :=
  List.countP_append

theorem copies_of_codes {xs ys : List Operation}
    (h : xs.map (·.opcode) = ys.map (·.opcode)) : copies xs = copies ys := by
  have hcount : ∀ zs : List Operation, copies zs = (zs.map (·.opcode)).countP (· == .sameAs) :=
    fun zs => by rw [List.countP_map]; rfl
  rw [hcount, hcount, h]

/-- How many operations were written, or left out and counted. -/
def Ledger.accounted (l : Ledger) : Nat :=
  l.out.length + l.stats.spared

/-- An operation that is no copy is accounted for just once. -/
theorem Dealt.accounted {op : Operation} {l l' : Ledger} (h : Dealt op l l') :
    l'.accounted + copies [op] = l.accounted + 1 ∧ l'.stats.opsIn = l.stats.opsIn ∧
      l'.stats.fixupInputs = l.stats.fixupInputs := by
  have hone : ∀ {op : Operation}, op.opcode ≠ .sameAs → copies [op] = 0 := fun hop => by
    simp [copies, hop]
  cases h with
  | aliased hop => simp [copies, hop]
  | spared hop hspared hin hfix =>
    refine ⟨?_, hin, hfix⟩
    rw [hone hop, Ledger.accounted, Ledger.accounted, hspared]
    rfl
  | written hop =>
    refine ⟨?_, rfl, rfl⟩
    simp only [hone hop.ne_sameAs, Ledger.accounted, List.length_append, List.length_singleton]
    omega
  | computed hop =>
    refine ⟨?_, rfl, rfl⟩
    simp only [hone hop, Ledger.accounted, List.length_append, List.length_singleton]
    omega

/-- Of a run of operations, all are accounted for but the copies. -/
theorem Deals.accounted {ops : List Operation} {l l' : Ledger} (h : Deals ops l l') :
    l'.accounted + copies ops = l.accounted + ops.length ∧ l'.stats.opsIn = l.stats.opsIn ∧
      l'.stats.fixupInputs = l.stats.fixupInputs := by
  induction h with
  | nil => exact ⟨rfl, rfl, rfl⟩
  | @cons op ops l l₁ l' hd _ ih =>
    obtain ⟨hone, hin, hfix⟩ := hd.accounted
    obtain ⟨hrest, hin', hfix'⟩ := ih
    refine ⟨?_, hin'.trans hin, hfix'.trans hfix⟩
    have hcopies : copies (op :: ops) = copies [op] + copies ops := copies_append [op] ops
    rw [hcopies, List.length_cons]
    omega

namespace Optimizer

/-- The balance behind the jump that closes the loop: the operations in front of it came twice,
and so did the jump. -/
theorem Looped.accounted {body again : List Operation} {args : List Operand} {l₀ l : Ledger}
    {added : List Box} {o o' : Optimizer} (h : Looped body args again l added o o')
    (hbody : Deals body l₀ o.ledger) (hbegin : l₀.accounted = 0) :
    (o'.preamble.map (·.ops.length)).getD 0 + o'.out.size + o'.stats.spared + 2 * copies body =
        2 * (body.length + 1) ∧
      o'.stats.opsIn = l₀.stats.opsIn ∧
      o'.stats.fixupInputs = l₀.stats.fixupInputs + added.length := by
  obtain ⟨hfirst, hin, hfix⟩ := hbody.accounted
  obtain ⟨hsecond, hin', hfix'⟩ := h.deals.accounted
  obtain ⟨last, -, hledger⟩ := h.ends
  obtain ⟨exit, -, hpreamble⟩ := h.preamble
  have hlength : again.length = body.length := by simpa using congrArg List.length h.codes
  have hstats : o'.stats =
      {l.stats with fixupInputs := l.stats.fixupInputs + added.length} :=
    congrArg Ledger.stats hledger
  have hout : o'.out.size = l.out.length + 1 := by
    simpa [ledger] using congrArg (fun l => l.out.length) hledger
  refine ⟨?_, ?_, ?_⟩
  · rw [copies_of_codes h.codes, hlength] at hsecond
    simp only [Ledger.accounted, List.length_nil] at hfirst hsecond hbegin
    have hspared : o'.stats.spared = l.stats.spared := by rw [hstats]; rfl
    rw [hpreamble, Option.map_some, Option.getD_some, List.length_append, List.length_singleton,
      hout, hspared]
    omega
  · rw [hstats]
    exact hin'.trans hin
  · rw [hstats]
    show l.stats.fixupInputs + added.length = _
    rw [hfix', ← hfix]

end Optimizer

namespace Config
open Optimizer

/-- The boxes that the operands of the last operation stand for when it comes. -/
def handedOver (c : Config) (t : Trace) : Finset Box :=
  ((((t.ops.getLast?.map (·.args)).getD []).map
    (·.mapBox (c.after t (t.ops.length - 1)).standsFor)).filterMap Operand.box?).toFinset

theorem card_handedOver {c : Config} {t : Trace} {body : List Operation} {jump : Operation}
    {o : Optimizer} (hops : t.ops = body ++ [jump]) (hafter : c.after t (t.ops.length - 1) = o) :
    (c.handedOver t).card =
      (Peel.distinctBoxes (jump.args.map (·.mapBox o.standsFor))).length := by
  have hlast : (t.ops.getLast?.map (·.args)).getD [] = jump.args := by simp [hops]
  rw [← List.toFinset_card_of_nodup (Peel.nodup_distinctBoxes _), handedOver, hafter, hlast,
    Peel.distinctBoxes_eq]
  congr 1
  ext b
  simp

/-- An optimization that gives a loop has run to its end, and the counts are those of the end. -/
theorem finish_of_ok {c : Config} {t : Trace} {l : Loop} {stats : Stats}
    (h : (c.optimize t).result = .ok (l, stats)) :
    ∃ o, run.run.run (c.optimizer t) = (.ok (), o) ∧ (l, stats) = o.finish t.name := by
  unfold optimize at h
  split at h
  · cases h
  split at h
  · cases h
  unfold optimizeRecorded at h
  split at h
  · cases h
  next o hrun =>
    simp only [conclude] at h
    split at h
    · cases h
    · cases h
      exact ⟨o, hrun, rfl⟩

/-- Every operation of the trace is accounted for. Those that are written and those that were
folded, found computed or found implied make up the trace but for its copies, and twice the trace
where the loop was peeled. Then the inputs are those that were found missing and the boxes that
the jump handed over. -/
theorem stats_account {c : Config} {t : Trace} {l : Loop} {stats : Stats}
    (hrewrite : c.rewrite = true) (hvirtual : c.virtualize = false) (ht : t.Drawn)
    (h : (c.optimize t).result = .ok (l, stats)) :
    stats.opsIn = t.ops.length ∧
      (l.isPeeled = false → stats.opsOut + stats.folded + stats.cseHits + stats.guardsRemoved +
        copies t.ops = stats.opsIn) ∧
      (l.isPeeled = true → stats.preambleOps + stats.bodyOps + stats.folded + stats.cseHits +
          stats.guardsRemoved + 2 * copies t.ops = 2 * stats.opsIn ∧
        stats.inputs = stats.fixupInputs + (c.handedOver t).card) := by
  have hbehind : c.behind = [.rewrite] := by simp [behind, hrewrite, hvirtual]
  obtain ⟨o', hrun, hfinish⟩ := finish_of_ok h
  cases hfinish
  have hbegin : (c.begin t).ledger.accounted = 0 := rfl
  cases dealtWith_of_run hbehind ht hrun with
  | straight hpreamble hdeals =>
    obtain ⟨hall, hin, -⟩ := hdeals.accounted
    refine ⟨hin, fun _ => ?_, fun hpeeled => ?_⟩
    · show (o'.preamble.map (·.ops.length)).getD 0 + o'.out.size + o'.stats.folded +
        o'.stats.cseHits + o'.stats.guardsRemoved + copies t.ops = o'.stats.opsIn
      have hin : o'.stats.opsIn = t.ops.length := hin
      rw [hbegin] at hall
      simp only [Ledger.accounted, Stats.spared, ledger, Array.length_toList] at hall
      rw [hpreamble, hin, Option.map_none, Option.getD_none]
      omega
    · have hsome : o'.preamble.isSome = true := hpeeled
      rw [hpreamble] at hsome
      cases hsome
  | @peeled body again jump l added o hops hjump hafter hdeals hlooped =>
    obtain ⟨hall, hin, hfix⟩ := hlooped.accounted hdeals hbegin
    have hlength : t.ops.length = body.length + 1 := by rw [hops, List.length_append]; rfl
    have hcopies : copies t.ops = copies body := by
      rw [hops, copies_append]
      simp [copies, hjump]
    have hin : o'.stats.opsIn = t.ops.length := hin
    refine ⟨hin, fun hstraight => ?_, fun _ => ⟨?_, ?_⟩⟩
    · obtain ⟨_, _, hpreamble⟩ := hlooped.preamble
      have hnone : o'.preamble.isSome = false := hstraight
      rw [hpreamble] at hnone
      cases hnone
    · show (o'.preamble.map (·.ops.length)).getD 0 + o'.out.size + o'.stats.folded +
        o'.stats.cseHits + o'.stats.guardsRemoved + 2 * copies t.ops = 2 * o'.stats.opsIn
      simp only [Stats.spared] at hall
      rw [hcopies, hin, hlength]
      omega
    · show o'.inputs.length = o'.stats.fixupInputs + _
      have hzero : o'.stats.fixupInputs = 0 + added.length := hfix
      rw [hlooped.inputs, List.length_append, hzero, card_handedOver hops hafter]
      omega

/-- Counts on by a multiple that is computed twice and copied, while the count is small. -/
def repeating : Trace :=
  let (i, t) := (Trace.start "repeating").input .int
  let (step, t) := t.input .int
  let (less, t) := t.record .intLt [.box i, .const (.int 100)] .int
  let t := t.recordGuard .guardTrue [.box less] [.box i]
  let t := t.recordGuard .guardTrue [.box less] [.box i]
  let (scaled, t) := t.record .intMul [.box step, .const (.int 3)] .int
  let (again, t) := t.record .intMul [.box step, .const (.int 3)] .int
  let (copy, t) := t.record .sameAs [.box again] .int
  let (two, t) := t.record .intAdd [.const (.int 1), .const (.int 1)] .int
  let (sum, t) := t.record .intAdd [.box scaled, .box copy] .int
  let (next, t) := t.record .intAdd [.box i, .box sum] .int
  let (next, t) := t.record .intAdd [.box next, .box two] .int
  t.close [.box next, .box step]

/-- Of twice eleven operations twelve are written, and the others are accounted for. -/
theorem repeating_accounted : ∃ l stats,
    (optimize { virtualize := false } repeating).result = .ok (l, stats) ∧
      l.isPeeled = true ∧ copies repeating.ops = 1 ∧ stats.opsIn = 11 ∧
      stats.preambleOps + stats.bodyOps + stats.folded + stats.cseHits + stats.guardsRemoved +
        2 * copies repeating.ops = 2 * stats.opsIn ∧
      stats.inputs = stats.fixupInputs + (handedOver { virtualize := false } repeating).card := by
  obtain ⟨⟨l, stats⟩, h, hpeeled⟩ : ∃ p : Loop × Stats,
      (optimize { virtualize := false } repeating).result = .ok p ∧ p.1.isPeeled = true :=
    exists_ok_of_any (by decide +kernel)
  obtain ⟨hin, -, hbalance⟩ := stats_account rfl rfl (by decide : repeating.Drawn) h
  exact ⟨l, stats, h, hpeeled, rfl, hin, hbalance hpeeled⟩

end Config
end TracePeel
