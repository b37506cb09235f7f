import TracePeel.Proofs.Peeling.Fixpoint
import TracePeel.Proofs.WellFormed

/-! What a trace becomes is drawn from its pool.

The guards of a trace may bear any numbers, also such as its pool will give out, and a list that
goes round has numbers of either kind. Nothing else of the list depends on them: its boxes and its
frames come from the pool that the loop has. Where the list passes the checks, it is therefore
drawn from that pool, and can be optimized again. -/
namespace TracePeel

theorem Trace.Recorded.drawn_of_numbered {t : Trace} {n : Nat}
    (h : Recorded {t with pool := {t.pool with nextGuard := n}}) : t.Drawn :=
  ⟨h.verified, h.boxes, h.plain, h.frames, h.shared⟩

namespace Optimizer
open Peel

/-- What a trace becomes as one straight list is drawn from its pool. -/
theorem drawn_straight {c : Config} {t : Trace} (ht : t.Drawn) {o : Optimizer}
    (h : Processed c.behind t.ops (c.begin t) o) : (o.loop t.name).toTrace.Drawn := by
  obtain ⟨n, hrecorded⟩ := ht.exists_recorded
  obtain ⟨body, last, hsplit⟩ := Trace.exists_split ht.verified
  rw [hsplit.ops] at h
  obtain ⟨o₁, hbody, hlast⟩ := h.exists_last
  exact (recorded_straight hrecorded (hsplit.numbered n) (hbody.numbered n)
    (numberless_handled _ _ _ _ hlast n)).drawn_of_numbered

/-- A list that goes round is recorded, if it passes the checks once the search for its inputs
has ended. -/
theorem Round.recorded {T : FrameTable} {base defined walked loopInputs inputs : List Box}
    {rest : List Stage} {target : LoopToken} {n : Peeling} {out : Array Operation}
    {jump : Operation} {o fixed : Optimizer} {t : Trace}
    (h : Round T base defined walked loopInputs rest target n out jump o) (hbase : base ⊆ walked)
    (hnodup : loopInputs.Nodup) (hsub : loopInputs ⊆ base)
    (hfix : (fixUp 0 loopInputs).run.run o = (.ok inputs, fixed)) (hops : t.ops = fixed.out.toList)
    (hinputs : t.inputs = inputs) (hpool : t.pool = fixed.pool) (ht : t.verify = .ok ()) :
    t.Recorded := by
  have hjump := (Operation.closes_iff.1 h.closes).1
  obtain ⟨added, handed, o₁, stats, rfl, hs, rfl⟩ := (fixUp_ends (E := fun _ => True) h.notes
    h.names hbase h.written hjump h.built h.ready hnodup hsub).of_run hfix
  have hpool' : t.pool = o.pool := by
    rw [hpool]
    show o₁.pool = o.pool
    rw [hs.grown.same]
  have hends : t.ops = o₁.out.toList ++ [{jump with args := jump.args ++ handed}] := by
    rw [hops]
    exact Array.toList_push
  obtain ⟨body, last, hsplit⟩ := Trace.exists_split ht
  obtain ⟨rfl, hlast⟩ := List.append_inj' (hsplit.ops.symm.trans hends) rfl
  obtain rfl := List.singleton_inj.1 hlast
  exact hs.recorded hjump h.plain h.names.relinker.below
    (fun b hb => h.ids b (hs.built.table.subset hb)) hinputs hpool' hsplit

/-- What a trace becomes where a preamble was closed is recorded, if it passes the checks. -/
theorem recorded_peeled {c : Config} {t : Trace} (ht : t.Drawn) {body : List Operation}
    {jump : Operation} (hsplit : t.Split body jump) (hpeel : c.peel = true)
    (hclose : jump.closes t.token = true) {o : Optimizer}
    (hrun : run.run.run (c.optimizer t) = (.ok (), o))
    (hverify : (o.loop t.name).toTrace.verify = .ok ()) : (o.loop t.name).toTrace.Recorded := by
  obtain ⟨o, o₁, hprocessed, -, -, hclosed, rfl⟩ := run_closes hsplit hpeel hclose hrun
  have hk := hprocessed.keeps
  have htoken : o.token = t.token := hk.token
  obtain ⟨T, N, -, hcoming, hw⟩ := hprocessed.working_of_drawn ht hsplit
  obtain ⟨preamble, loopInputs, entered, written, inputs, fixed, base, T', defined, n, out, last, -,
      -, hfix, -, hbase, hnodup, hsub, hround, rfl⟩ :=
    closePreamble_rounds (N := N) (map_pass_stagesBehind c) (o := {o with
      chain := (⟨none, { recorded := t.ops }⟩ :: stagesBehind c).toArray, cursor := 0})
      { hw with } rfl hsplit.ops hk.inputs (closes_of_split ht hsplit hclose htoken) hcoming hclosed
  exact hround.recorded hbase hnodup hsub hfix rfl rfl rfl hverify

end Optimizer

namespace Config
open Optimizer

/-- What a trace becomes is drawn from the pool of the loop, if its list passes the checks. -/
theorem drawn_of_optimizeLoop {c : Config} {t : Trace} {l : Loop} (ht : t.Drawn)
    (h : c.optimizeLoop t = .ok l) (hverify : l.toTrace.verify = .ok ()) : l.toTrace.Drawn := by
  obtain ⟨-, o, hrun, rfl⟩ := run_of_ok h
  obtain ⟨body, last, hsplit⟩ := Trace.exists_split ht.verified
  by_cases hclose : c.peel = true ∧ last.closes t.token = true
  · exact (recorded_peeled ht hsplit hclose.1 hclose.2 hrun hverify).drawn
  · have hran : Ran c t o := (ran_ends ht.verified).of_run hrun
    cases hran with
    | straight hops _ _ => exact drawn_straight ht hops
    | peeled hpeel hsource hjump =>
      obtain ⟨-, hlast⟩ := List.append_inj' (hsource.symm.trans hsplit.ops) rfl
      obtain rfl := List.singleton_inj.1 hlast
      exact absurd ⟨hpeel, hjump⟩ hclose

/-- After any number of rounds a trace is drawn from its pool, if it passes the checks. -/
theorem rounds_drawn {t t' : Trace} (ht : t.Drawn) (h : Rounds t t')
    (hverify : t'.verify = .ok ()) : t'.Drawn := by
  induction h with
  | start => exact ht
  | again _ hl ih =>
    obtain ⟨hbefore, -⟩ := ran_of_ok hl
    exact drawn_of_optimizeLoop (ih hbefore) hl hverify

end Config
end TracePeel
