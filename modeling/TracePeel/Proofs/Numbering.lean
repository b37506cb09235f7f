import TracePeel.Proofs.Effects

/-! Each box is assigned once, round after round.

The preamble assigns boxes of the trace, and the list that goes round boxes whose numbers were
drawn for it. Guards keep their numbers in the preamble and get numbers of their own in the list
that goes round. So however many rounds are made, no box is assigned twice and no two guards
have one number, although a loop is never checked for that. -/
namespace TracePeel

namespace Loop

/-- The list that is run once, if there is one. -/
def opening (l : Loop) : List Operation :=
  (l.preamble.map (·.ops)).getD []

/-- The boxes that the loop is entered with. -/
def entry (l : Loop) : List Box :=
  (l.preamble.map (·.inputs)).getD l.inputs

/-- The boxes that the loop is entered with and those that it assigns. -/
def assigned (l : Loop) : List Box :=
  l.entry ++ results l.opening ++ results l.ops

/-- All boxes of the loop. -/
def boxes (l : Loop) : List Box :=
  l.entry ++ l.inputs ++ results l.opening ++ results l.ops ++
    (l.opening ++ l.ops).flatMap (·.usedArgs.filterMap Operand.box?)

/-- The numbers of the guards of both lists. -/
def guardNumbers (l : Loop) : List Nat :=
  TracePeel.guardNumbers l.opening ++ TracePeel.guardNumbers l.ops

/-- No box is assigned twice and no guard number given twice, and what is not in the trace
has a number that the trace does not have. -/
structure FreshFrom (t : Trace) (l : Loop) : Prop where
  assigned : l.assigned.Nodup
  guards : l.guardNumbers.Nodup
  boxes : ∀ b ∈ l.boxes, b.id < l.pool.nextBox ∧ (b ∈ t.boxes ∨ t.pool.nextBox ≤ b.id)
  numbers : ∀ n ∈ l.guardNumbers, n < l.pool.nextGuard ∧
    (n ∈ TracePeel.guardNumbers t.ops ∨ t.pool.nextGuard ≤ n)
  drawn : (∀ b ∈ t.boxes, b.id < t.pool.nextBox) ∧
    ∀ n ∈ TracePeel.guardNumbers t.ops, n < t.pool.nextGuard

end Loop

/-! ### Lists that pass the checks -/

theorem mem_boxes_used {ops : List Operation} {b : Box}
    (h : b ∈ ops.flatMap (·.usedArgs.filterMap Operand.box?)) :
    ∃ op ∈ ops, .box b ∈ op.usedArgs := by
  obtain ⟨op, hop, hb⟩ := List.mem_flatMap.1 h
  obtain ⟨a, ha, hab⟩ := List.mem_filterMap.1 hb
  cases a <;> cases hab
  exact ⟨op, hop, ha⟩

/-- A list that passes the checks assigns each box once, and reads only what it was entered
with or assigns. -/
theorem Verify.once {inputs target : List Box} {ops : List Operation} {token : LoopToken}
    (h : Verify.ops inputs ops token target = .ok ()) :
    (inputs ++ results ops).Nodup ∧
      ∀ b ∈ ops.flatMap (·.usedArgs.filterMap Operand.box?), b ∈ inputs ++ results ops := by
  obtain ⟨hnodup, body, last, rfl, haccepts, hfits, hlands⟩ := Verify.ops_ok_iff.1 h
  have hlast : last.result = none := hfits.result_of_isFinal hlands.isFinal
  have hresults : results (body ++ [last]) = results body := by
    simp [hlast]
  obtain ⟨hbody, hfresh⟩ := haccepts.nodup
  refine ⟨?_, fun b hb => ?_⟩
  · rw [hresults]
    exact List.nodup_append.2 ⟨hnodup, hbody, fun a ha r hr he => hfresh r hr (he ▸ ha)⟩
  · obtain ⟨op, hop, hb⟩ := mem_boxes_used hb
    rw [hresults]
    rcases List.mem_append.1 hop with hop | hop
    · exact haccepts.reads hop hb
    · exact hfits.reads b (List.mem_singleton.1 hop ▸ hb)

/-! ### What was written -/

theorem Operation.SuppliedBy.unguarded {source : List Operation} {op : Operation}
    (h : op.SuppliedBy source) (hplain : ∀ a ∈ source, a.isGuard = false → a.guard? = none) :
    op.guard? = none := by
  cases h with
  | allocation ha hnew => exact hplain _ ha (by simp [Operation.isGuard, hnew, Opcode.isGuard])
  | fieldWrite => rfl

/-- What is forced has no number. -/
theorem Supplies.guardNumbers {c : Config} {source forced : List Operation} {v : Values}
    (h : Supplies c source v forced)
    (hplain : ∀ a ∈ source, a.isGuard = false → a.guard? = none) :
    TracePeel.guardNumbers forced = [] := by
  refine List.filterMap_eq_nil_iff.2 fun f hf => ?_
  rw [(h.source f hf).unguarded hplain]
  rfl

namespace Optimizer
variable {c : Config} {states : Nat → Optimizer} {sent : List Operation} {portions : List Portion}

/-- The number of the guard that stands at a place. -/
def numberAt (ops : List Operation) (k : Nat) : Option Nat :=
  ops[k]?.bind fun op => op.guard?.map Prod.fst

theorem mem_guardNumbers {ops : List Operation} {n : Nat} :
    n ∈ guardNumbers ops ↔ ∃ op ∈ ops, op.guard?.map Prod.fst = some n :=
  List.mem_filterMap

/-- The numbers of a list are those at the places that its operations come from. -/
theorem Told.guardNumbers_eq (h : Told c states sent portions)
    (hplain : ∀ a ∈ sent, a.isGuard = false → a.guard? = none) :
    guardNumbers (portions.flatMap (·.ops)) =
      (portions.map (·.place)).filterMap (numberAt sent) := by
  rw [guardNumbers, List.filterMap_flatMap, List.filterMap_map, List.filterMap_eq_flatMap_toList]
  refine List.flatMap_congr fun p hp => ?_
  obtain ⟨op, hop, -, hnumber⟩ := h.written p hp
  have hforced := (h.supplied p hp).guardNumbers hplain
  show guardNumbers (p.forced ++ [p.op]) = (numberAt sent p.place).toList
  rw [guardNumbers_append, hforced, numberAt, hop, guardNumbers_cons, hnumber]
  simp

/-- The guards of a list have numbers of those that were sent, each once. -/
theorem Told.numbers (h : Told c states sent portions)
    (hplain : ∀ a ∈ sent, a.isGuard = false → a.guard? = none) :
    guardNumbers (portions.flatMap (·.ops)) ⊆ guardNumbers sent ∧
      ((guardNumbers sent).Nodup → (guardNumbers (portions.flatMap (·.ops))).Nodup) := by
  rw [h.guardNumbers_eq hplain]
  constructor
  · intro n hn
    obtain ⟨k, -, hk⟩ := List.mem_filterMap.1 hn
    obtain ⟨op, hop, hnumber⟩ := Option.bind_eq_some_iff.1 hk
    exact mem_guardNumbers.2 ⟨op, List.mem_of_getElem? hop, hnumber⟩
  · intro hnodup
    rw [guardNumbers, List.Nodup, List.pairwise_filterMap, List.pairwise_iff_getElem] at hnodup
    rw [List.Nodup, List.pairwise_filterMap]
    refine h.ordered.imp fun {k j} hlt n hn n' hn' => ?_
    obtain ⟨op, hop, hnumber⟩ := Option.bind_eq_some_iff.1 hn
    obtain ⟨op', hop', hnumber'⟩ := Option.bind_eq_some_iff.1 hn'
    obtain ⟨hk, rfl⟩ := List.getElem?_eq_some_iff.1 hop
    obtain ⟨hj, rfl⟩ := List.getElem?_eq_some_iff.1 hop'
    exact hnodup k j hk hj hlt n hnumber n' hnumber'

end Optimizer

namespace Config
open Optimizer
variable {c : Config} {t : Trace} {l : Loop}

theorem mem_boxes {t : Trace} {b : Box} (h : b ∈ t.inputs ++ results t.ops) : b ∈ t.boxes :=
  List.mem_append_left _ h

theorem drawn_of_recorded (ht : t.Recorded) : (∀ b ∈ t.boxes, b.id < t.pool.nextBox) ∧
    ∀ n ∈ guardNumbers t.ops, n < t.pool.nextGuard := by
  refine ⟨ht.boxes, fun n hn => ?_⟩
  obtain ⟨op, hop, hnumber⟩ := mem_guardNumbers.1 hn
  obtain ⟨p, hp, rfl⟩ := Option.map_eq_some_iff.1 hnumber
  exact ht.guards op hop p hp

theorem fresh_of_straight (ht : t.Recorded) (hnodup : (guardNumbers t.ops).Nodup)
    (hl : l.toTrace.Recorded) {portions : List Portion} (h : Straight c t l portions) :
    l.FreshFrom t := by
  have hentry : l.entry = l.inputs := by simp [Loop.entry, h.preamble]
  have hopening : l.opening = [] := by simp [Loop.opening, h.preamble]
  obtain ⟨honce, hused⟩ := Verify.once hl.verified
  have hresults : results l.ops ⊆ results t.ops := h.ops ▸ h.told.results
  have hnumbers := h.told.numbers fun a ha hguard => (ht.plain a ha hguard).2
  rw [← h.ops] at hnumbers
  have hassigned : l.assigned = l.inputs ++ results l.ops := by
    simp [Loop.assigned, hentry, hopening]
  have hall : ∀ b ∈ l.boxes, b ∈ t.boxes := by
    intro b hb
    have hb' : b ∈ l.inputs ++ results l.ops := by
      simp only [Loop.boxes, hentry, hopening, results_nil, List.append_nil, List.nil_append,
        List.mem_append] at hb ⊢
      rcases hb with ((hb | hb) | hb) | hb
      exacts [.inl hb, .inl hb, .inr hb, List.mem_append.1 (hused b hb)]
    rcases List.mem_append.1 hb' with hb' | hb'
    · exact mem_boxes (List.mem_append_left _ (h.inputs ▸ hb'))
    · exact mem_boxes (List.mem_append_right _ (hresults hb'))
  have hguards : l.guardNumbers = guardNumbers l.ops := by simp [Loop.guardNumbers, hopening]
  have hdrawn := drawn_of_recorded ht
  refine ⟨hassigned ▸ honce, hguards ▸ hnumbers.2 hnodup, fun b hb => ?_, fun n hn => ?_, hdrawn⟩
  · exact ⟨h.nextBox ▸ hdrawn.1 b (hall b hb), .inl (hall b hb)⟩
  · have hn' := hnumbers.1 (hguards ▸ hn)
    exact ⟨h.nextGuard ▸ hdrawn.2 n hn', .inl hn'⟩

theorem fresh_of_unrolled (ht : t.Recorded) (hnodup : (guardNumbers t.ops).Nodup)
    (hl : l.toTrace.Recorded) (hverify : l.verify = .ok ()) {p : Preamble}
    {front rear : List Portion} {casts : List Operation}
    (h : Unrolled c t l p front rear casts) : l.FreshFrom t := by
  have hentry : l.entry = t.inputs := by simp [Loop.entry, h.preamble, h.inputs]
  have hopening : l.opening = p.ops := by simp [Loop.opening, h.preamble]
  obtain ⟨honce, hused⟩ := Verify.once hl.verified
  have hverified : Verify.ops t.inputs p.ops l.token l.inputs = .ok () := by
    unfold Loop.verify at hverify
    rw [h.preamble] at hverify
    obtain ⟨_, hops, -⟩ := Verify.bind_ok.1 hverify
    exact h.inputs ▸ hops
  obtain ⟨honce', hused'⟩ := Verify.once hverified
  have hdrawn := drawn_of_recorded ht
  obtain ⟨forced, hforced, hopened⟩ := h.opened
  obtain ⟨forced', last, hforced', hjump, hclosed⟩ := h.closed
  have hsub : ∀ op ∈ t.ops.dropLast, op ∈ t.ops := fun op => List.mem_of_mem_dropLast
  have hplain : ∀ a ∈ t.ops.dropLast, a.isGuard = false → a.guard? = none :=
    fun a ha hguard => (ht.plain a (hsub a ha) hguard).2
  -- The preamble assigns boxes of the trace, and its guards have numbers of the trace.
  have hresults : results p.ops ⊆ results t.ops.dropLast := by
    rw [hopened, results_append, results_append]
    refine List.append_subset.2 ⟨List.append_subset.2 ⟨h.firstTold.results, ?_⟩, ?_⟩
    · exact hforced.results_subset
    · simp [results, Operation.jumpTo]
  have hfront : ∀ b ∈ t.inputs ++ results p.ops, b ∈ t.boxes := by
    intro b hb
    refine mem_boxes ?_
    rcases List.mem_append.1 hb with hb | hb
    · exact List.mem_append_left _ hb
    · obtain ⟨op, hop, hr⟩ := mem_results.1 (hresults hb)
      exact List.mem_append_right _ (mem_results.2 ⟨op, hsub op hop, hr⟩)
  have hinputs : ∀ b ∈ l.inputs, b ∈ t.inputs ++ results p.ops := by
    intro b hb
    refine hused' b (List.mem_flatMap.2 ⟨.jumpTo t.token (l.inputs.map .box), ?_, ?_⟩)
    · simp [hopened]
    · exact List.mem_filterMap.2 ⟨.box b, by simp [Operation.usedArgs, Operation.jumpTo, hb], rfl⟩
  have hopening' : guardNumbers p.ops = guardNumbers (front.flatMap (·.ops)) := by
    rw [hopened, guardNumbers_append, guardNumbers_append, hforced.guardNumbers hplain]
    simp [guardNumbers, Operation.jumpTo, Operation.guard?]
  obtain ⟨hnumbers, hnumbersNodup⟩ := h.firstTold.numbers hplain
  have hdropLast : (guardNumbers t.ops.dropLast).Sublist (guardNumbers t.ops) :=
    (List.dropLast_sublist _).filterMap _
  rw [← hopening'] at hnumbers hnumbersNodup
  -- The list that goes round assigns boxes with new numbers, and its guards have new numbers.
  have hlast : last.result = none ∧ last.guard? = none := by
    have hmem : last ∈ l.ops := by simp [hclosed]
    obtain ⟨defined, hfits⟩ := exists_fits_of_verify hl.verified hmem
    exact ⟨hfits.result_of_isFinal (by rw [hjump]; rfl),
      (hl.plain last hmem (Operation.isGuard_of_jump hjump)).2⟩
  have hrear : ∀ r ∈ results l.ops, t.pool.nextBox ≤ r.id := by
    intro r hr
    rw [hclosed, results_append, results_append, results_cons, hlast.1] at hr
    rcases List.mem_append.1 (by simpa using hr) with hr | hr
    · exact h.fresh r (h.secondTold.results hr)
    · exact h.fresh r (hforced'.results_subset hr)
  have hplain' : ∀ a ∈ casts, a.isGuard = false → a.guard? = none := by
    intro a ha hguard
    obtain ⟨a₀, ha₀, hm⟩ := exists_right_of_mem h.mapped.flip ha
    have hsome := hm.guarded
    rw [hplain a₀ ha₀ (by rw [Operation.isGuard, ← hm.opcode]; exact hguard)] at hsome
    exact Option.isNone_iff_eq_none.1 (Option.isSome_eq_false_iff.1 hsome)
  have hclosing : guardNumbers l.ops = guardNumbers (rear.flatMap (·.ops)) := by
    rw [hclosed, guardNumbers_append, guardNumbers_append, hforced'.guardNumbers hplain',
      guardNumbers_cons, hlast.2]
    simp
  obtain ⟨hnew, hnewNodup⟩ := h.secondTold.numbers hplain'
  rw [← hclosing] at hnew hnewNodup
  have hrange : ∀ n ∈ guardNumbers l.ops, t.pool.nextGuard ≤ n ∧ n < l.pool.nextGuard := by
    intro n hn
    have hn' := hnew hn
    rw [h.numbers, List.mem_range'_1] at hn'
    rw [h.nextGuard]
    exact hn'
  refine ⟨?_, ?_, fun b hb => ?_, fun n hn => ?_, hdrawn⟩
  · rw [Loop.assigned, hentry, hopening]
    refine List.nodup_append.2 ⟨honce', (List.nodup_append.1 honce).2.1, fun a ha r hr he => ?_⟩
    exact absurd (hrear r hr) (Nat.not_le_of_lt (he ▸ hdrawn.1 a (hfront a ha)))
  · rw [Loop.guardNumbers, hopening]
    refine List.nodup_append.2 ⟨hnumbersNodup (hdropLast.nodup hnodup), hnewNodup ?_,
      fun n hn m hm he => ?_⟩
    · rw [h.numbers]
      exact List.nodup_range'
    · have hlt := hdrawn.2 n (hdropLast.subset (hnumbers hn))
      exact absurd (hrange m hm).1 (Nat.not_le_of_lt (he ▸ hlt))
  · have hb' : b ∈ t.inputs ++ results p.ops ∨ b ∈ results l.ops := by
      rw [Loop.boxes, hentry, hopening, List.flatMap_append] at hb
      simp only [List.mem_append] at hb hused hused' hinputs ⊢
      rcases hb with (((hb | hb) | hb) | hb) | hb | hb
      · exact .inl (.inl hb)
      · exact .inl (hinputs b hb)
      · exact .inl (.inr hb)
      · exact .inr hb
      · exact .inl (hused' b hb)
      · exact (hused b hb).imp_left (hinputs b)
    rcases hb' with hb' | hb'
    · have hold := hfront b hb'
      exact ⟨Nat.lt_of_lt_of_le (hdrawn.1 b hold) h.nextBox, .inl hold⟩
    · exact ⟨hl.boxes b (mem_boxes (List.mem_append_right _ hb')), .inr (hrear b hb')⟩
  · rw [Loop.guardNumbers, hopening, List.mem_append] at hn
    rcases hn with hn | hn
    · have hold := hdropLast.subset (hnumbers hn)
      refine ⟨Nat.lt_of_lt_of_le (hdrawn.2 n hold) ?_, .inl hold⟩
      rw [h.nextGuard]
      exact Nat.le_add_right _ _
    · exact ⟨(hrange n hn).2, .inr (hrange n hn).1⟩

/-- One round makes a loop that assigns each box once. -/
theorem fresh_of_ok (ht : t.Recorded) (hnodup : (guardNumbers t.ops).Nodup)
    (h : c.optimizeLoop t = .ok l) : l.FreshFrom t := by
  have hl := (rounds_recorded ht (.again .start h)).1
  rcases exists_told ht.drawn h with ⟨list, hlist⟩ | ⟨p, front, rear, casts, hlists⟩
  · exact fresh_of_straight ht hnodup hl hlist
  · exact fresh_of_unrolled ht hnodup hl ((optimizeLoop_verifies c ht).1 l h) hlists

/-- However many rounds were made, the next one assigns each box once and numbers each guard
once, and all that it makes is new. -/
theorem rounds_fresh (ht : t.Recorded) (hnodup : (guardNumbers t.ops).Nodup) {t' : Trace}
    (hrounds : Rounds t t') (h : c.optimizeLoop t' = .ok l) : l.FreshFrom t' := by
  have hall : t'.Recorded ∧ (guardNumbers t'.ops).Nodup := by
    clear h
    refine ⟨(rounds_recorded ht hrounds).1, ?_⟩
    induction hrounds with
    | start => exact hnodup
    | again hbefore hok ih =>
      have hfresh := fresh_of_ok (rounds_recorded ht hbefore).1 ih hok
      exact (List.nodup_append.1 hfresh.guards).2.1
  exact fresh_of_ok hall.1 hall.2 h

/-- A second round over a list that allocates, calls and guards. -/
theorem handing_fresh : ∃ t' l, Rounds handing t' ∧ optimizeLoop {} t' = .ok l ∧
    l.isPeeled = true ∧ handing.pool.nextBox < t'.pool.nextBox ∧ l.FreshFrom t' := by
  obtain ⟨l₁, hl₁, hshape⟩ : ∃ l, optimizeLoop {} handing = .ok l ∧
      (decide (handing.pool.nextBox < l.pool.nextBox) &&
        (optimizeLoop {} l.toTrace).toOption.any (·.isPeeled)) = true :=
    exists_ok_of_any (by decide +kernel)
  obtain ⟨hbox, hagain⟩ := Bool.and_eq_true_iff.1 hshape
  obtain ⟨l, hl, hpeeled⟩ := exists_ok_of_any hagain
  have hrounds : Rounds handing l₁.toTrace := .again .start hl₁
  exact ⟨l₁.toTrace, l, hrounds, hl, hpeeled, of_decide_eq_true hbox,
    rounds_fresh (by decide) (by decide) hrounds hl⟩

end Config
end TracePeel
