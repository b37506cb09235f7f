import TracePeel.Optimize.Peel
import TracePeel.Proofs.Growing

/-! From the preamble into the loop.

What the jump hands over is forced while the preamble can still compute it. Then all
that the preamble made available is met and marked, and the list that goes round
begins with the boxes that the jump hands over. -/
namespace TracePeel

namespace Peel

/-- The boxes, each at its first place. -/
theorem distinctBoxes_eq (args : List Operand) :
    distinctBoxes args = (args.filterMap Operand.box?).eraseDups := by
  unfold distinctBoxes
  generalize args.filterMap Operand.box? = bs
  induction bs using List.reverseRecOn with
  | nil => rfl
  | append_singleton bs b ih =>
    rw [List.foldl_append, ih, List.eraseDups_append]
    by_cases hb : b ∈ bs
    · simp [hb, List.removeAll]
    · simp [hb, List.removeAll, List.eraseDups_cons]

theorem nodup_distinctBoxes (args : List Operand) : (distinctBoxes args).Nodup := by
  rw [distinctBoxes_eq]
  generalize args.filterMap Operand.box? = bs
  induction bs using List.reverseRecOn with
  | nil => exact .nil
  | append_singleton bs b ih =>
    rw [List.eraseDups_append]
    by_cases hb : b ∈ bs
    · simpa [hb, List.removeAll] using ih
    · rw [List.nodup_append]
      refine ⟨ih, by simp [hb, List.removeAll, List.eraseDups_cons], ?_⟩
      rintro x hx y hy rfl
      simp only [List.mem_eraseDups] at hx hy
      simp_all [List.removeAll]

theorem mem_distinctBoxes {args : List Operand} {b : Box} :
    b ∈ distinctBoxes args ↔ .box b ∈ args := by
  rw [distinctBoxes_eq, List.mem_eraseDups, List.mem_filterMap]
  constructor
  · rintro ⟨a, ha, hb⟩
    cases a <;> cases hb
    exact ha
  · exact fun h => ⟨_, h, rfl⟩

end Peel

namespace Optimizer
open Peel

/-- Peeling stands first, out of its place, and keeps these notes. -/
def At (rest : List Stage) (n : Peeling) (o : Optimizer) : Prop :=
  o.chain = (⟨none, n⟩ :: rest).toArray

section
variable {rest : List Stage} {n : Peeling} {o : Optimizer}

theorem At.eq_self (h : At rest n o) :
    {o with chain := (⟨none, n⟩ :: rest).toArray} = o := by
  rw [← show o.chain = _ from h]

theorem yields_notes (h : At rest n o) {Q : Peeling → Optimizer → Prop} :
    Yields (notes 0) o Q ↔ Q n o := by
  show Q ((o.chain[0]?.map (·.peeling)).getD {}) o ↔ _
  rw [h]
  rfl

theorem yields_modifyNotes (h : At rest n o) {f : Peeling → Peeling}
    {Q : PUnit → Optimizer → Prop} :
    Yields (modifyNotes 0 f) o Q ↔ Q ⟨⟩ {o with chain := (⟨none, f n⟩ :: rest).toArray} := by
  show Q ⟨⟩ {o with chain := o.chain.modify 0 fun s => {s with peeling := f s.peeling}} ↔ _
  rw [h]
  rfl

/-- Behind peeling the passes stand in their places. -/
theorem At.behind (h : At rest n o) {ps : List Pass} (hrest : rest.map (·.pass) = ps.map some) :
    o.chain.toList.map (·.pass) = [none] ++ ps.map some := by
  rw [show o.chain = _ from h]
  simp [hrest]

theorem At.notes_run (h : At rest n o) : (notes 0).run o = (n, o) := by
  rw [run_eq_iff, yields_notes h]
  exact ⟨rfl, rfl⟩

theorem At.modifyNotes_run (h : At rest n o) (f : Peeling → Peeling) :
    (modifyNotes 0 f).run o = ((), {o with chain := (⟨none, f n⟩ :: rest).toArray}) := by
  rw [run_eq_iff, yields_modifyNotes h]
  exact ⟨rfl, rfl⟩

end

variable {T : FrameTable} {base defined : List Box}

/-! ### The end of the preamble -/

/-- The preamble was ended behind what was forced for the jump. -/
structure Captured (T : FrameTable) (base defined : List Box) (args : List Operand)
    (o o₁ : Optimizer) : Prop where
  grown : Grown o o₁
  working : Working T base [] defined o₁
  emitted : ∀ a ∈ args, ∃ k, o₁.values.EmittedAs a k

/-- Whatever number bounds those of the guards, the list is ended behind what was forced. -/
theorem capture_built {n : Nat} {o : Optimizer} {args : List Operand}
    (hargs : ∀ b, .box b ∈ args → b ∈ defined)
    (h : Built n T base [] defined o.values o.out.toList) :
    Yields (capture args) o fun preamble o' => ∃ o₁ events,
      Built n T base [] defined o₁.values o₁.out.toList ∧ Grown o o₁ ∧
      (∀ a ∈ args, ∃ k, o₁.values.EmittedAs a k) ∧ preamble = o₁.out.toList ∧
      o' = {o₁ with out := #[], sink := .keeping, mayRaise := false, events} := by
  unfold capture
  rw [yields_bind, yields_discard]
  refine (forceAll_yields hargs h).mono fun ks o₁ ⟨hb, hg, hks⟩ => ?_
  refine ⟨o₁, _, hb, hg, fun a ha => ?_, rfl, rfl⟩
  obtain ⟨k, _, hk⟩ := exists_right_of_mem hks ha
  exact ⟨k, hk.emitted⟩

theorem capture_yields {o : Optimizer} (hw : Working T base [] defined o) {args : List Operand}
    (hargs : ∀ b, .box b ∈ args → b ∈ defined) :
    Yields (capture args) o fun preamble o' => ∃ o₁ events, Captured T base defined args o o₁ ∧
      preamble = o₁.out.toList ∧
      o' = {o₁ with out := #[], sink := .keeping, mayRaise := false, events} :=
  (capture_built hargs hw.built).mono fun _ _ ⟨o₁, events, hb, hg, hks, hpreamble, ho'⟩ =>
    ⟨o₁, events, ⟨hg, hg.working hw hb, hks⟩, hpreamble, ho'⟩

/-! ### The beginning of the loop -/

theorem meetAll_yields (bs : List Box) (o : Optimizer) :
    Yields (bs.forM fun b => discard (valueOf (.box b))) o fun _ o' =>
      Met (bs.map .box) o o' ∧ ∀ b ∈ bs, ∃ id, o'.values.index.get? (.box b) = some id := by
  induction bs generalizing o with
  | nil => exact ⟨.refl, nofun⟩
  | cons b bs ih =>
    show Yields (discard (valueOf (.box b)) >>= fun _ => bs.forM _) o _
    rw [yields_bind, yields_discard, yields_valueOf]
    refine (ih (o.met (.box b))).mono fun _ o' ⟨hmet, hmem⟩ => ⟨?_, fun c hc => ?_⟩
    · exact (Met.one (List.mem_cons_self ..)).trans (hmet.mono (List.subset_cons_self ..))
    · rcases List.mem_cons.1 hc with rfl | hc
      · exact ⟨_, hmet.index_of_some (o.index_met _)⟩
      · exact hmem c hc

/-- The second way begins: the boxes `base` are available and marked, and the inputs are in
the next iteration what the jump hands over. -/
structure Entered (T : FrameTable) (base defined inputs : List Box) (args : List Operand)
    (rest : List Stage) (n : Peeling) (o : Optimizer) (loopInputs : List Box)
    (o' : Optimizer) : Prop where
  working : Working T base base defined o'
  same : ∃ events, o' = {o with
    values := o'.values
    chain := (⟨none, {n with next := .ofList (inputs.zip args), relinker := .copying}⟩ ::
      rest).toArray
    events}
  marked : ∃ chain o₁, Met (base.map .box) {o with chain} o₁ ∧
    o'.values = o₁.values.markFromStart
  nodup : loopInputs.Nodup
  subset : loopInputs ⊆ base

theorem emittedAs_markFromStart {v : Values} (hr : v.InRange) {a k : Operand}
    (h : v.EmittedAs a k) : v.markFromStart.EmittedAs a k := by
  obtain ⟨id, hid, hv, hk⟩ := h
  have hslot := Values.Consistent.slot_markFromStart v id (hr a id hid)
  exact ⟨id, hid, by rw [hslot]; exact hv, by rw [hslot]; exact hk⟩

/-- A value that is emitted as it stands is forced already. -/
theorem forceValue_run {o : Optimizer} {a k : Operand} (h : o.values.EmittedAs a k) :
    (do force (← valueOf a) : Step Operand).run o = (k, o) := by
  obtain ⟨id, hid, hv, rfl⟩ := h
  have hmet : o.met a = o := by simp [met, Values.valueOf_known hid]
  have hidOf : o.idOf a = id := by simp [idOf, Values.valueOf_known hid]
  have hnone : (o.values.slot id).virtual = none := by simpa [Slot.isVirtual] using hv
  rw [run_eq_iff, yields_bind, yields_valueOf, hmet, hidOf]
  simp only [force, yields_modifyGet, Values.force_of_real hnone, and_self]

theorem Met.consistent {as : List Operand} {o o' : Optimizer} (h : Met as o o')
    {available start : List Box} (ha : ∀ b, .box b ∈ as → b ∈ defined)
    (hc : o.values.Consistent defined available start) :
    o'.values.Consistent defined available start := by
  induction h with
  | refl => exact hc
  | more _ hmem ih => exact ih.valueOf fun b hb => ha b (hb ▸ hmem)

theorem Met.later {as : List Operand} {o o' : Optimizer} (h : Met as o o') :
    o.values.Later o'.values := by
  induction h with
  | refl => exact .refl _
  | more _ _ ih => exact ih.trans (Values.later_valueOf ..)

/-- What the preamble made available is met and marked. -/
theorem markFromStart_yields {o : Optimizer} {inputs : List Box} {preamble : List Operation}
    (hbase : base = inputs ++ results preamble) (htable : o.values.Consistent defined base []) :
    Yields (Peel.markFromStart inputs preamble) o fun _ o' => ∃ o₁, Met (base.map .box) o o₁ ∧
      o' = {o₁ with values := o₁.values.markFromStart} ∧ o₁.values.InRange ∧
      o₁.values.markFromStart.Consistent defined base base := by
  unfold Peel.markFromStart
  rw [yields_bind, show inputs ++ preamble.filterMap (·.result) = base from hbase.symm]
  refine (meetAll_yields base o).mono fun _ o₁ ⟨hmet, hall⟩ => ?_
  rw [yields_bind, yields_modifyValues, yields_bind, yields_get, yields_pure]
  have hdefined : ∀ b, .box b ∈ base.map Operand.box → b ∈ defined := by
    intro b hb
    obtain ⟨c, hc, hcb⟩ := List.mem_map.1 hb
    cases hcb
    exact htable.subset hc
  have htable₁ := hmet.consistent hdefined htable
  exact ⟨o₁, hmet, rfl, htable₁.inRange, htable₁.markFromStart hall⟩

theorem enter_ends {E : OptError → Prop} {o : Optimizer} {rest : List Stage} {n : Peeling}
    (hat : At rest n o) {inputs : List Box} {args : List Operand} {preamble : List Operation}
    (hbase : base = inputs ++ results preamble)
    (htable : o.values.Consistent defined base [])
    (hknown : ∀ key id, o.known.get? key = some id →
      id < o.values.slots.size ∧ (o.values.slot id).operand.kind = key.kind)
    (hids : ∀ b ∈ defined, b.id < o.pool.nextBox) (hbelow : T.Below o.pool.nextFrame)
    (hout : o.out = #[]) (hsink : o.sink = .keeping) (hlen : inputs.length = args.length)
    (hargs : ∀ a ∈ args, ∃ k, o.values.EmittedAs a k) :
    Ends E (enter 0 inputs args preamble) o fun loopInputs o' =>
      Entered T base defined inputs args rest n o loopInputs o' ∧
        ∃ ks, List.Forall₂ o'.values.EmittedAs args ks ∧ loopInputs = distinctBoxes ks := by
  unfold enter
  rw [if_neg (not_not.2 hlen)]
  show Ends E (modifyNotes 0 _ >>= _) o _
  rw [ends_bind, ends_lift, yields_modifyNotes hat]
  set o₀ : Optimizer := {o with chain :=
    (⟨none, {n with next := .ofList (inputs.zip args), relinker := .copying}⟩ ::
      rest).toArray} with ho₀
  rw [ends_bind, ends_lift]
  refine (markFromStart_yields (o := o₀) hbase htable).mono ?_
  rintro _ _ ⟨o₁, hmet, rfl, hrange, hmarked⟩
  have hlater : o.values.Later o₁.values := hmet.later
  obtain ⟨ks, hgiven⟩ := exists_forall₂ hargs
  have hks : List.Forall₂ o₁.values.markFromStart.EmittedAs args ks := hgiven.imp fun _ _ hk =>
    emittedAs_markFromStart hrange (hmet.emittedAs htable.inRange hk)
  rw [ends_bind, ends_lift, Peel.forceAll, yields_of_run (run_mapM (hks.imp fun a k hk =>
    forceValue_run (o := {o₁ with values := o₁.values.markFromStart}) hk))]
  have hsize : o₁.values.markFromStart.slots.size = o₁.values.slots.size := by
    simp [Values.markFromStart]
  have heq := hmet.eq_values
  have hnil : o₁.out = #[] := by rw [heq]; exact hout
  have hbuilt : Built o₁.pool.nextGuard T base base defined o₁.values.markFromStart
      o₁.out.toList := by
    rw [hnil]
    exact ⟨by simpa using hmarked, trivial, List.forall_mem_nil _, List.forall_mem_nil _⟩
  refine ⟨⟨⟨hbuilt, fun key id hid => ?_, ?_, ?_⟩, ⟨_, by rw [heq]⟩, ⟨o₀.chain, o₁, hmet, rfl⟩,
    Peel.nodup_distinctBoxes _, fun b hb => ?_⟩, ks, hks, rfl⟩
  · have hid' : o.known.get? key = some id := by
      rw [heq] at hid
      exact hid
    obtain ⟨hlt, hkind⟩ := hknown key id hid'
    have hlt₁ := Nat.lt_of_lt_of_le hlt hlater.size
    refine ⟨by rwa [← hsize] at hlt₁, ?_⟩
    show (o₁.values.markFromStart.slot id).operand.kind = _
    rw [Values.Consistent.slot_markFromStart _ _ hlt₁, ← hkind]
    exact hlater.kind id hlt
  · rw [heq]
    exact hids
  · rw [heq]
    show Relinker.Sound _ T ⟨o.sink, o.pool.nextFrame⟩
    rw [hsink]
    exact .empty hbelow true
  · obtain ⟨a, _, id, hid, hv, hk⟩ := exists_right_of_mem hks.flip (Peel.mem_distinctBoxes.1 hb)
    have hlt := hmarked.inRange a id hid
    exact (hmarked.slots id hlt).real b (by simpa [Slot.isVirtual] using hv) hk

end Optimizer
end TracePeel
