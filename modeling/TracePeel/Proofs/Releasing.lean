import TracePeel.Proofs.Growing
import TracePeel.Proofs.Running

/-! What forcing one object after the other writes.

Between the state in which an operation is sent and the one in which it is written, operands
are met and objects forced in whatever order. A value that is met is no object, and forcing
looks at objects only (`Performs.widens`), so all that was written on the way comes of forcing
objects of the first state one after the other: `Releases` says so, of `Grown` and of `Written`.
Without allocation removal nothing is held back (`Unheld`), and then nothing is forced. -/
namespace TracePeel

namespace Values

/-- Values are forced one after the other. -/
def forceEach (ids : List ValueId) (s : Values × Array Operation) : Values × Array Operation :=
  ids.foldl (fun s id => (s.1.force id s.2).2) s

theorem forceEach_append (ids ids' : List ValueId) (s : Values × Array Operation) :
    forceEach (ids ++ ids') s = forceEach ids' (forceEach ids s) :=
  List.foldl_append

theorem forceEach_forced (ids : List ValueId) (s : Values × Array Operation) :
    s.1.Forced (forceEach ids s).1 := by
  induction ids generalizing s with
  | nil => exact .refl _
  | cons id ids ih => exact (s.1.force_performs id s.2).forced.trans (ih _)

/-! ### In a table with more slots -/

/-- The fields that are to be written hold values that exist. -/
def Task.InRange (n : Nat) : Task → Prop
  | .value _ => True
  | .fields _ entries => ∀ name id, (name, id) ∈ entries → id < n

section
variable {v v' : Values}

/-- A task is done alike where the table has more slots and another list is written. -/
theorem Performs.widens {t : Task} {s s' : Values × Array Operation} (h : Performs t s s')
    (hi : s.1.Intact) (ht : t.InRange s.1.slots.size) (hw : s.1.Widens v) (out : Array Operation) :
    ∃ ops v', s'.2 = s.2 ++ ops ∧ s'.1.Widens v' ∧ Performs t (v, out) (v', out ++ ops) := by
  induction h generalizing v out with
  | real hnone =>
    refine ⟨#[], v, by simp, hw, ?_⟩
    rw [Array.append_empty]
    exact .real ((hw.virtual _).trans hnone)
  | @object id v₀ out₀ object s hobject _ ih =>
    have hslot := hw.slot id (lt_of_virtual hobject)
    obtain ⟨ops, v', hout, hw', hp⟩ := ih
      (hi.forced (.materialize v₀ id))
      (fun name value hmem => by
        rw [(Forced.materialize v₀ id).size]
        exact (hi.held id object hobject).2 name value hmem)
      (hw.materialize id) (out.push object.allocation)
    have hobject' : (v.slot id).virtual = some object := by
      rw [hslot]
      exact hobject
    refine ⟨#[object.allocation] ++ ops, v', ?_, hw', .object hobject' ?_⟩
    · rw [hout, Array.push_eq_append, Array.append_assoc]
    · rw [hslot, ← Array.append_assoc, ← Array.push_eq_append]
      exact hp
  | written =>
    refine ⟨#[], v, by simp, hw, ?_⟩
    rw [Array.append_empty]
    exact .written
  | @field object name value rest s s' v₁ out₁ hvalue _ ih₁ ih₂ =>
    obtain ⟨ops₁, w₁, hout₁, hw₁, hp₁⟩ := ih₁ hi trivial hw out
    have hsize : v₁.slots.size = s.1.slots.size := hvalue.forced.size
    have hslot := hw₁.slot value (hsize ▸ ht name value (List.mem_cons_self ..))
    obtain ⟨ops₂, w₂, hout₂, hw₂, hp₂⟩ := ih₂ (hi.forced hvalue.forced)
      (fun name' id hmem => hsize ▸ ht name' id (.tail _ hmem)) hw₁
      ((out ++ ops₁).push (.setField object name (v₁.slot value).operand))
    refine ⟨ops₁ ++ #[.setField object name (v₁.slot value).operand] ++ ops₂, w₂, ?_, hw₂,
      .field hp₁ ?_⟩
    · rw [hout₂, show out₁ = _ from hout₁]
      simp only [Array.push_eq_append, Array.append_assoc]
    · rw [hslot]
      simpa only [Array.push_eq_append, Array.append_assoc] using hp₂

theorem Widens.force (h : v.Widens v') (hi : v.Intact) (out out' : Array Operation) (id : ValueId) :
    ∃ ops, (v.force id out).2.2 = out ++ ops ∧ (v'.force id out').2.2 = out' ++ ops ∧
      (v.force id out).2.1.Widens (v'.force id out').2.1 := by
  obtain ⟨ops, v₁, hout, hw, hp⟩ := (v.force_performs id out).widens hi trivial h out'
  have he := (v'.force_performs id out').unique hp
  exact ⟨ops, hout, by rw [he], by rw [he]; exact hw⟩

/-- The same values are forced alike where the table has more slots. -/
theorem Widens.forceEach (h : v.Widens v') (hi : v.Intact) (out out' : Array Operation)
    (ids : List ValueId) :
    ∃ ops, (forceEach ids (v, out)).2 = out ++ ops ∧ (forceEach ids (v', out')).2 = out' ++ ops ∧
      (Values.forceEach ids (v, out)).1.Widens (Values.forceEach ids (v', out')).1 := by
  induction ids generalizing v v' out out' with
  | nil => exact ⟨#[], by simp [Values.forceEach], by simp [Values.forceEach], h⟩
  | cons id ids ih =>
    obtain ⟨ops₁, hout, hout', hw⟩ := h.force hi out out' id
    obtain ⟨ops₂, hrest, hrest', hw'⟩ := ih hw (hi.forced (v.force_performs id out).forced)
      (v.force id out).2.2 (v'.force id out').2.2
    refine ⟨ops₁ ++ ops₂, ?_, ?_, hw'⟩
    · rw [← Array.append_assoc, ← hout]
      exact hrest
    · rw [← Array.append_assoc, ← hout']
      exact hrest'

/-- What was an object at last was one before some values were met and others forced. -/
theorem Widens.isVirtual {ids : List ValueId} {s : Values × Array Operation} {id : ValueId}
    (h : (Values.forceEach ids s).1.Widens v) (hv : (v.slot id).isVirtual = true) :
    (s.1.slot id).isVirtual = true := by
  rw [← mem_held]
  refine (forceEach_forced ids s).held_subset (mem_held.2 ?_)
  rw [Slot.isVirtual, ← h.virtual id]
  exact hv

end

/-! ### Where nothing is held back -/

/-- No allocation is held back. -/
def Unheld (v : Values) : Prop :=
  ∀ id, (v.slot id).virtual = none

namespace Unheld
variable {v v' : Values}

theorem not_isVirtual (h : v.Unheld) (id : ValueId) : (v.slot id).isVirtual = false := by
  simp [Slot.isVirtual, h id]

theorem valueOf (h : v.Unheld) (a : Operand) : (v.valueOf a).2.Unheld :=
  fun id => ((Widens.valueOf v a).virtual id).trans (h id)

theorem forced (h : v.Unheld) (hf : v.Forced v') : v'.Unheld :=
  fun id => hf.virtual_eq_none (h id)

theorem modifySlot (h : v.Unheld) (id : ValueId) {f : Slot → Slot}
    (hf : ∀ s, s.virtual = none → (f s).virtual = none) : (v.modifySlot id f).Unheld := by
  intro j
  rw [Values.slot_modifySlot]
  split
  next he => exact he.1 ▸ hf _ (h id)
  next => exact h j

theorem makeConstant (h : v.Unheld) (id : ValueId) (c : Const) : (v.makeConstant id c).Unheld :=
  h.modifySlot id fun _ _ => rfl

theorem makeNonNull (h : v.Unheld) (id : ValueId) : (v.makeNonNull id).Unheld := by
  refine h.modifySlot id fun s hs => ?_
  split
  · exact hs
  · exact hs

theorem setClass (h : v.Unheld) (id : ValueId) (c : Const) : (v.setClass id c).Unheld :=
  h.modifySlot id fun _ hs => hs

theorem markFromStart (h : v.Unheld) : v.markFromStart.Unheld := by
  intro id
  by_cases hlt : id < v.slots.size
  · rw [Consistent.slot_markFromStart v id hlt]
    exact h id
  · rw [Values.slot_of_not_lt (by simpa [Values.markFromStart] using hlt)]
    rfl

end Unheld
end Values

theorem Rewrite.Teaches.unheld {op : Operation} {arg : Operand} {s : Slot} {id : ValueId}
    {f : Values → Values} (h : Rewrite.Teaches op arg s id f) {v : Values} (hv : v.Unheld) :
    (f v).Unheld := by
  cases h with
  | truth | value | null => exact hv.makeConstant _ _
  | nothing => exact hv
  | nonNull => exact hv.makeNonNull _
  | ofClass => exact Values.Unheld.makeNonNull (hv.setClass _ _) _

namespace Optimizer
variable {op : Operation} {o o₁ o₂ o' : Optimizer}

theorem Met.grown {as : List Operand} (h : Met as o o') : Grown o o' := by
  induction h with
  | refl => exact .refl
  | more _ _ ih => exact ih.met _

theorem Forces.grown (h : Forces o o') : Grown o o' := by
  obtain ⟨ids, rfl⟩ := h.steps
  have hfold : ∀ (ids : List ValueId) (o₁ : Optimizer), Grown o o₁ →
      Grown o (ids.foldl forcing o₁) := by
    intro ids
    induction ids with
    | nil => exact fun _ => id
    | cons id ids ih => exact fun o₁ h => ih _ (h.forced id)
  exact hfold ids o .refl

theorem forcing_of_unheld (h : o.values.Unheld) (id : ValueId) : o.forcing id = o := by
  rw [forcing, Values.force_of_real (h id)]

theorem Grown.unheld (h : Grown o o') (hu : o.values.Unheld) : o'.values.Unheld := by
  induction h with
  | refl => exact hu
  | met a _ ih => exact ih.valueOf a
  | forced id _ ih => exact ih.forced (values_forcing _ id)
  | told _ _ ih => exact ih

/-- Sending an operation holds no allocation back. -/
def Unholding (send : Operation → Optimizer → Optimizer → Prop) : Prop :=
  ∀ op o o', o.Intact → o.values.Unheld → send op o o' → o'.values.Unheld

theorem unholding_placed {send : Operation → Optimizer → Optimizer → Prop} (h : Unholding send) :
    Unholding (Placed send) := by
  rintro op o _ hi hu ⟨chain, cursor, o₂, hs, rfl⟩
  exact h op {o with chain, cursor} o₂ ⟨hi.values, hi.known⟩ hu hs

theorem unholding_emit : Unholding fun op o o' => o' = ((emit op).run o).2 := by
  rintro op o _ hi hu rfl
  obtain ⟨o₁, _, hf, he⟩ := emit_forces hi op
  rw [he]
  exact hu.forced hf.values

theorem unholding_rewritten {send : Operation → Optimizer → Optimizer → Prop}
    (h : Unholding send) : Unholding (Rewrite.Rewritten send) := by
  intro op o o' hi hu hs
  cases hs with
  | passed hmet _ hs => exact h op _ _ (hi.of_met hmet) (hmet.grown.unheld hu) hs
  | dropped => exact hu.valueOf _
  | kept _ ht hs => exact ht.unheld (h op _ _ (hi.met _) (hu.valueOf _) hs)
  | unraised => exact hu
  | checked _ _ hs =>
    have hu' := h op _ _ hi hu hs
    exact hu'
  | called _ hs => exact h op {o with mayRaise := true} _ ⟨hi.values, hi.known⟩ hu hs
  | aliased => exact hu.valueOf _
  | folded _ _ _ hmet => exact ((hmet.grown.unheld hu).valueOf _).makeConstant _ _
  | reused _ _ _ hmet =>
    have hu' := hmet.grown.unheld hu
    exact hu'
  | computed _ _ _ hmet _ _ _ hs =>
    exact h op _ _ ((hi.of_met hmet).remember _ _) ((hmet.grown.unheld hu).valueOf _) hs

theorem unholding_list : Unholding (Handled []) :=
  unholding_placed unholding_emit

theorem unholding_rewrite : Unholding (Handled [.rewrite]) :=
  unholding_placed (unholding_rewritten unholding_list)

/-- Without allocation removal no allocation comes to be held back. -/
theorem Handled.unheld {c : Config} (h : Handled c.behind op o o') (hc : c.virtualize = false)
    (hi : o.Intact) (hu : o.values.Unheld) : o'.values.Unheld := by
  revert h
  unfold Config.behind
  rw [hc]
  cases c.rewrite
  · exact unholding_list op o o' hi hu
  · exact unholding_rewrite op o o' hi hu

theorem unheld_begin (c : Config) (t : Trace) : (c.begin t).values.Unheld := by
  intro id
  rw [Values.slot_of_not_lt (Nat.not_lt_zero id)]
  rfl

/-! ### From one state to a later one -/

/-- All that was written since a state comes of forcing objects of that state, one after the
other. Besides, values that are no objects were met. -/
structure Releases (o : Optimizer) (ids : List ValueId) (o' : Optimizer) : Prop where
  held : ∀ id ∈ ids, (o.values.slot id).isVirtual = true
  out : o'.out.toList = o.out.toList ++ (Values.forceEach ids (o.values, #[])).2.toList
  table : (Values.forceEach ids (o.values, #[])).1.Widens o'.values

namespace Releases
variable {ids ids' : List ValueId}

theorem refl (o : Optimizer) : Releases o [] o :=
  ⟨List.forall_mem_nil _, by simp [Values.forceEach], .refl _⟩

/-- The list is as long as before, and values were met. -/
theorem widens (h : Releases o ids o₁) (hout : o₂.out = o₁.out)
    (hvalues : o₁.values.Widens o₂.values) : Releases o ids o₂ :=
  ⟨h.held, hout ▸ h.out, h.table.trans hvalues⟩

theorem trans (h₁ : Releases o ids o₁) (h₂ : Releases o₁ ids' o₂) (hi : o.Intact) :
    Releases o (ids ++ ids') o₂ := by
  obtain ⟨ops, hout, hout', hw⟩ := h₁.table.forceEach
    (hi.values.forced (Values.forceEach_forced ids (o.values, #[])))
    (Values.forceEach ids (o.values, #[])).2 #[] ids'
  have hboth : (Values.forceEach (ids ++ ids') (o.values, #[])).2 =
      (Values.forceEach ids (o.values, #[])).2 ++ ops := by
    rw [Values.forceEach_append]
    exact hout
  refine ⟨fun id hid => ?_, ?_, ?_⟩
  · rcases List.mem_append.1 hid with hid | hid
    · exact h₁.held id hid
    · exact h₁.table.isVirtual (h₂.held id hid)
  · rw [h₂.out, h₁.out, hout', hboth, Array.empty_append, Array.toList_append, List.append_assoc]
  · rw [Values.forceEach_append]
    exact hw.trans h₂.table

/-- A value is forced, whether it is an object or not. -/
theorem exists_forcing (hi : o.Intact) (id : ValueId) :
    ∃ ids, Releases o ids (o.forcing id) := by
  cases hv : (o.values.slot id).virtual with
  | none =>
    have hsame : o.forcing id = o := by rw [forcing, Values.force_of_real hv]
    exact ⟨[], by rw [hsame]; exact .refl o⟩
  | some object =>
    obtain ⟨ops, hout, hout', hw⟩ := 
      (Values.Widens.refl o.values).force hi.values #[] o.out id
    refine ⟨[id], fun j hj => ?_, ?_, hw⟩
    · rw [List.mem_singleton.1 hj]
      exact Values.isVirtual_of_eq hv
    · show (o.values.force id o.out).2.2.toList = _ ++ (o.values.force id #[]).2.2.toList
      rw [hout, hout', Array.empty_append, Array.toList_append]

/-- Without objects that are held back nothing was written. -/
theorem idle (h : Releases o ids o') (hu : o.values.Unheld) : o'.out.toList = o.out.toList := by
  have hnone : ids = [] := by
    refine List.eq_nil_iff_forall_not_mem.2 fun id hid => ?_
    have hv := h.held id hid
    rw [hu.not_isVirtual id] at hv
    cases hv
  rw [h.out, hnone]
  simp [Values.forceEach]

end Releases

/-- What jumps hand over is forced, and so is what else is asked for. -/
theorem Grown.releases (h : Grown o o') (hi : o.Intact) : ∃ ids, Releases o ids o' := by
  induction h with
  | refl => exact ⟨[], .refl o⟩
  | met a _ ih =>
    obtain ⟨ids, hr⟩ := ih
    exact ⟨ids, hr.widens rfl (.valueOf _ a)⟩
  | forced id hg ih =>
    obtain ⟨ids, hr⟩ := ih
    obtain ⟨ids', hr'⟩ := Releases.exists_forcing (hg.intact hi) id
    exact ⟨ids ++ ids', hr.trans hr' hi⟩
  | told _ _ ih =>
    obtain ⟨ids, hr⟩ := ih
    exact ⟨ids, hr.widens rfl (.refl _)⟩

/-- Behind what was forced for it, an operation is written as the state writes it in which it
was sent. -/
theorem Written.releases (h : Written op o o') (hi : o.Intact) : SameList o o' ∨ ∃ ids o₁,
    Releases o ids o₁ ∧ o'.out = o₁.out.push (o.writes op) ∧
      (op.isGuard = false → o'.values = o₁.values) := by
  refine h.imp_right ?_
  rintro ⟨o₁, hp, hl, hvalues⟩
  obtain ⟨o₂, _, hf, he⟩ := emit_forces hp.intact op
  obtain ⟨ids, hr⟩ := hf.grown.releases hp.intact
  have hprepared : Releases o [] o₁ := (Releases.refl o).widens hp.list.out hp.table
  refine ⟨[] ++ ids, o₂, hprepared.trans hr hi, ?_, fun hop => ?_⟩
  · rw [hl.out, he, hp.writes_eq op]
  · rw [hvalues hop, he]

end Optimizer
end TracePeel
