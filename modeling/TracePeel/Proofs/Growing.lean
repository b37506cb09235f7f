import TracePeel.Proofs.Intact
import TracePeel.Proofs.Keeping

/-! Meeting and forcing operands between operations.

What a jump hands over is met and forced without being part of an operation that is
written. `Grown` is a state reached that way, and `Delivers` says of an operand that
it was met, is no virtual object, and what it is emitted as. -/
namespace TracePeel.Optimizer

/-- A state reached by meeting operands and forcing values. -/
inductive Grown (o : Optimizer) : Optimizer → Prop
  | refl : Grown o o
  | met {o' : Optimizer} (a : Operand) : Grown o o' → Grown o (o'.met a)
  | forced {o' : Optimizer} (id : ValueId) : Grown o o' → Grown o (o'.forcing id)
  | told {o' : Optimizer} (events : Array Event) : Grown o o' → Grown o {o' with events}

theorem values_forcing (o : Optimizer) (id : ValueId) :
    o.values.Forced (o.forcing id).values :=
  (o.values.force_performs id o.out).forced

namespace Grown
variable {o o₁ o₂ : Optimizer}

theorem trans (h₁ : Grown o o₁) (h₂ : Grown o₁ o₂) : Grown o o₂ := by
  induction h₂ with
  | refl => exact h₁
  | met a _ ih => exact ih.met a
  | forced id _ ih => exact ih.forced id
  | told events _ ih => exact ih.told events

/-- Growing changes the table and the list only. -/
theorem same (h : Grown o o₁) :
    o₁ = {o with values := o₁.values, out := o₁.out, events := o₁.events} := by
  induction h with
  | refl => rfl
  | met _ _ ih | forced _ _ ih =>
    rw [ih]
    rfl
  | told _ _ ih => rw [ih]

theorem later (h : Grown o o₁) : o.values.Later o₁.values := by
  induction h with
  | refl => exact .refl _
  | met a _ ih => exact ih.trans (Values.later_valueOf ..)
  | forced id _ ih => exact ih.trans (values_forcing _ id).later
  | told _ _ ih => exact ih

theorem out_grows (h : Grown o o₁) : o.out.toList <+: o₁.out.toList := by
  induction h with
  | refl => exact List.prefix_refl _
  | met _ _ ih => exact ih
  | @forced o' id _ ih => exact ih.trans (o'.values.force_performs id o'.out).out_grows
  | told _ _ ih => exact ih

theorem extends_ (h : Grown o o₁) : Extends o o₁ :=
  ⟨h.later, h.out_grows⟩

/-- What was emitted for a value is still emitted for it. -/
theorem operand (h : Grown o o₁) {id : ValueId} (hid : id < o.values.slots.size) :
    (o₁.values.slot id).operand = (o.values.slot id).operand := by
  induction h with
  | refl => rfl
  | met a h ih =>
    rw [← ih]
    exact congrArg Slot.operand (Values.slot_valueOf a (Nat.lt_of_lt_of_le hid h.later.size))
  | @forced o' id' _ ih => rw [(values_forcing o' id').operand, ih]
  | told _ _ ih => exact ih

theorem inRange (h : Grown o o₁) (hr : o.values.InRange) : o₁.values.InRange := by
  induction h with
  | refl => exact hr
  | met a _ ih => exact ih.valueOf a
  | @forced o' id' _ ih =>
    have hf := values_forcing o' id'
    intro a id hid
    rw [hf.index] at hid
    rw [hf.size]
    exact ih a id hid
  | told _ _ ih => exact ih

theorem intact (h : Grown o o₁) (ho : o.Intact) : o₁.Intact := by
  induction h with
  | refl => exact ho
  | met a _ ih => exact ih.met a
  | @forced o' id _ ih =>
    have hf := values_forcing o' id
    have hi := ih.setValues (ih.values.forced hf) hf.size
    exact ⟨hi.values, hi.known⟩
  | told _ _ ih => exact ⟨ih.values, ih.known⟩

theorem emittedAs (h : Grown o o₁) (hr : o.values.InRange) {a k : Operand}
    (hk : o.values.EmittedAs a k) : o₁.values.EmittedAs a k := by
  obtain ⟨id, hid, hv, hop⟩ := hk
  have hlt := hr a id hid
  refine ⟨id, h.later.index a id hid, ?_, (h.operand hlt).trans hop⟩
  have := h.later.real id hlt (by simpa [Slot.isVirtual] using hv)
  simp [Slot.isVirtual, this]

theorem working (h : Grown o o₁) {T : FrameTable} {base start defined : List Box}
    (hw : Working T base start defined o)
    (hb : Built o.pool.nextGuard T base start defined o₁.values o₁.out.toList) :
    Working T base start defined o₁ := by
  have hpool : o₁.pool = o.pool := by rw [h.same]
  have hsink : o₁.sink = o.sink := by rw [h.same]
  have hknown : o₁.known = o.known := by rw [h.same]
  refine ⟨by rwa [hpool], fun key id hid => ?_, by rw [hpool]; exact hw.ids, ?_⟩
  · obtain ⟨hlt, hkind⟩ := hw.known key id (hknown ▸ hid)
    exact ⟨Nat.lt_of_lt_of_le hlt h.later.size, (h.later.kind id hlt).trans hkind⟩
  · rw [hpool, hsink]
    exact hw.sink.mono fun a a' ha => h.extends_.stands hw.inRange ha

end Grown

/-- The operand was met and forced, and is emitted as another that is ready. -/
structure Delivers (base start : List Box) (o : Optimizer) (a a' : Operand) : Prop where
  inRange : o.values.InRange
  emitted : o.values.EmittedAs a a'
  stands : Stands base start o a a'

theorem Grown.delivers {base start : List Box} {o o' : Optimizer} (h : Grown o o')
    {a a' : Operand} (ha : Delivers base start o a a') : Delivers base start o' a a' :=
  ⟨h.inRange ha.inRange, h.emittedAs ha.inRange ha.emitted,
    h.extends_.stands ha.inRange ha.stands⟩

theorem Grown.persists (base start : List Box) : Persists Grown (Delivers base start) :=
  ⟨fun _ => .refl, Grown.trans, fun h => h.delivers⟩

section
variable {n : Nat} {T : FrameTable} {base start defined : List Box}

/-- An operand that may be read is met and forced. -/
theorem forceValue_yields {o : Optimizer} {a : Operand} (ha : ∀ b, a = .box b → b ∈ defined)
    (h : Built n T base start defined o.values o.out.toList) :
    Yields (do force (← valueOf a)) o fun a' o' =>
      Built n T base start defined o'.values o'.out.toList ∧ Grown o o' ∧
        Delivers base start o' a a' := by
  rw [yields_bind, yields_valueOf]
  have hmet : Built n T base start defined (o.met a).values (o.met a).out.toList :=
    h.setTable (h.table.valueOf ha) (Values.later_valueOf ..)
  have hlt : o.idOf a < (o.met a).values.slots.size := h.table.inRange.valueOf_lt a
  have hindex := o.index_met a
  obtain ⟨hbuilt, _, hforced, hop, hv, hready⟩ := hmet.force hlt
  have hgrown : Grown o ((o.met a).forcing (o.idOf a)) := (Grown.refl.met a).forced _
  refine ⟨hbuilt, hgrown, hbuilt.table.inRange, ⟨o.idOf a, ?_, ?_, ?_⟩, ?_, hready⟩
  · rw [← hindex]
    exact congrArg (·.get? a) hforced.index
  · simp only [Slot.isVirtual, Option.isSome_eq_false_iff]
    exact Option.isNone_iff_eq_none.2 hv
  · exact (hforced.operand _).trans hop.symm
  · exact (congrArg Operand.kind hop).trans (hmet.table.kind a _ hindex)

theorem forceAll_yields {o : Optimizer} {as : List Operand}
    (ha : ∀ b, .box b ∈ as → b ∈ defined)
    (h : Built n T base start defined o.values o.out.toList) :
    Yields (Peel.forceAll as) o fun as' o' =>
      Built n T base start defined o'.values o'.out.toList ∧ Grown o o' ∧
        List.Forall₂ (Delivers base start o') as as' :=
  yields_mapM (Grown.persists base start)
    (fun _ hmem _ h => forceValue_yields (fun b hb => ha b (hb ▸ hmem)) h) h

end
end TracePeel.Optimizer
