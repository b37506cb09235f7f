import Mathlib.Data.Finset.Card
import TracePeel.Proofs.Consistent

/-! Forcing without a bound.

`Performs` says what it takes to force a value and to write the fields of an object,
one step for each operation that is written. Forcing through as many nested objects as
there are slots performs just that: an object once forced is virtual no more. -/
namespace TracePeel.Values

/-- Something to be done: a value to be forced, or fields of an object to be written. -/
inductive Task where
  | value (id : ValueId)
  | fields (object : Operand) (entries : List (String × ValueId))

/-- A task is done, from a table and a list to a table and a list. -/
inductive Performs : Task → Values × Array Operation → Values × Array Operation → Prop
  | real {id : ValueId} {v : Values} {out : Array Operation} : (v.slot id).virtual = none →
      Performs (.value id) (v, out) (v, out)
  | object {id : ValueId} {v : Values} {out : Array Operation} {object : Virtual}
      {s : Values × Array Operation} : (v.slot id).virtual = some object →
      Performs (.fields (v.slot id).operand object.fields.entries)
        (v.materialize id, out.push object.allocation) s →
      Performs (.value id) (v, out) s
  | written {object : Operand} {s : Values × Array Operation} : Performs (.fields object []) s s
  | field {object : Operand} {name : String} {value : ValueId}
      {rest : List (String × ValueId)} {s s' : Values × Array Operation} {v : Values}
      {out : Array Operation} : Performs (.value value) s (v, out) →
      Performs (.fields object rest)
        (v, out.push (.setField object name (v.slot value).operand)) s' →
      Performs (.fields object ((name, value) :: rest)) s s'

/-! ### What forcing changes in the table -/

/-- The table after some virtual objects became ordinary values. -/
structure Forced (v v' : Values) : Prop where
  size : v'.slots.size = v.slots.size
  index : v'.index = v.index
  slot : ∀ id, v'.slot id = v.slot id ∨ v'.slot id = {v.slot id with virtual := none}

namespace Forced
variable {v v₁ v₂ : Values}

theorem refl (v : Values) : Forced v v :=
  ⟨rfl, rfl, fun _ => .inl rfl⟩

theorem trans (h₁ : Forced v v₁) (h₂ : Forced v₁ v₂) : Forced v v₂ := by
  refine ⟨h₂.size.trans h₁.size, h₂.index.trans h₁.index, fun id => ?_⟩
  rcases h₁.slot id with e₁ | e₁ <;> rcases h₂.slot id with e₂ | e₂ <;> simp [e₁, e₂]

theorem materialize (v : Values) (id : ValueId) : Forced v (v.materialize id) := by
  refine ⟨by simp [Values.materialize], rfl, fun j => ?_⟩
  show (v.modifySlot id _).slot j = _ ∨ (v.modifySlot id _).slot j = _
  rw [slot_modifySlot]
  split
  · exact .inr rfl
  · exact .inl rfl

theorem operand (h : Forced v v₁) (id : ValueId) : (v₁.slot id).operand = (v.slot id).operand := by
  rcases h.slot id with e | e <;> rw [e]

theorem fromStart (h : Forced v v₁) (id : ValueId) :
    (v₁.slot id).fromStart = (v.slot id).fromStart := by
  rcases h.slot id with e | e <;> rw [e]

theorem virtual_eq_none (h : Forced v v₁) {id : ValueId} (hv : (v.slot id).virtual = none) :
    (v₁.slot id).virtual = none := by
  rcases h.slot id with e | e <;> rw [e]
  exact hv

end Forced

theorem virtual_materialize {v : Values} {id : ValueId} :
    ((v.materialize id).slot id).virtual = none := by
  show ((v.modifySlot id _).slot id).virtual = none
  by_cases h : id < v.slots.size
  · rw [slot_modifySlot_self _ h]
  · rw [slot_of_not_lt (by simpa using h)]
    rfl

theorem Performs.forced {t : Task} {s s' : Values × Array Operation} (h : Performs t s s') :
    Forced s.1 s'.1 := by
  induction h with
  | real | written => exact .refl _
  | object _ _ ih => exact (Forced.materialize _ _).trans ih
  | field _ _ ih₁ ih₂ => exact ih₁.trans ih₂

/-- Forcing only writes behind what was written. -/
theorem Performs.out_grows {t : Task} {s s' : Values × Array Operation} (h : Performs t s s') :
    s.2.toList <+: s'.2.toList := by
  induction h with
  | real | written => exact List.prefix_refl _
  | object _ _ ih => exact List.IsPrefix.trans (by simp) ih
  | field _ _ ih₁ ih₂ => exact ih₁.trans (List.IsPrefix.trans (by simp) ih₂)

/-- A value that was forced is no virtual object. -/
theorem Performs.virtual_eq_none {id : ValueId} {s s' : Values × Array Operation}
    (h : Performs (.value id) s s') : (s'.1.slot id).virtual = none := by
  cases h with
  | real hv => exact hv
  | object _ h => exact h.forced.virtual_eq_none virtual_materialize

/-! ### There is no deeper nest than there are slots -/

theorem lt_of_isVirtual {v : Values} {id : ValueId} (h : (v.slot id).isVirtual = true) :
    id < v.slots.size := by
  by_contra hn
  rw [slot_of_not_lt hn] at h
  cases h

theorem isVirtual_of_eq {v : Values} {id : ValueId} {object : Virtual}
    (h : (v.slot id).virtual = some object) : (v.slot id).isVirtual = true := by
  rw [Slot.isVirtual, h]
  rfl

theorem lt_of_virtual {v : Values} {id : ValueId} {object : Virtual}
    (h : (v.slot id).virtual = some object) : id < v.slots.size :=
  lt_of_isVirtual (isVirtual_of_eq h)

/-- The virtual objects of the table. -/
def held (v : Values) : Finset Nat :=
  (Finset.range v.slots.size).filter fun id => (v.slot id).isVirtual

theorem mem_held {v : Values} {id : Nat} : id ∈ v.held ↔ (v.slot id).isVirtual = true := by
  simp only [held, Finset.mem_filter, Finset.mem_range, and_iff_right_iff_imp]
  exact lt_of_isVirtual

theorem Forced.held_subset {v v' : Values} (h : Forced v v') : v'.held ⊆ v.held := by
  intro id hid
  rw [mem_held] at hid ⊢
  rcases h.slot id with e | e
  · rwa [e] at hid
  · rw [e] at hid
    cases hid

theorem held_materialize_lt {v : Values} {id : ValueId} {object : Virtual}
    (h : (v.slot id).virtual = some object) : (v.materialize id).held.card < v.held.card := by
  refine Finset.card_lt_card ⟨(Forced.materialize v id).held_subset, fun hs => ?_⟩
  have hid : id ∈ (v.materialize id).held := hs (mem_held.2 (by simp [Slot.isVirtual, h]))
  rw [mem_held, Slot.isVirtual, virtual_materialize] at hid
  cases hid

theorem held_card_le (v : Values) : v.held.card ≤ v.slots.size := by
  calc v.held.card ≤ (Finset.range v.slots.size).card := Finset.card_filter_le ..
    _ = v.slots.size := Finset.card_range _

/-- Forcing through as many nested objects as there are virtual ones leaves none out. -/
theorem forceWithin_performs {depth : Nat} {id : ValueId} {s : Values × Array Operation}
    (h : s.1.held.card ≤ depth) : Performs (.value id) s (forceWithin depth id s) := by
  induction depth generalizing id s with
  | zero =>
    refine .real (Option.not_isSome_iff_eq_none.1 fun hv => ?_)
    have : id ∈ s.1.held := mem_held.2 hv
    rw [Finset.card_eq_zero.1 (Nat.le_zero.1 h)] at this
    cases this
  | succ depth ih =>
    obtain ⟨v, out⟩ := s
    unfold forceWithin
    split
    next hv => exact .real hv
    next object hv =>
      refine .object hv ?_
      have hle : (v.materialize id).held.card ≤ depth := by
        have := held_materialize_lt hv
        simp only at h
        omega
      generalize v.materialize id = v₁, out.push object.allocation = out₁ at hle ⊢
      generalize object.fields.entries = entries
      -- The fields one after the other; each leaves no more virtual objects than before.
      induction entries generalizing v₁ out₁ with
      | nil => exact .written
      | cons entry rest ih' =>
        obtain ⟨name, value⟩ := entry
        have hfield : Performs (.value value) (v₁, out₁) _ := ih hle
        rw [List.foldl_cons]
        exact .field hfield (ih' _ _ (Nat.le_trans (Finset.card_le_card
          hfield.forced.held_subset) hle))

theorem force_performs (v : Values) (id : ValueId) (out : Array Operation) :
    Performs (.value id) (v, out) (v.force id out).2 :=
  forceWithin_performs v.held_card_le

theorem force_operand (v : Values) (id : ValueId) (out : Array Operation) :
    (v.force id out).1 = (v.slot id).operand :=
  (force_performs v id out).forced.operand id

/-- An ordinary value is forced already. -/
theorem Performs.eq_of_real {id : ValueId} {s s' : Values × Array Operation}
    (h : Performs (.value id) s s') (hv : (s.1.slot id).virtual = none) : s' = s := by
  cases h with
  | real => rfl
  | object ho => simp [ho] at hv

theorem force_of_real {v : Values} {id : ValueId} (h : (v.slot id).virtual = none)
    (out : Array Operation) : v.force id out = ((v.slot id).operand, v, out) :=
  Prod.ext (v.force_operand id out) ((v.force_performs id out).eq_of_real h)

/-- There is one way to do a task. -/
theorem Performs.unique {t : Task} {s s₁ s₂ : Values × Array Operation} (h₁ : Performs t s s₁)
    (h₂ : Performs t s s₂) : s₁ = s₂ := by
  induction h₁ generalizing s₂ with
  | real hnone => exact (h₂.eq_of_real hnone).symm
  | object ho _ ih =>
    cases h₂ with
    | real hnone => simp [ho] at hnone
    | object ho' h₂ =>
      cases ho.symm.trans ho'
      exact ih h₂
  | written =>
    cases h₂
    rfl
  | field _ _ ih₁ ih₂ =>
    cases h₂ with
    | field h₁' h₂' =>
      cases ih₁ h₁'
      exact ih₂ h₂'

/-! ### Tables with more slots -/

/-- The second table has the slots of the first, and others that hold no object. -/
structure Widens (v v' : Values) : Prop where
  size : v.slots.size ≤ v'.slots.size
  slot : ∀ id, id < v.slots.size → v'.slot id = v.slot id
  real : ∀ id, v.slots.size ≤ id → (v'.slot id).virtual = none

namespace Widens
variable {v v₁ v₂ : Values}

theorem refl (v : Values) : v.Widens v := by
  refine ⟨Nat.le_refl _, fun _ _ => rfl, fun id hid => ?_⟩
  rw [slot_of_not_lt (Nat.not_lt.2 hid)]
  rfl

theorem trans (h₁ : v.Widens v₁) (h₂ : v₁.Widens v₂) : v.Widens v₂ := by
  refine ⟨Nat.le_trans h₁.size h₂.size, fun id hid => ?_, fun id hid => ?_⟩
  · exact (h₂.slot id (Nat.lt_of_lt_of_le hid h₁.size)).trans (h₁.slot id hid)
  · by_cases hlt : id < v₁.slots.size
    · rw [h₂.slot id hlt]
      exact h₁.real id hid
    · exact h₂.real id (Nat.le_of_not_lt hlt)

theorem valueOf (v : Values) (a : Operand) : v.Widens (v.valueOf a).2 := by
  refine ⟨v.size_le_valueOf a, fun id hid => slot_valueOf a hid, fun id hid => ?_⟩
  by_cases hlt : id < (v.valueOf a).2.slots.size
  · rcases slot_valueOf_cases v a hlt with ⟨hid', -⟩ | ⟨-, -, hs⟩
    · exact absurd hid (Nat.not_le.2 hid')
    · rw [hs]
      rfl
  · rw [slot_of_not_lt hlt]
    rfl

/-- Both tables hold the same objects. -/
theorem virtual (h : v.Widens v₁) (id : ValueId) :
    (v₁.slot id).virtual = (v.slot id).virtual := by
  by_cases hid : id < v.slots.size
  · rw [h.slot id hid]
  · rw [h.real id (Nat.le_of_not_lt hid), slot_of_not_lt hid]
    rfl

theorem materialize (h : v.Widens v₁) (id : ValueId) :
    (v.materialize id).Widens (v₁.materialize id) := by
  have hsize : ∀ u : Values, (u.materialize id).slots.size = u.slots.size := fun u =>
    (Forced.materialize u id).size
  have hslot : ∀ (u : Values) j, (u.materialize id).slot j =
      if j = id ∧ j < u.slots.size then {u.slot j with virtual := none} else u.slot j :=
    fun u j => slot_modifySlot u id j _
  refine ⟨?_, fun j hj => ?_, fun j hj => ?_⟩
  · rw [hsize, hsize]
    exact h.size
  · rw [hsize] at hj
    have hj' := Nat.lt_of_lt_of_le hj h.size
    rw [hslot, hslot, h.slot j hj]
    simp [hj, hj']
  · rw [hsize] at hj
    exact (Forced.materialize v₁ id).virtual_eq_none (h.real j hj)

end Widens

end TracePeel.Values
