import TracePeel.Proofs.Intact

/-! A table that agrees with itself.

`Coherent` is what every state of a run keeps: kinds are right, levels say what the slots hold,
an object held back stands for the result of its own allocation and for nothing else, and
nothing refers to a slot that does not exist. `Lasts` is what a later state keeps of an earlier
one. Neither is kept by the table by itself: making a slot a constant asks nothing of the slot,
and a box may be forwarded wherever it led before.

`Tidy` is the invariant behind `Coherent`. What it adds is that a slot's own box leads back to
the slot, so no two slots are emitted as the same box. Each way to write the table keeps it
under a condition on what is written, and then the table only `Settles`: kinds stay, constants
stay, and no slot that is there comes to hold an object. -/
namespace TracePeel

theorem Operand.isConst_iff {a : Operand} : a.isConst = true ↔ ∃ c, a = .const c := by
  cases a <;> simp [Operand.isConst, Operand.const?]

/-- What a slot may become: its kind stays, a constant stays as it is, and an object is not put
where none was. -/
structure Slot.Becomes (s s' : Slot) : Prop where
  kind : s'.operand.kind = s.operand.kind
  constant : s.level = .constant → s'.level = .constant ∧ s'.operand = s.operand
  real : s.virtual = none → s'.virtual = none

theorem Slot.Becomes.refl (s : Slot) : s.Becomes s :=
  ⟨rfl, fun h => ⟨h, rfl⟩, id⟩

/-- The level says whether the slot holds a constant, and an object held back is an allocation
whose result the slot stands for. -/
structure Slot.Tidy (size : Nat) (s : Slot) : Prop where
  constant : s.level = .constant ↔ s.operand.isConst = true
  held : ∀ object, s.virtual = some object → s.level = .nonNull ∧ object.Intact size ∧
    ∃ r, object.allocation.result = some r ∧ s.operand = .box r

/-- Where no object is held back, the level is all there is to say. -/
theorem Slot.Tidy.of_real {n : Nat} {s : Slot} (hreal : s.virtual = none)
    (hconstant : s.level = .constant ↔ s.operand.isConst = true) : s.Tidy n := by
  refine ⟨hconstant, fun object hv => ?_⟩
  rw [hreal] at hv
  cases hv

theorem Slot.Tidy.mono {n m : Nat} (hnm : n ≤ m) {s : Slot} (h : s.Tidy n) : s.Tidy m := by
  refine ⟨h.constant, fun object hv => ?_⟩
  obtain ⟨hlevel, hintact, hstands⟩ := h.held object hv
  exact ⟨hlevel, hintact.mono hnm, hstands⟩

/-- A slot that is no constant holds a box. -/
theorem Slot.Tidy.constant?_eq_none {n : Nat} {s : Slot} (h : s.Tidy n) :
    s.constant? = none ↔ s.level ≠ .constant := by
  have hconst := h.constant
  unfold Slot.constant? Slot.isConstant
  by_cases hlevel : s.level = .constant
  · obtain ⟨c, hc⟩ := Operand.isConst_iff.1 (hconst.1 hlevel)
    simp [hlevel, hc, Operand.const?]
  · simp [hlevel]

namespace Values

/-- Each operand that was met stands for a slot of its kind, each slot is in order, and what a
slot is emitted as leads back to it. -/
structure Tidy (v : Values) : Prop where
  inRange : v.InRange
  kind : ∀ a id, v.index.get? a = some id → (v.slot id).operand.kind = a.kind
  slots : ∀ id, id < v.slots.size → (v.slot id).Tidy v.slots.size
  home : ∀ id b, (v.slot id).operand = .box b → v.index.get? (.box b) = some id

/-- The table grows, what was met stands for what it did, and each slot becomes what it may. -/
structure Becomes (v v' : Values) : Prop where
  size : v.slots.size ≤ v'.slots.size
  index : ∀ a id, v.index.get? a = some id → v'.index.get? a = some id
  slot : ∀ id, id < v.slots.size → (v.slot id).Becomes (v'.slot id)

/-- The table becomes one that is in order. -/
structure Settles (v v' : Values) : Prop extends Becomes v v' where
  tidy : v'.Tidy

/-- Constants stay as they are, and boxes stand for what they did. -/
structure Lasts (v v' : Values) : Prop where
  constant : ∀ id, (v.slot id).level = .constant →
    (v'.slot id).level = .constant ∧ (v'.slot id).operand = (v.slot id).operand
  forwards : ∀ b id, v.lookup b = some id → v'.lookup b = some id

section
variable {v v₁ v₂ v' : Values} {id : ValueId}

theorem Becomes.refl (v : Values) : v.Becomes v :=
  ⟨Nat.le_refl _, fun _ _ h => h, fun _ _ => .refl _⟩

theorem Lasts.refl (v : Values) : v.Lasts v :=
  ⟨fun _ h => ⟨h, rfl⟩, fun _ _ h => h⟩

theorem Lasts.trans (h₁ : v.Lasts v₁) (h₂ : v₁.Lasts v₂) : v.Lasts v₂ := by
  refine ⟨fun id h => ?_, fun b id h => h₂.forwards b id (h₁.forwards b id h)⟩
  obtain ⟨hlevel, hoperand⟩ := h₁.constant id h
  obtain ⟨hlevel', hoperand'⟩ := h₂.constant id hlevel
  exact ⟨hlevel', hoperand'.trans hoperand⟩

theorem Becomes.lasts (h : v.Becomes v') : v.Lasts v' := by
  refine ⟨fun id hlevel => ?_, fun b id => h.index (.box b) id⟩
  by_cases hid : id < v.slots.size
  · exact (h.slot id hid).constant hlevel
  · rw [slot_of_not_lt hid] at hlevel
    cases hlevel

namespace Tidy

theorem intact (h : v.Tidy) : v.Intact := by
  refine ⟨h.inRange, fun id object hv => ?_⟩
  exact ((h.slots id (lt_of_virtual hv)).held object hv).2.1

theorem settles (h : v.Tidy) : v.Settles v :=
  ⟨.refl v, h⟩

/-- A slot is added for an operand that was not met before. -/
theorem push (h : v.Tidy) {a : Operand} {s : Slot} (hnone : v.index.get? a = none)
    (hs : s.Tidy (v.slots.size + 1)) (hoperand : s.operand = a) : v.Settles (v.push a s) := by
  have hindex : ∀ b j, v.index.get? b = some j → (v.push a s).index.get? b = some j := by
    intro b j hj
    have hne : a ≠ b := fun he => by
      rw [← he, hnone] at hj
      cases hj
    rw [index_push, if_neg hne, hj]
  refine ⟨⟨by simp, hindex, fun j hj => ?_⟩, ⟨fun b j hj => ?_, fun b j hj => ?_, fun j hj => ?_,
    fun j b hb => ?_⟩⟩
  · rw [slot_push_of_lt v a s hj]
    exact .refl _
  · rw [index_push] at hj
    rw [size_push]
    split at hj
    next =>
      cases hj
      exact Nat.lt_succ_self _
    next => exact Nat.lt_succ_of_lt (h.inRange b j hj)
  · rw [index_push] at hj
    split at hj
    next he =>
      cases hj
      rw [slot_push_self, hoperand, he]
    next =>
      rw [slot_push_of_lt v a s (h.inRange b j hj)]
      exact h.kind b j hj
  · rw [size_push] at hj ⊢
    rw [slot_push]
    split
    next => exact hs
    next hne =>
      exact (h.slots j (Nat.lt_of_le_of_ne (Nat.le_of_lt_succ hj) hne)).mono (Nat.le_succ _)
  · rw [slot_push] at hb
    split at hb
    next he =>
      rw [index_push, if_pos (hoperand.symm.trans hb), he]
    next => exact hindex _ _ (h.home j b hb)

theorem fresh_tidy (a : Operand) (n : Nat) : (fresh a).Tidy n := by
  apply Slot.Tidy.of_real rfl
  unfold fresh
  cases a <;> simp [Operand.isConst, Operand.const?]

theorem valueOf (h : v.Tidy) (a : Operand) : v.Settles (v.valueOf a).2 := by
  cases hget : v.index.get? a with
  | some id =>
    rw [valueOf_known hget]
    exact h.settles
  | none =>
    rw [valueOf_new hget]
    exact h.push hget (fresh_tidy a _) rfl

/-- A slot is changed as it may be. It does not come to stand for another box. -/
theorem modifySlot (h : v.Tidy) {f : Slot → Slot} (hbecomes : (v.slot id).Becomes (f (v.slot id)))
    (hbox : ∀ b, (f (v.slot id)).operand = .box b → (v.slot id).operand = .box b)
    (hs : (f (v.slot id)).Tidy v.slots.size) : v.Settles (v.modifySlot id f) := by
  have hslot : ∀ j, (v.slot j).Becomes ((v.modifySlot id f).slot j) := by
    intro j
    rw [slot_modifySlot]
    split
    next he =>
      rw [he.1]
      exact hbecomes
    next => exact .refl _
  refine ⟨⟨by simp, fun _ _ hj => hj, fun j _ => hslot j⟩, ⟨fun a j hj => ?_, fun a j hj => ?_,
    fun j hj => ?_, fun j b hb => ?_⟩⟩
  · rw [size_modifySlot]
    exact h.inRange a j hj
  · rw [(hslot j).kind]
    exact h.kind a j hj
  · rw [size_modifySlot] at hj ⊢
    rw [slot_modifySlot]
    split
    next he =>
      rw [he.1]
      exact hs
    next => exact h.slots j hj
  · apply h.home j b
    rw [slot_modifySlot] at hb
    split at hb
    next he =>
      rw [he.1] at hb ⊢
      exact hbox b hb
    next => exact hb

/-- A slot that is no constant is made one of its kind. -/
theorem makeConstant (h : v.Tidy) (hlevel : (v.slot id).level ≠ .constant) {c : Const}
    (hkind : c.kind = (v.slot id).operand.kind) : v.Settles (v.makeConstant id c) := by
  refine h.modifySlot ⟨hkind, fun hc => absurd hc hlevel, fun _ => rfl⟩ nofun ?_
  exact .of_real rfl ⟨fun _ => rfl, fun _ => rfl⟩

theorem makeNonNull (h : v.Tidy) (hid : id < v.slots.size) : v.Settles (v.makeNonNull id) := by
  have hs := h.slots id hid
  by_cases hlevel : (v.slot id).level = .unknown
  · have hconst : (v.slot id).operand.isConst ≠ true := fun hc => by
      have := hs.constant.2 hc
      rw [hlevel] at this
      cases this
    apply h.modifySlot
    · rw [if_pos hlevel]
      exact ⟨rfl, fun hc => absurd (hlevel.symm.trans hc) nofun, fun hv => hv⟩
    · rw [if_pos hlevel]
      exact fun _ hb => hb
    · rw [if_pos hlevel]
      refine ⟨⟨nofun, fun hc => absurd hc hconst⟩, fun object hv => ?_⟩
      exact ⟨rfl, (hs.held object hv).2⟩
  · apply h.modifySlot
    · rw [if_neg hlevel]
      exact .refl _
    · rw [if_neg hlevel]
      exact fun _ hb => hb
    · rw [if_neg hlevel]
      exact hs

theorem setClass (h : v.Tidy) (hid : id < v.slots.size) (c : Const) :
    v.Settles (v.setClass id c) := by
  have hs := h.slots id hid
  exact h.modifySlot ⟨rfl, fun hc => ⟨hc, rfl⟩, fun hv => hv⟩ (fun _ hb => hb)
    ⟨hs.constant, hs.held⟩

/-- A field is written with a value that exists. -/
theorem setField (h : v.Tidy) (hid : id < v.slots.size) (name : String) {value : ValueId}
    (hvalue : value < v.slots.size) : v.Settles (v.setField id name value) := by
  have hs := h.slots id hid
  refine h.modifySlot ⟨rfl, fun hc => ⟨hc, rfl⟩, fun hv => ?_⟩ (fun _ hb => hb)
    ⟨hs.constant, fun object hv => ?_⟩
  · show (v.slot id).virtual.map _ = none
    rw [hv]
    rfl
  · obtain ⟨old, hold, rfl⟩ := Option.map_eq_some_iff.1 hv
    obtain ⟨hlevel, ⟨hnew, hfields⟩, hstands⟩ := hs.held old hold
    refine ⟨hlevel, ⟨hnew, fun name' value' hmem => ?_⟩, hstands⟩
    rcases Bindings.mem_put hmem with hmem | he
    · exact hfields name' value' hmem
    · cases he
      exact hvalue

/-- An allocation is held back under a box that was not met before. -/
theorem makeVirtual (h : v.Tidy) {op : Operation} {r : Box} (hop : op.opcode = .new)
    (hr : op.result = some r) (hnone : v.index.get? (.box r) = none) :
    v.Settles (v.makeVirtual op).2 := by
  unfold Values.makeVirtual
  rw [hr]
  show v.Settles (((v.valueOf (.box r)).2).modifySlot (v.valueOf (.box r)).1 _)
  rw [valueOf_new hnone, modifySlot_push]
  refine h.push hnone ⟨⟨nofun, nofun⟩, fun object hv => ?_⟩ rfl
  cases hv
  exact ⟨rfl, ⟨hop, nofun⟩, r, hr, rfl⟩

/-- A box that was not met before comes to stand for a value of its kind. -/
theorem forward (h : v.Tidy) {b : Box} (hnone : v.index.get? (.box b) = none)
    (hid : id < v.slots.size) (hkind : (v.slot id).operand.kind = b.kind) :
    v.Settles (v.forward b id) := by
  have hindex : ∀ a j, v.index.get? a = some j → (v.forward b id).index.get? a = some j := by
    intro a j hj
    have hne : .box b ≠ a := fun he => by
      rw [← he, hnone] at hj
      cases hj
    rw [index_forward, if_neg hne, hj]
  refine ⟨⟨Nat.le_refl _, hindex, fun _ _ => .refl _⟩, ⟨fun a j hj => ?_, fun a j hj => ?_,
    h.slots, fun j b' hb' => hindex _ _ (h.home j b' hb')⟩⟩
  · rw [index_forward] at hj
    split at hj
    next =>
      cases hj
      exact hid
    next => exact h.inRange a j hj
  · rw [index_forward] at hj
    split at hj
    next he =>
      cases hj
      rw [← he]
      exact hkind
    next => exact h.kind a j hj

/-- Some objects are forced. -/
theorem forced (h : v.Tidy) (hf : v.Forced v') : v.Settles v' := by
  have hslot : ∀ j, (v.slot j).Becomes (v'.slot j) ∧
      (j < v.slots.size → (v'.slot j).Tidy v.slots.size) := by
    intro j
    rcases hf.slot j with e | e
    · rw [e]
      exact ⟨.refl _, h.slots j⟩
    · rw [e]
      exact ⟨⟨rfl, fun hc => ⟨hc, rfl⟩, fun _ => rfl⟩,
        fun hj => .of_real rfl (h.slots j hj).constant⟩
  refine ⟨⟨Nat.le_of_eq hf.size.symm, fun a j hj => hf.index ▸ hj, fun j _ => (hslot j).1⟩,
    ⟨fun a j hj => ?_, fun a j hj => ?_, fun j hj => ?_, fun j b hb => ?_⟩⟩
  · rw [hf.size]
    exact h.inRange a j (hf.index ▸ hj)
  · rw [hf.operand]
    exact h.kind a j (hf.index ▸ hj)
  · rw [hf.size] at hj ⊢
    exact (hslot j).2 hj
  · rw [hf.operand] at hb
    rw [hf.index]
    exact h.home j b hb

theorem markFromStart (h : v.Tidy) : v.Settles v.markFromStart := by
  have hsize : v.markFromStart.slots.size = v.slots.size := by simp [Values.markFromStart]
  have hslot : ∀ j, ∃ fromStart, v.markFromStart.slot j = {v.slot j with fromStart} := by
    intro j
    by_cases hj : j < v.slots.size
    · exact ⟨_, Consistent.slot_markFromStart v j hj⟩
    · refine ⟨(v.slot j).fromStart, ?_⟩
      rw [slot_of_not_lt hj, slot_of_not_lt (by rwa [hsize])]
  refine ⟨⟨Nat.le_of_eq hsize.symm, fun _ _ hj => hj, fun j _ => ?_⟩, ⟨fun a j hj => ?_,
    fun a j hj => ?_, fun j hj => ?_, fun j b hb => ?_⟩⟩
  · obtain ⟨_, he⟩ := hslot j
    rw [he]
    exact ⟨rfl, fun hc => ⟨hc, rfl⟩, fun hv => hv⟩
  · rw [hsize]
    exact h.inRange a j hj
  · obtain ⟨_, he⟩ := hslot j
    rw [he]
    exact h.kind a j hj
  · obtain ⟨_, he⟩ := hslot j
    rw [hsize] at hj ⊢
    rw [he]
    exact ⟨(h.slots j hj).constant, (h.slots j hj).held⟩
  · obtain ⟨_, he⟩ := hslot j
    rw [he] at hb
    exact h.home j b hb

end Tidy
end
end Values

namespace Optimizer
variable {o o' o₁ : Optimizer}

/-- The table of the state agrees with itself. -/
structure Coherent (o : Optimizer) : Prop where
  /-- A box that was met stands for a slot of its kind. -/
  kind : ∀ b id, o.values.lookup b = some id →
    id < o.values.slots.size ∧ (o.values.slot id).operand.kind = b.kind
  constant : ∀ id, id < o.values.slots.size →
    ((o.values.slot id).level = .constant ↔ ∃ c, (o.values.slot id).operand = .const c)
  /-- An object held back is known not to be null, and stands for the result of its own
  allocation. -/
  held : ∀ id object, (o.values.slot id).virtual = some object →
    (o.values.slot id).level = .nonNull ∧ object.allocation.opcode = .new ∧
      ∃ r, object.allocation.result = some r ∧ (o.values.slot id).operand = .box r
  apart : ∀ id id' b, (o.values.slot id).isVirtual = true → (o.values.slot id').isVirtual = true →
    (o.values.slot id).operand = .box b → (o.values.slot id').operand = .box b → id = id'
  fields : ∀ id object, (o.values.slot id).virtual = some object →
    ∀ name value, (name, value) ∈ object.fields.entries → value < o.values.slots.size
  /-- What was computed is kept in a slot of the kind of its key, which holds no object. -/
  known : ∀ key id, o.known.get? key = some id → id < o.values.slots.size ∧
    (o.values.slot id).operand.kind = key.kind ∧ (o.values.slot id).isVirtual = false

/-- The table is in order, and what was computed is kept in slots of the right kinds that hold
no object. -/
structure Tidy (o : Optimizer) : Prop where
  values : o.values.Tidy
  known : ∀ key id, o.known.get? key = some id → id < o.values.slots.size ∧
    (o.values.slot id).operand.kind = key.kind ∧ (o.values.slot id).virtual = none

theorem Tidy.coherent (h : o.Tidy) : o.Coherent where
  kind b id hid := ⟨h.values.inRange _ id hid, h.values.kind _ id hid⟩
  constant id hid := by rw [← Operand.isConst_iff, (h.values.slots id hid).constant]
  held id object hv := by
    have hslot := h.values.slots id (Values.lt_of_virtual hv)
    obtain ⟨hlevel, hintact, hstands⟩ := hslot.held object hv
    exact ⟨hlevel, hintact.1, hstands⟩
  apart id id' b _ _ hb hb' := by
    have := h.values.home id b hb
    rw [h.values.home id' b hb'] at this
    exact (Option.some.inj this).symm
  fields id object hv := (h.values.intact.held id object hv).2
  known key id hid := by
    obtain ⟨hlt, hkind, hreal⟩ := h.known key id hid
    exact ⟨hlt, hkind, by rw [Slot.isVirtual, hreal]; rfl⟩

/-- A state that is in order is followed by one that is, and what it holds lasts. -/
def Upholds (o o' : Optimizer) : Prop :=
  o.Tidy → o'.Tidy ∧ o.values.Lasts o'.values

instance : IsPreorder Optimizer Upholds where
  refl o h := ⟨h, .refl _⟩
  trans o o₁ o₂ h₁ h₂ h := by
    obtain ⟨htidy, hlasts⟩ := h₁ h
    obtain ⟨htidy', hlasts'⟩ := h₂ htidy
    exact ⟨htidy', hlasts.trans hlasts'⟩

theorem Tidy.congr (h : o.Tidy) (hvalues : o'.values = o.values) (hknown : o'.known = o.known) :
    o'.Tidy := by
  refine ⟨?_, ?_⟩
  · rw [hvalues]
    exact h.values
  · rw [hvalues, hknown]
    exact h.known

/-- The table of a state that is in order settles, and what was computed stays. -/
theorem Tidy.settles (h : o.Tidy) (hv : o.values.Settles o'.values) (hknown : o'.known = o.known) :
    o'.Tidy := by
  refine ⟨hv.tidy, fun key id hid => ?_⟩
  rw [hknown] at hid
  obtain ⟨hlt, hkind, hreal⟩ := h.known key id hid
  have hslot := hv.slot id hlt
  exact ⟨Nat.lt_of_lt_of_le hlt hv.size, hslot.kind.trans hkind, hslot.real hreal⟩

theorem Tidy.met (h : o.Tidy) (a : Operand) : (o.met a).Tidy :=
  h.settles (h.values.valueOf a) rfl

theorem Tidy.of_met {as : List Operand} (h : o.Tidy) (hmet : Met as o o₁) : o₁.Tidy := by
  induction hmet with
  | refl => exact h
  | more _ _ ih => exact ih.met _

theorem Tidy.intact (h : o.Tidy) : o.Intact :=
  ⟨h.values.intact, fun key id hid => (h.known key id hid).1⟩

theorem Tidy.idOf_lt (h : o.Tidy) (a : Operand) : o.idOf a < (o.met a).values.slots.size :=
  h.values.inRange.valueOf_lt a

/-- An operand is met in a slot of its kind. -/
theorem Tidy.kind_slotOf (h : o.Tidy) (a : Operand) : (o.slotOf a).operand.kind = a.kind :=
  (h.met a).values.kind a (o.idOf a) (o.index_met a)

/-- What is computed is kept in the slot of a box that was not met before. -/
theorem Tidy.remember (h : o.Tidy) {r : Box} (hnone : o.values.index.get? (.box r) = none)
    {key : PureKey} (hkind : key.kind = r.kind) :
    Tidy {o.met (.box r) with known := o.known.set key (o.idOf (.box r))} := by
  refine ⟨(h.met _).values, fun key' id hid => ?_⟩
  rw [Bindings.get?_set] at hid
  split at hid
  next he =>
    cases hid
    refine ⟨h.idOf_lt _, ?_, ?_⟩
    · rw [← he, hkind]
      exact h.kind_slotOf (.box r)
    · show ((o.values.valueOf (.box r)).2.slot (o.values.valueOf (.box r)).1).virtual = none
      rw [Values.valueOf_new hnone, Values.slot_push_self]
      rfl
  next => exact (h.met _).known key' id hid

end Optimizer
end TracePeel
