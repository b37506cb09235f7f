import TracePeel.Optimize.Values

/-! Reading the table of values after it was written.

One equation for each way to write the table: what a slot holds afterwards and which
slot an operand stands for. Slots are only ever added at the end, so a slot that was
given out keeps its number. -/
namespace TracePeel.Values

/-- Every operand that was met stands for a slot that exists. -/
def InRange (v : Values) : Prop :=
  ∀ a id, v.index.get? a = some id → id < v.slots.size

/-! ### Slots -/

theorem slot_of_lt {v : Values} {id : ValueId} (h : id < v.slots.size) :
    v.slot id = v.slots[id] := by
  simp [slot, Array.getD, h]

theorem slot_of_not_lt {v : Values} {id : ValueId} (h : ¬ id < v.slots.size) :
    v.slot id = Slot.vacant := by
  simp [slot, Array.getD, h]

@[simp] theorem size_modifySlot (v : Values) (id : ValueId) (f : Slot → Slot) :
    (v.modifySlot id f).slots.size = v.slots.size := by
  simp [modifySlot]

@[simp] theorem index_modifySlot (v : Values) (id : ValueId) (f : Slot → Slot) :
    (v.modifySlot id f).index = v.index := rfl

theorem slot_modifySlot (v : Values) (id j : ValueId) (f : Slot → Slot) :
    (v.modifySlot id f).slot j =
      if j = id ∧ j < v.slots.size then f (v.slot j) else v.slot j := by
  by_cases hj : j < v.slots.size
  · have hj' : j < (v.modifySlot id f).slots.size := by simpa using hj
    rw [slot_of_lt hj', slot_of_lt hj]
    by_cases he : j = id
    · subst he
      simp [modifySlot, Array.getElem_modify, hj]
    · simp [modifySlot, he, Array.getElem_modify, Ne.symm he]
  · have hj' : ¬ j < (v.modifySlot id f).slots.size := by simpa using hj
    rw [slot_of_not_lt hj', slot_of_not_lt hj]
    simp [hj]

theorem slot_modifySlot_self {v : Values} {id : ValueId} (f : Slot → Slot)
    (h : id < v.slots.size) : (v.modifySlot id f).slot id = f (v.slot id) := by
  simp [slot_modifySlot, h]

theorem slot_modifySlot_of_ne {v : Values} {id j : ValueId} (f : Slot → Slot) (h : j ≠ id) :
    (v.modifySlot id f).slot j = v.slot j := by
  simp [slot_modifySlot, h]

/-! ### Meeting an operand -/

/-- The slot that an operand gets when it is met for the first time. -/
def fresh (a : Operand) : Slot :=
  { operand := a, level := if a.isConst then .constant else .unknown }

/-- The table with a new slot for an operand. -/
def push (v : Values) (a : Operand) (s : Slot) : Values :=
  {v with slots := v.slots.push s, index := v.index.set a v.slots.size}

@[simp] theorem size_push (v : Values) (a : Operand) (s : Slot) :
    (v.push a s).slots.size = v.slots.size + 1 := by
  simp [push]

theorem index_push (v : Values) (a : Operand) (s : Slot) (b : Operand) :
    (v.push a s).index.get? b = if a = b then some v.slots.size else v.index.get? b :=
  Bindings.get?_set ..

theorem slot_push_of_lt (v : Values) (a : Operand) (s : Slot) {id : ValueId}
    (h : id < v.slots.size) : (v.push a s).slot id = v.slot id := by
  have h' : id < (v.push a s).slots.size := by
    rw [size_push]
    exact Nat.lt_succ_of_lt h
  rw [slot_of_lt h, slot_of_lt h']
  exact Array.getElem_push_lt h

@[simp] theorem slot_push_self (v : Values) (a : Operand) (s : Slot) :
    (v.push a s).slot v.slots.size = s := by
  rw [slot_of_lt (by simp)]
  simp [push]

theorem slot_push (v : Values) (a : Operand) (s : Slot) (id : ValueId) :
    (v.push a s).slot id = if id = v.slots.size then s else v.slot id := by
  split
  next he => rw [he, slot_push_self]
  next hne =>
    by_cases hlt : id < v.slots.size
    · exact slot_push_of_lt v a s hlt
    · have hlt' : ¬ id < (v.push a s).slots.size := by
        rw [size_push]
        exact fun h => hlt (Nat.lt_of_le_of_ne (Nat.le_of_lt_succ h) hne)
      rw [slot_of_not_lt hlt, slot_of_not_lt hlt']

theorem modifySlot_push (v : Values) (a : Operand) (s : Slot) (f : Slot → Slot) :
    (v.push a s).modifySlot v.slots.size f = v.push a (f s) := by
  have hslots : (v.slots.push s).modify v.slots.size f = v.slots.push (f s) := by
    refine Array.ext (by simp) fun i hi hi' => ?_
    by_cases he : i = v.slots.size
    · simp [Array.getElem_modify, he]
    · have hlt : i < v.slots.size := by
        simp only [Array.size_push] at hi'
        omega
      simp [Array.getElem_modify, Ne.symm he, Array.getElem_push_lt hlt]
  simp [push, modifySlot, hslots]

theorem valueOf_known {v : Values} {a : Operand} {id : ValueId} (h : v.index.get? a = some id) :
    v.valueOf a = (id, v) := by
  simp [valueOf, h]

theorem valueOf_new {v : Values} {a : Operand} (h : v.index.get? a = none) :
    v.valueOf a = (v.slots.size, v.push a (fresh a)) := by
  simp [valueOf, h, fresh, push]

/-- Once met, an operand stands for the slot that was given for it. -/
@[simp] theorem index_valueOf_self (v : Values) (a : Operand) :
    (v.valueOf a).2.index.get? a = some (v.valueOf a).1 := by
  cases h : v.index.get? a with
  | some id => rw [valueOf_known h, h]
  | none => rw [valueOf_new h, index_push, if_pos rfl]

/-- An operand that was met keeps its slot when another is met. -/
theorem index_valueOf_of_some {v : Values} {a b : Operand} {id : ValueId}
    (h : v.index.get? b = some id) : (v.valueOf a).2.index.get? b = some id := by
  cases ha : v.index.get? a with
  | some _ => rw [valueOf_known ha, h]
  | none =>
    have hne : a ≠ b := by
      rintro rfl
      rw [ha] at h
      cases h
    rw [valueOf_new ha, index_push, if_neg hne, h]

theorem index_valueOf_of_ne {v : Values} {a b : Operand} (hne : a ≠ b) :
    (v.valueOf a).2.index.get? b = v.index.get? b := by
  cases ha : v.index.get? a with
  | some _ => rw [valueOf_known ha]
  | none => rw [valueOf_new ha, index_push, if_neg hne]

theorem size_le_valueOf (v : Values) (a : Operand) :
    v.slots.size ≤ (v.valueOf a).2.slots.size := by
  cases h : v.index.get? a with
  | some _ => simp [valueOf_known h]
  | none => simp [valueOf_new h]

theorem slot_valueOf {v : Values} {id : ValueId} (a : Operand) (h : id < v.slots.size) :
    (v.valueOf a).2.slot id = v.slot id := by
  cases ha : v.index.get? a with
  | some _ => rw [valueOf_known ha]
  | none =>
    rw [valueOf_new ha, slot_of_lt h, slot_of_lt (by simpa using Nat.lt_succ_of_lt h)]
    exact Array.getElem_push_lt h

/-- Every slot that exists after an operand was met existed before or is its own. -/
theorem slot_valueOf_cases (v : Values) (a : Operand) {id : ValueId}
    (h : id < (v.valueOf a).2.slots.size) :
    (id < v.slots.size ∧ (v.valueOf a).2.slot id = v.slot id) ∨
      (v.index.get? a = none ∧ id = v.slots.size ∧ (v.valueOf a).2.slot id = fresh a) := by
  cases ha : v.index.get? a with
  | some _ =>
    rw [valueOf_known ha] at h ⊢
    exact .inl ⟨h, rfl⟩
  | none =>
    by_cases hid : id < v.slots.size
    · exact .inl ⟨hid, slot_valueOf a hid⟩
    · rw [valueOf_new ha] at h ⊢
      have he : id = v.slots.size :=
        Nat.le_antisymm (Nat.le_of_lt_succ (by simpa using h)) (Nat.le_of_not_lt hid)
      subst he
      exact .inr ⟨rfl, rfl, slot_push_self ..⟩

theorem InRange.valueOf_lt {v : Values} (h : v.InRange) (a : Operand) :
    (v.valueOf a).1 < (v.valueOf a).2.slots.size := by
  cases ha : v.index.get? a with
  | some id =>
    rw [valueOf_known ha]
    exact h a id ha
  | none =>
    rw [valueOf_new ha]
    simp

theorem InRange.valueOf {v : Values} (h : v.InRange) (a : Operand) :
    (v.valueOf a).2.InRange := by
  intro b id hb
  by_cases he : a = b
  · subst he
    rw [index_valueOf_self] at hb
    cases hb
    exact h.valueOf_lt a
  · rw [index_valueOf_of_ne he] at hb
    exact Nat.lt_of_lt_of_le (h b id hb) (size_le_valueOf v a)

/-- A box that comes to stand for a value stands for it, and all else for what it did. -/
theorem index_forward (v : Values) (b : Box) (id : ValueId) (a : Operand) :
    (v.forward b id).index.get? a = if .box b = a then some id else v.index.get? a :=
  Bindings.get?_set ..

end TracePeel.Values
