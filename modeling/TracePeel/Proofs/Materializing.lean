import Mathlib.Data.List.Perm.Basic
import TracePeel.Proofs.Coherent

/-! What forcing writes.

The objects held back in a table form a graph: their fields lead to values, some of
them objects again, in any shape and round in circles too. Forcing a value makes of the
graph a list of operations.

`force_materializes`: each object that the value leads to is allocated once and each of
its fields written once, with what was last stored there, and nothing else is written.
No operation reads an object in front of its allocation. The objects so written are
ordinary values then, and all others stay as they were.

Of the fields this asks that none is listed twice, which holds of every table that was
filled by writing its slots (`Filled.listedOnce`), so `Filled.exists_materialized` asks
nothing of them. -/
namespace TracePeel.Values

open scoped List

/-! ### Tables of allocations held back -/

/-- Every object lists each of its fields once. -/
def ListedOnce (v : Values) : Prop :=
  ∀ id < v.slots.size, ∀ object ∈ (v.slot id).virtual, (object.fields.entries.map (·.1)).Nodup

instance (v : Values) : Decidable v.ListedOnce :=
  inferInstanceAs (Decidable (∀ id < v.slots.size, ∀ object ∈ (v.slot id).virtual,
    (object.fields.entries.map (·.1)).Nodup))

/-- Each object is an allocation that reads nothing and makes the operand of its slot,
no two have the same operand, and their fields hold values of the table. -/
structure Forceable (v : Values) : Prop where
  allocation : ∀ id < v.slots.size, ∀ object ∈ (v.slot id).virtual,
    object.allocation.opcode = .new ∧ object.allocation.args = [] ∧
      object.allocation.result.map .box = some (v.slot id).operand
  apart : ∀ id < v.slots.size, ∀ other < v.slots.size, (v.slot id).isVirtual = true →
    (v.slot other).isVirtual = true → (v.slot id).operand = (v.slot other).operand → id = other
  inside : ∀ id < v.slots.size, ∀ object ∈ (v.slot id).virtual,
    ∀ entry ∈ object.fields.entries, entry.2 < v.slots.size
  once : v.ListedOnce

theorem Forced.isVirtual {v v' : Values} (h : Forced v v') {id : ValueId}
    (hid : (v'.slot id).isVirtual = true) : v'.slot id = v.slot id := by
  rcases h.slot id with e | e
  · exact e
  · rw [e] at hid
    cases hid

/-- The allocation of an object makes the box of its slot. -/
theorem Forceable.result {v : Values} (hv : v.Forceable) {id : ValueId} {object : Virtual}
    (ho : (v.slot id).virtual = some object) {b : Box} (hb : (v.slot id).operand = .box b) :
    object.allocation.result = some b := by
  have hr := (hv.allocation id (lt_of_virtual ho) object ho).2.2
  rw [hb] at hr
  obtain ⟨r, hr, he⟩ := Option.map_eq_some_iff.1 hr
  cases he
  exact hr

/-- What holds of the objects of a table holds when there are fewer of them. -/
theorem Forceable.forced {v v' : Values} (hv : v.Forceable) (h : Forced v v') : v'.Forceable := by
  have kept : ∀ {id object}, object ∈ (v'.slot id).virtual →
      v'.slot id = v.slot id ∧ object ∈ (v.slot id).virtual := fun {id _} ho => by
    have he := h.isVirtual (isVirtual_of_eq ho)
    exact ⟨he, he ▸ ho⟩
  constructor
  case allocation =>
    intro id hid object ho
    obtain ⟨he, ho⟩ := kept ho
    rw [he]
    exact hv.allocation id (h.size ▸ hid) object ho
  case apart =>
    intro id hid other hother hi hj
    have hi' := h.isVirtual hi
    have hj' := h.isVirtual hj
    rw [hi'] at hi ⊢
    rw [hj'] at hj ⊢
    exact hv.apart id (h.size ▸ hid) other (h.size ▸ hother) hi hj
  case inside =>
    intro id hid object ho
    rw [h.size]
    exact hv.inside id (h.size ▸ hid) object (kept ho).2
  case once => exact fun id hid object ho => hv.once id (h.size ▸ hid) object (kept ho).2

/-! ### Objects are written field by field -/

/-- What was last stored in a field of an object is found there, and nothing else moves. -/
theorem field?_setField {v : Values} {id : ValueId} (h : (v.slot id).isVirtual = true)
    (name name' : String) (value other : ValueId) :
    (v.setField id name value).field? other name' =
      if other = id ∧ name' = name then some value else v.field? other name' := by
  obtain ⟨object, ho⟩ := Option.isSome_iff_exists.1 h
  rw [Values.field?, Values.field?, setField, slot_modifySlot]
  by_cases hid : other = id
  · subst hid
    simp only [lt_of_isVirtual h, ho, and_self, true_and, if_true, Option.map_some,
      Option.bind_some, Bindings.get?_set, eq_comm]
  · simp [hid]

/-- A table that was filled by meeting operands and by writing its slots. -/
inductive Filled : Values → Prop
  | empty : Filled {}
  | valueOf {v : Values} (a : Operand) : Filled v → Filled (v.valueOf a).2
  | forward {v : Values} (b : Box) (id : ValueId) : Filled v → Filled (v.forward b id)
  | makeConstant {v : Values} (id : ValueId) (c : Const) : Filled v → Filled (v.makeConstant id c)
  | makeNonNull {v : Values} (id : ValueId) : Filled v → Filled (v.makeNonNull id)
  | setClass {v : Values} (id : ValueId) (c : Const) : Filled v → Filled (v.setClass id c)
  | makeVirtual {v : Values} (op : Operation) : Filled v → Filled (v.makeVirtual op).2
  | setField {v : Values} (id : ValueId) (name : String) (value : ValueId) :
      Filled v → Filled (v.setField id name value)
  | force {v : Values} (id : ValueId) (out : Array Operation) :
      Filled v → Filled (v.force id out).2.1
  | markFromStart {v : Values} : Filled v → Filled v.markFromStart

theorem ListedOnce.modifySlot {v : Values} (h : v.ListedOnce) (id : ValueId) {f : Slot → Slot}
    (hf : ∀ object ∈ (f (v.slot id)).virtual, (object.fields.entries.map (·.1)).Nodup) :
    (v.modifySlot id f).ListedOnce := by
  intro j hj object ho
  rw [size_modifySlot] at hj
  rw [slot_modifySlot] at ho
  split at ho
  next he => exact hf object (he.1 ▸ ho)
  next => exact h j hj object ho

theorem ListedOnce.valueOf {v : Values} (h : v.ListedOnce) (a : Operand) :
    (v.valueOf a).2.ListedOnce := by
  intro j hj object ho
  rcases slot_valueOf_cases v a hj with ⟨hlt, he⟩ | ⟨-, -, he⟩ <;> rw [he] at ho
  · exact h j hlt object ho
  · cases ho

/-- Whatever is written to a table, an object in it lists each of its fields once. -/
theorem Filled.listedOnce {v : Values} (h : Filled v) : v.ListedOnce := by
  -- Writing a slot in a way that leaves its object alone.
  have same : ∀ {v : Values} (id : ValueId) {f : Slot → Slot}, v.ListedOnce →
      (f (v.slot id)).virtual = (v.slot id).virtual → (v.modifySlot id f).ListedOnce := by
    intro v id f hv hf
    refine hv.modifySlot id fun object ho => ?_
    rw [hf] at ho
    exact hv id (lt_of_virtual ho) object ho
  induction h with
  | empty => exact fun _ hid => absurd hid (Nat.not_lt_zero _)
  | valueOf a _ ih => exact ih.valueOf a
  | forward b id _ ih => exact ih
  | makeConstant id c _ ih => exact ih.modifySlot id (by simp)
  | makeNonNull id _ ih => exact same id ih (by split <;> rfl)
  | setClass id c _ ih => exact same id ih rfl
  | makeVirtual op _ ih =>
    unfold Values.makeVirtual
    split
    next => exact ih
    next r _ =>
      refine (ih.valueOf (.box r)).modifySlot _ fun object ho => ?_
      cases ho
      exact .nil
  | @setField v id name value _ ih =>
    refine ih.modifySlot id fun object ho => ?_
    obtain ⟨old, hold, rfl⟩ := Option.map_eq_some_iff.1 ho
    exact Bindings.nodup_put (ih id (lt_of_virtual hold) old hold)
  | @force v id out _ ih =>
    have hf := (v.force_performs id out).forced
    intro j hj object ho
    exact ih j (hf.size ▸ hj) object (hf.isVirtual (isVirtual_of_eq ho) ▸ ho)
  | @markFromStart v _ ih =>
    intro j hj object ho
    have hj' : j < v.slots.size := by simpa [Values.markFromStart] using hj
    refine ih j hj' object ?_
    rw [slot_of_lt hj] at ho
    rw [slot_of_lt hj']
    simpa [Values.markFromStart] using ho

/-! ### What an object amounts to -/

/-- The write of one field of an object. -/
def writeOf (v : Values) (object : Operand) (entry : String × ValueId) : Operation :=
  .setField object entry.1 (v.slot entry.2).operand

/-- The operations that an object held back amounts to; none for an ordinary value. -/
def materials (v : Values) (id : ValueId) : List Operation :=
  match (v.slot id).virtual with
  | none => []
  | some object =>
    object.allocation :: object.fields.entries.map (v.writeOf (v.slot id).operand)

theorem materials_of_virtual {v : Values} {id : ValueId} {object : Virtual}
    (h : (v.slot id).virtual = some object) :
    v.materials id =
      object.allocation :: object.fields.entries.map (v.writeOf (v.slot id).operand) := by
  rw [materials, h]

theorem Forced.writeOf {v v' : Values} (h : Forced v v') (object : Operand) :
    v'.writeOf object = v.writeOf object :=
  funext fun entry => by rw [Values.writeOf, Values.writeOf, h.operand]

theorem Forced.materials {v v' : Values} (h : Forced v v') {id : ValueId}
    (hid : (v'.slot id).isVirtual = true) : v'.materials id = v.materials id := by
  rw [Values.materials, Values.materials, h.isVirtual hid, h.writeOf]

/-- An object that forcing a value comes to. -/
inductive Reaches (v : Values) (start : ValueId) : ValueId → Prop
  | here : (v.slot start).isVirtual = true → Reaches v start start
  | field {id : ValueId} {object : Virtual} {entry : String × ValueId} : Reaches v start id →
      (v.slot id).virtual = some object → entry ∈ object.fields.entries →
      (v.slot entry.2).isVirtual = true → Reaches v start entry.2

namespace Reaches
variable {v v' : Values} {start mid id : ValueId}

theorem isVirtual (h : Reaches v start id) : (v.slot id).isVirtual = true := by
  cases h <;> assumption

theorem start_isVirtual (h : Reaches v start id) : (v.slot start).isVirtual = true := by
  induction h with
  | here hv => exact hv
  | field _ _ _ _ ih => exact ih

theorem trans (h₁ : Reaches v start mid) (h₂ : Reaches v mid id) : Reaches v start id := by
  induction h₂ with
  | here => exact h₁
  | field _ ho he hv ih => exact .field ih ho he hv

/-- With fewer objects held back, fewer are come to. -/
theorem of_forced (hf : Forced v v') (h : Reaches v' start id) : Reaches v start id := by
  induction h with
  | here hv => exact .here (hf.isVirtual hv ▸ hv)
  | field h ho he hv ih =>
    exact .field ih (hf.isVirtual h.isVirtual ▸ ho) he (hf.isVirtual hv ▸ hv)

end Reaches

/-! ### Reading nothing in front of its allocation -/

/-- Every box that is read is known or was made by an operation in front. -/
def Legal (known : Box → Prop) : List Operation → Prop
  | [] => True
  | op :: rest =>
    (∀ b, .box b ∈ op.args → known b) ∧ Legal (fun b => known b ∨ op.result = some b) rest

theorem Legal.mono {known known' : Box → Prop} {ops : List Operation} (h : Legal known ops)
    (hk : ∀ b, known b → known' b) : Legal known' ops := by
  induction ops generalizing known known' with
  | nil => trivial
  | cons op rest ih =>
    exact ⟨fun b hb => hk b (h.1 b hb), ih h.2 fun b => Or.imp_left (hk b)⟩

theorem Legal.append {known : Box → Prop} {ops ops' : List Operation} (h : Legal known ops)
    (h' : Legal (fun b => known b ∨ ∃ made ∈ ops, made.result = some b) ops') :
    Legal known (ops ++ ops') := by
  induction ops generalizing known with
  | nil => exact h'.mono (by simp)
  | cons op rest ih =>
    refine ⟨h.1, ih h.2 (h'.mono fun b hb => ?_)⟩
    rcases hb with hb | ⟨made, hm, hb⟩
    · exact .inl (.inl hb)
    · rcases List.mem_cons.1 hm with rfl | hm
      · exact .inl (.inr hb)
      · exact .inr ⟨made, hm, hb⟩

theorem Legal.reads {known : Box → Prop} {front behind : List Operation} {op : Operation}
    (h : Legal known (front ++ op :: behind)) {b : Box} (hb : .box b ∈ op.args) :
    known b ∨ ∃ made ∈ front, made.result = some b := by
  induction front generalizing known with
  | nil => exact .inl (h.1 b hb)
  | cons first front ih =>
    rcases ih h.2 with (hk | hr) | ⟨made, hm, hr⟩
    · exact .inl hk
    · exact .inr ⟨first, List.mem_cons_self .., hr⟩
    · exact .inr ⟨made, .tail _ hm, hr⟩

/-- The box of an ordinary value of the table. -/
def Real (v : Values) (b : Box) : Prop :=
  ∃ id < v.slots.size, (v.slot id).virtual = none ∧ (v.slot id).operand = .box b

theorem Forced.real {v v' : Values} (h : Forced v v') {b : Box} : v.Real b → v'.Real b := by
  rintro ⟨id, hlt, hv, hb⟩
  exact ⟨id, h.size ▸ hlt, h.virtual_eq_none hv, (h.operand id).trans hb⟩

/-! ### What a task does -/

/-- The values that a task starts from. -/
def Task.roots : Task → List ValueId
  | .value id => [id]
  | .fields _ entries => entries.map (·.2)

/-- The writes that a task itself stands for. -/
def Task.writes (v : Values) : Task → List Operation
  | .value _ => []
  | .fields object entries => entries.map (v.writeOf object)

/-- The object whose fields are to be written is there, and so are their values. -/
def Task.Allowed (v : Values) : Task → Prop
  | .value _ => True
  | .fields object entries =>
    (∀ b, object = .box b → v.Real b) ∧ ∀ entry ∈ entries, entry.2 < v.slots.size

/-- A task wrote `ops`: its own writes and all that the objects `ids` amount to. These
are ordinary values then and so is all that their fields hold. -/
structure Done (t : Task) (v v' : Values) (ops : List Operation) (ids : List ValueId) : Prop where
  forced : Forced v v'
  nodup : ids.Nodup
  objects : ∀ id ∈ ids, (v.slot id).isVirtual = true
  freed : ∀ id ∈ ids, (v'.slot id).virtual = none
  kept : ∀ id ∉ ids, v'.slot id = v.slot id
  count : v'.forced = v.forced + ids.length
  written : ops ~ t.writes v ++ ids.flatMap v.materials
  reached : ∀ id ∈ ids, ∃ root ∈ t.roots, v.Reaches root id
  roots : ∀ root ∈ t.roots, (v'.slot root).virtual = none
  closed : ∀ id ∈ ids, ∀ object, (v.slot id).virtual = some object →
    ∀ entry ∈ object.fields.entries, (v'.slot entry.2).virtual = none
  legal : Legal v.Real ops

namespace Done
variable {v v₁ v' : Values} {ops ops₁ ops₂ : List Operation} {ids ids₁ ids₂ : List ValueId}

theorem nothing {t : Task} (hw : t.writes v = [])
    (hr : ∀ root ∈ t.roots, (v.slot root).virtual = none) : Done t v v [] [] where
  forced := .refl v
  nodup := .nil
  objects := by simp
  freed := by simp
  kept _ _ := rfl
  count := rfl
  written := by rw [hw]; exact .nil
  reached := by simp
  roots := hr
  closed := by simp
  legal := trivial

/-- The box of an object written is made by one of the operations. -/
theorem made {t : Task} (h : Done t v v' ops ids) (hv : v.Forceable) {id : ValueId}
    (hid : id ∈ ids) {b : Box} (hb : (v.slot id).operand = .box b) :
    ∃ made ∈ ops, made.result = some b := by
  have hvirtual := h.objects id hid
  obtain ⟨object, ho⟩ := Option.isSome_iff_exists.1 hvirtual
  refine ⟨object.allocation, ?_, ?_⟩
  · refine h.written.mem_iff.2 (List.mem_append_right _ (List.mem_flatMap.2 ⟨id, hid, ?_⟩))
    rw [materials_of_virtual ho]
    exact List.mem_cons_self ..
  · exact hv.result ho hb

/-- What is an ordinary value afterwards was one before or was made on the way. -/
theorem real {t : Task} (h : Done t v v' ops ids) (hv : v.Forceable) {b : Box}
    (hb : v'.Real b) : v.Real b ∨ ∃ made ∈ ops, made.result = some b := by
  obtain ⟨id, hlt, hnone, hb⟩ := hb
  rw [h.forced.size] at hlt
  rw [h.forced.operand] at hb
  by_cases hid : id ∈ ids
  · exact .inr (h.made hv hid hb)
  · rw [h.kept id hid] at hnone
    exact .inl ⟨id, hlt, hnone, hb⟩

/-- An object is written: its allocation, and then its fields as of an ordinary value. -/
theorem object {id : ValueId} {object : Virtual} (hv : v.Forceable)
    (ho : (v.slot id).virtual = some object)
    (h : Done (.fields (v.slot id).operand object.fields.entries) (v.materialize id) v' ops ids) :
    Done (.value id) v v' (object.allocation :: ops) (id :: ids) := by
  have hm : Forced v (v.materialize id) := .materialize v id
  have hvirtual := isVirtual_of_eq ho
  have hother : ∀ j ∈ ids, (v.materialize id).slot j = v.slot j :=
    fun j hj => hm.isVirtual (h.objects j hj)
  have hnew : id ∉ ids := fun hid => by
    have := h.objects id hid
    rw [Slot.isVirtual, virtual_materialize] at this
    cases this
  have hslot : ∀ j, j ≠ id → (v.materialize id).slot j = v.slot j :=
    fun j hj => slot_modifySlot_of_ne _ hj
  constructor
  case forced => exact hm.trans h.forced
  case nodup => exact List.nodup_cons.2 ⟨hnew, h.nodup⟩
  case objects =>
    intro j hj
    rcases List.mem_cons.1 hj with rfl | hj
    · exact hvirtual
    · exact hother j hj ▸ h.objects j hj
  case freed =>
    intro j hj
    rcases List.mem_cons.1 hj with rfl | hj
    · exact h.forced.virtual_eq_none virtual_materialize
    · exact h.freed j hj
  case kept =>
    intro j hj
    rw [List.mem_cons, not_or] at hj
    exact (h.kept j hj.2).trans (hslot j hj.1)
  case count =>
    rw [h.count, List.length_cons]
    show v.forced + 1 + _ = _
    omega
  case written =>
    have hw := h.written
    rw [Task.writes, hm.writeOf, List.flatMap_congr fun j hj => hm.materials (h.objects j hj)] at hw
    simpa [Task.writes, materials_of_virtual ho] using hw.cons object.allocation
  case reached =>
    intro j hj
    refine ⟨id, List.mem_cons_self .., ?_⟩
    rcases List.mem_cons.1 hj with rfl | hj
    · exact .here hvirtual
    · obtain ⟨root, hroot, hr⟩ := h.reached j hj
      obtain ⟨entry, he, rfl⟩ := List.mem_map.1 hroot
      have hr := hr.of_forced hm
      exact .trans (.field (.here hvirtual) ho he hr.start_isVirtual) hr
  case roots =>
    intro root hroot
    cases List.mem_singleton.1 hroot
    exact h.forced.virtual_eq_none virtual_materialize
  case closed =>
    intro j hj other hother' entry he
    rcases List.mem_cons.1 hj with rfl | hj
    · cases ho.symm.trans hother'
      exact h.roots _ (List.mem_map_of_mem he)
    · exact h.closed j hj other (hother j hj ▸ hother') entry he
  case legal =>
    have hargs := (hv.allocation id (lt_of_virtual ho) object ho).2.1
    refine ⟨by simp [hargs], h.legal.mono ?_⟩
    rintro b ⟨j, hlt, hnone, hb⟩
    rw [hm.size] at hlt
    rw [hm.operand] at hb
    by_cases hj : j = id
    · subst hj
      exact .inr (hv.result ho hb)
    · exact .inl ⟨j, hlt, hslot j hj ▸ hnone, hb⟩

/-- A field is written: what its value needs, the write, and then the other fields. -/
theorem field {object : Operand} {entry : String × ValueId} {rest : List (String × ValueId)}
    (hv : v.Forceable) (ready : (Task.fields object (entry :: rest)).Allowed v)
    (h₁ : Done (.value entry.2) v v₁ ops₁ ids₁) (h₂ : Done (.fields object rest) v₁ v' ops₂ ids₂) :
    Done (.fields object (entry :: rest)) v v' (ops₁ ++ v₁.writeOf object entry :: ops₂)
      (ids₁ ++ ids₂) := by
  have hlater : ∀ j ∈ ids₂, v₁.slot j = v.slot j :=
    fun j hj => h₁.forced.isVirtual (h₂.objects j hj)
  have hentry := h₁.roots entry.2 (List.mem_cons_self ..)
  constructor
  case forced => exact h₁.forced.trans h₂.forced
  case nodup =>
    refine List.nodup_append.2 ⟨h₁.nodup, h₂.nodup, ?_⟩
    rintro j hj _ hj' rfl
    have := h₂.objects j hj'
    rw [Slot.isVirtual, h₁.freed j hj] at this
    cases this
  case objects =>
    intro j hj
    rcases List.mem_append.1 hj with hj | hj
    · exact h₁.objects j hj
    · exact hlater j hj ▸ h₂.objects j hj
  case freed =>
    intro j hj
    rcases List.mem_append.1 hj with hj | hj
    · exact h₂.forced.virtual_eq_none (h₁.freed j hj)
    · exact h₂.freed j hj
  case kept =>
    intro j hj
    rw [List.mem_append, not_or] at hj
    exact (h₂.kept j hj.2).trans (h₁.kept j hj.1)
  case count =>
    rw [h₂.count, h₁.count, List.length_append, Nat.add_assoc]
  case written =>
    have hw₁ : ops₁ ~ ids₁.flatMap v.materials := h₁.written
    have hw₂ := h₂.written
    rw [Task.writes, h₁.forced.writeOf,
      List.flatMap_congr fun j hj => h₁.forced.materials (h₂.objects j hj)] at hw₂
    rw [h₁.forced.writeOf, Task.writes, List.map_cons, List.cons_append, List.flatMap_append]
    calc ops₁ ++ v.writeOf object entry :: ops₂
      _ ~ v.writeOf object entry :: (ops₁ ++ ops₂) := List.perm_middle
      _ ~ v.writeOf object entry :: (ids₁.flatMap v.materials ++
            (rest.map (v.writeOf object) ++ ids₂.flatMap v.materials)) :=
          (hw₁.append hw₂).cons _
      _ ~ v.writeOf object entry :: (rest.map (v.writeOf object) ++
            (ids₁.flatMap v.materials ++ ids₂.flatMap v.materials)) :=
          (List.perm_append_comm_assoc ..).cons _
  case reached =>
    intro j hj
    rcases List.mem_append.1 hj with hj | hj
    · obtain ⟨root, hroot, hr⟩ := h₁.reached j hj
      cases List.mem_singleton.1 hroot
      exact ⟨entry.2, List.mem_cons_self .., hr⟩
    · obtain ⟨root, hroot, hr⟩ := h₂.reached j hj
      exact ⟨root, .tail _ hroot, hr.of_forced h₁.forced⟩
  case roots =>
    intro root hroot
    rcases List.mem_cons.1 hroot with rfl | hroot
    · exact h₂.forced.virtual_eq_none hentry
    · exact h₂.roots root hroot
  case closed =>
    intro j hj other hother e he
    rcases List.mem_append.1 hj with hj | hj
    · exact h₂.forced.virtual_eq_none (h₁.closed j hj other hother e he)
    · exact h₂.closed j hj other (hlater j hj ▸ hother) e he
  case legal =>
    refine h₁.legal.append ⟨fun b hb => ?_, h₂.legal.mono fun b hb => .inl (h₁.real hv hb)⟩
    refine h₁.real hv ?_
    rcases List.mem_pair.1 hb with rfl | hb
    · exact h₁.forced.real (ready.1 b rfl)
    · exact ⟨entry.2, h₁.forced.size ▸ ready.2 entry (List.mem_cons_self ..), hentry, hb.symm⟩

end Done

/-- Whatever is to be done, this is what comes of it. -/
theorem Performs.done {t : Task} {s s' : Values × Array Operation} (h : Performs t s s')
    (hv : s.1.Forceable) (ready : t.Allowed s.1) :
    ∃ (ops : List Operation) (ids : List ValueId), s'.2 = s.2 ++ ops ∧ Done t s.1 s'.1 ops ids := by
  induction h with
  | real hnone => exact ⟨[], [], by simp, .nothing rfl (by simpa [Task.roots] using hnone)⟩
  | written => exact ⟨[], [], by simp, .nothing rfl (by simp [Task.roots])⟩
  | @object id v out object s ho _ ih =>
    have hm : Forced v (v.materialize id) := .materialize v id
    have hlt := lt_of_virtual ho
    obtain ⟨ops, ids, hout, hd⟩ := ih (hv.forced hm)
      ⟨fun b hb => ⟨id, hm.size ▸ hlt, virtual_materialize, (hm.operand id).trans hb⟩,
        fun entry he => hm.size ▸ hv.inside id hlt object ho entry he⟩
    exact ⟨object.allocation :: ops, id :: ids, by simp [hout], .object hv ho hd⟩
  | @field object name value rest s s' v out h₁ _ ih₁ ih₂ =>
    obtain ⟨ops₁, ids₁, hout₁, hd₁⟩ := ih₁ hv trivial
    obtain ⟨ops₂, ids₂, hout₂, hd₂⟩ := ih₂ (hv.forced h₁.forced)
      ⟨fun b hb => h₁.forced.real (ready.1 b hb),
        fun entry he => h₁.forced.size ▸ ready.2 entry (.tail _ he)⟩
    refine ⟨_, _, ?_, .field hv ready hd₁ hd₂⟩
    rw [hout₂]
    exact Array.ext' (by simp [show out = s.2 ++ ops₁ from hout₁, writeOf])

/-! ### What forcing a value does -/

/-- A value comes to exactly the objects that were written. -/
theorem Done.mem_iff {v v' : Values} {start id : ValueId} {ops : List Operation}
    {ids : List ValueId} (h : Done (.value start) v v' ops ids) :
    id ∈ ids ↔ v.Reaches start id := by
  have mem_of_none : ∀ {j}, (v.slot j).isVirtual = true → (v'.slot j).virtual = none → j ∈ ids := by
    intro j hj hnone
    by_contra hn
    rw [Slot.isVirtual, ← h.kept j hn, hnone] at hj
    cases hj
  constructor
  · intro hid
    obtain ⟨root, hroot, hr⟩ := h.reached id hid
    cases List.mem_singleton.1 hroot
    exact hr
  · intro hr
    induction hr with
    | here hv => exact mem_of_none hv (h.roots start (List.mem_cons_self ..))
    | field _ ho he hv ih => exact mem_of_none hv (h.closed _ ih _ ho _ he)

/-- Whether an operation makes the box `a`. -/
def makes (a : Operand) (op : Operation) : Bool :=
  op.result.map .box == some a

/-- Whether an operation writes the field `name` of `object`. -/
def writesField (object : Operand) (name : String) (op : Operation) : Bool :=
  op.opcode == .setfieldGc && op.args.head? == some object && op.descr == some (.field name)

/-- The objects that `start` comes to were written as `ops`. -/
structure Materialized (v : Values) (start : ValueId) (ops : List Operation) (v' : Values) :
    Prop where
  allocated : ∀ id, v.Reaches start id → ∀ object, (v.slot id).virtual = some object →
    ops.filter (makes (v.slot id).operand) = [object.allocation]
  stored : ∀ id, v.Reaches start id → ∀ name,
    ops.filter (writesField (v.slot id).operand name) =
      ((v.field? id name).map fun value =>
        .setField (v.slot id).operand name (v.slot value).operand).toList
  only : ∀ op ∈ ops, ∃ id object, v.Reaches start id ∧ (v.slot id).virtual = some object ∧
    (op = object.allocation ∨ ∃ name value, v.field? id name = some value ∧
      op = .setField (v.slot id).operand name (v.slot value).operand)
  inOrder : ∀ front op behind, ops = front ++ op :: behind → ∀ b, .box b ∈ op.args →
    v.Real b ∨ ∃ made ∈ front, made.opcode = .new ∧ made.result = some b
  freed : ∀ id, v.Reaches start id → v'.slot id = {v.slot id with virtual := none}
  kept : ∀ id, ¬ v.Reaches start id → v'.slot id = v.slot id
  size : v'.slots.size = v.slots.size
  index : v'.index = v.index
  count : v'.forced = v.forced + ops.countP (·.opcode == .new)

/-! ### Singling out one operation -/

/-- Where each key stands once, the pairs under a key are what is found there. -/
theorem filter_entries {name : String} {entries : List (String × ValueId)}
    (h : (entries.map (·.1)).Nodup) :
    entries.filter (·.1 == name) = ((Bindings.find name entries).map (name, ·)).toList := by
  induction entries with
  | nil => rfl
  | cons entry rest ih =>
    obtain ⟨key, value⟩ := entry
    obtain ⟨hkey, hrest⟩ := List.nodup_cons.1 h
    by_cases he : key = name
    · subst he
      have hnone : rest.filter (·.1 == key) = [] := by
        refine List.filter_eq_nil_iff.2 fun p hp heq => hkey ?_
        exact List.mem_map.2 ⟨p, hp, beq_iff_eq.1 heq⟩
      simp [Bindings.find, hnone]
    · simp [Bindings.find, he, ih hrest]

/-- A field that an object lists is found in it. -/
theorem Forceable.field? {v : Values} (hv : v.Forceable) {id : ValueId} {object : Virtual}
    (ho : (v.slot id).virtual = some object) {entry : String × ValueId}
    (he : entry ∈ object.fields.entries) : v.field? id entry.1 = some entry.2 := by
  have hmem : entry ∈ object.fields.entries.filter (·.1 == entry.1) := by simp [he]
  rw [filter_entries (hv.once id (lt_of_virtual ho) object ho)] at hmem
  obtain ⟨value, hfind, heq⟩ := Option.map_eq_some_iff.1 (Option.mem_toList.1 hmem)
  rw [Values.field?, ho, ← heq]
  exact hfind

/-- What only one of several parts holds is all that is found in them together. -/
theorem flatMap_eq_of_only {ids : List ValueId} {f : ValueId → List Operation} {id : ValueId}
    (hn : ids.Nodup) (hid : id ∈ ids) (h : ∀ other ∈ ids, other ≠ id → f other = []) :
    ids.flatMap f = f id := by
  obtain ⟨front, behind, rfl⟩ := List.append_of_mem hid
  obtain ⟨hfront, hbehind⟩ : id ∉ front ∧ id ∉ behind := by
    simpa [List.nodup_middle] using (List.nodup_cons.1 (List.nodup_middle.1 hn)).1
  have hf : front.flatMap f = [] := List.flatMap_eq_nil_iff.2 fun other ho =>
    h other (by simp [ho]) fun he => hfront (he ▸ ho)
  have hb : behind.flatMap f = [] := List.flatMap_eq_nil_iff.2 fun other ho =>
    h other (by simp [ho]) fun he => hbehind (he ▸ ho)
  simp [hf, hb]

/-- The operation that makes an object stands among what the object amounts to, alone. -/
theorem Forceable.filter_makes {v : Values} (hv : v.Forceable) {id other : ValueId}
    {object : Virtual} (hid : (v.slot id).isVirtual = true)
    (ho : (v.slot other).virtual = some object) :
    (v.materials other).filter (makes (v.slot id).operand) =
      if other = id then [object.allocation] else [] := by
  have hlt := lt_of_virtual ho
  have hwrites : ∀ entries : List (String × ValueId),
      (entries.map (v.writeOf (v.slot other).operand)).filter (makes (v.slot id).operand) = [] :=
    fun entries => List.filter_eq_nil_iff.2 fun op hop => by
      obtain ⟨entry, -, rfl⟩ := List.mem_map.1 hop
      simp [makes, writeOf, Operation.setField]
  have hmakes : makes (v.slot id).operand object.allocation = decide (other = id) := by
    rw [makes, (hv.allocation other hlt object ho).2.2, Bool.eq_iff_iff]
    simp only [beq_iff_eq, Option.some.injEq, decide_eq_true_eq]
    exact ⟨hv.apart other hlt id (lt_of_isVirtual hid) (isVirtual_of_eq ho) hid,
      fun he => he ▸ rfl⟩
  rw [materials_of_virtual ho, List.filter_cons, hwrites, hmakes]
  simp

/-- The write of a field stands among what its object amounts to, alone. -/
theorem Forceable.filter_writesField {v : Values} (hv : v.Forceable) {id other : ValueId}
    {object : Virtual} (hid : (v.slot id).isVirtual = true)
    (ho : (v.slot other).virtual = some object) (name : String) :
    (v.materials other).filter (writesField (v.slot id).operand name) =
      if other = id then
        ((v.field? id name).map fun value =>
          .setField (v.slot id).operand name (v.slot value).operand).toList
      else [] := by
  have hlt := lt_of_virtual ho
  have halloc : writesField (v.slot id).operand name object.allocation = false := by
    simp [writesField, (hv.allocation other hlt object ho).1]
  rw [materials_of_virtual ho, List.filter_cons, halloc, if_neg (by simp), List.filter_map]
  split
  next he =>
    subst he
    have hwrites : writesField (v.slot other).operand name ∘ v.writeOf (v.slot other).operand =
        fun entry => entry.1 == name := by
      funext entry
      rw [Bool.eq_iff_iff]
      simp [writesField, writeOf, Operation.setField]
    rw [hwrites, filter_entries (hv.once other hlt object ho), Values.field?, ho]
    cases h : Bindings.find name object.fields.entries <;> simp [Bindings.get?, h, writeOf]
  next hne =>
    have hoperand : (v.slot other).operand ≠ (v.slot id).operand := fun he =>
      hne (hv.apart other hlt id (lt_of_isVirtual hid) (isVirtual_of_eq ho) hid he)
    rw [List.map_eq_nil_iff, List.filter_eq_nil_iff]
    simp [writesField, writeOf, Operation.setField, hoperand]

/-- One allocation stands among what an object amounts to. -/
theorem Forceable.countP_new {v : Values} (hv : v.Forceable) {id : ValueId} {object : Virtual}
    (ho : (v.slot id).virtual = some object) :
    (v.materials id).countP (·.opcode == .new) = 1 := by
  have hwrites : ∀ entries : List (String × ValueId),
      (entries.map (v.writeOf (v.slot id).operand)).countP (·.opcode == .new) = 0 :=
    fun entries => List.countP_eq_zero.2 fun op hop => by
      obtain ⟨entry, -, rfl⟩ := List.mem_map.1 hop
      simp [writeOf, Operation.setField]
  rw [materials_of_virtual ho, List.countP_cons, hwrites,
    (hv.allocation id (lt_of_virtual ho) object ho).1]
  rfl

/-! ### The whole of it -/

section
variable {v v' : Values} {start : ValueId} {ops : List Operation} {ids : List ValueId}

/-- Of all that was written, what singles out a part of one object is that part. -/
theorem Done.filter_eq (h : Done (.value start) v v' ops ids) {id : ValueId}
    (hr : v.Reaches start id) {p : Operation → Bool} {part : List Operation}
    (hlen : part.length ≤ 1)
    (hpart : ∀ other ∈ ids, (v.materials other).filter p = if other = id then part else []) :
    ops.filter p = part := by
  have hid := h.mem_iff.2 hr
  have hmaterials : (ids.flatMap v.materials).filter p = part := by
    calc (ids.flatMap v.materials).filter p
      _ = ids.flatMap fun other => (v.materials other).filter p := List.filter_flatMap ..
      _ = (v.materials id).filter p := flatMap_eq_of_only h.nodup hid fun other ho hne => by
          rw [hpart other ho, if_neg hne]
      _ = part := by rw [hpart id hid, if_pos rfl]
  have hwritten : ops ~ ids.flatMap v.materials := h.written
  have hperm : ops.filter p ~ part := hmaterials ▸ hwritten.filter p
  cases part with
  | nil => exact List.perm_nil.1 hperm
  | cons first rest =>
    obtain rfl : rest = [] := by simpa using hlen
    exact List.perm_singleton.1 hperm

/-- Nothing is written but allocations and fields of the objects that are come to. -/
theorem Done.only (hv : v.Forceable) (h : Done (.value start) v v' ops ids) {op : Operation}
    (hop : op ∈ ops) :
    ∃ id object, v.Reaches start id ∧ (v.slot id).virtual = some object ∧
      (op = object.allocation ∨ ∃ name value, v.field? id name = some value ∧
        op = .setField (v.slot id).operand name (v.slot value).operand) := by
  have hwritten : ops ~ ids.flatMap v.materials := h.written
  obtain ⟨id, hid, hmem⟩ := List.mem_flatMap.1 (hwritten.mem_iff.1 hop)
  obtain ⟨object, ho⟩ := Option.isSome_iff_exists.1 (h.objects id hid)
  refine ⟨id, object, h.mem_iff.1 hid, ho, ?_⟩
  rw [materials_of_virtual ho] at hmem
  rcases List.mem_cons.1 hmem with rfl | hmem
  · exact .inl rfl
  · obtain ⟨entry, he, rfl⟩ := List.mem_map.1 hmem
    exact .inr ⟨entry.1, entry.2, hv.field? ho he, rfl⟩

theorem Done.countP_new (hv : v.Forceable) (h : Done (.value start) v v' ops ids) :
    ops.countP (·.opcode == .new) = ids.length := by
  have hwritten : ops ~ ids.flatMap v.materials := h.written
  have hone : ids.map (fun id => (v.materials id).countP (·.opcode == .new)) =
      ids.map fun _ => 1 := List.map_congr_left fun id hid => by
    obtain ⟨object, ho⟩ := Option.isSome_iff_exists.1 (h.objects id hid)
    exact hv.countP_new ho
  calc ops.countP (·.opcode == .new)
    _ = (ids.flatMap v.materials).countP (·.opcode == .new) := hwritten.countP_eq _
    _ = (ids.map fun id => (v.materials id).countP (·.opcode == .new)).sum :=
        List.countP_flatMap ..
    _ = ids.length := by simp [hone]

theorem Done.materialized (hv : v.Forceable) (h : Done (.value start) v v' ops ids) :
    Materialized v start ops v' where
  allocated id hr object ho := by
    refine h.filter_eq hr le_rfl fun other hother => ?_
    obtain ⟨_, ho'⟩ := Option.isSome_iff_exists.1 (h.objects other hother)
    rw [hv.filter_makes hr.isVirtual ho']
    split
    next he =>
      subst he
      rw [Option.some.inj (ho'.symm.trans ho)]
    next => rfl
  stored id hr name := by
    refine h.filter_eq hr (by cases v.field? id name <;> simp) fun other hother => ?_
    obtain ⟨_, ho'⟩ := Option.isSome_iff_exists.1 (h.objects other hother)
    exact hv.filter_writesField hr.isVirtual ho' name
  only op hop := h.only hv hop
  inOrder := by
    rintro front op behind rfl b hb
    rcases h.legal.reads hb with hk | ⟨made, hm, hr⟩
    · exact .inl hk
    · refine .inr ⟨made, hm, ?_, hr⟩
      obtain ⟨id, object, -, ho, rfl | ⟨_, _, -, rfl⟩⟩ := h.only hv (List.mem_append_left _ hm)
      · exact (hv.allocation id (lt_of_virtual ho) object ho).1
      · cases hr
  freed id hr := by
    have hnone := h.freed id (h.mem_iff.2 hr)
    rcases h.forced.slot id with he | he
    · rw [he] at hnone ⊢
      rw [← hnone]
    · exact he
  kept id hr := h.kept id fun hid => hr (h.mem_iff.1 hid)
  size := h.forced.size
  index := h.forced.index
  count := by rw [h.count, h.countP_new hv]

end

/-- The objects that a value leads to become operations behind the list. -/
theorem Forceable.exists_materialized {v : Values} (hv : v.Forceable) (start : ValueId)
    (out : Array Operation) : ∃ ops : List Operation,
      (v.force start out).2.2 = out ++ ops ∧ Materialized v start ops (v.force start out).2.1 := by
  obtain ⟨ops, ids, hout, hdone⟩ := (v.force_performs start out).done hv trivial
  exact ⟨ops, hout, hdone.materialized hv⟩

theorem force_materializes {v : Values} (hv : v.Forceable) (start : ValueId)
    (out : Array Operation) :
    ∃ (ops : List Operation) (v' : Values),
      v.force start out = ((v.slot start).operand, v', out ++ ops) ∧
      Performs (.value start) (v, out) (v', out ++ ops) ∧
      (∀ depth ≥ v.slots.size, forceWithin depth start (v, out) = (v', out ++ ops)) ∧
      Materialized v start ops v' ∧
      ∀ out', v'.force start out' = ((v.slot start).operand, v', out') := by
  have hperforms := v.force_performs start out
  obtain ⟨ops, hout, hmaterialized⟩ := hv.exists_materialized start out
  refine ⟨ops, (v.force start out).2.1, ?_, ?_, fun depth hdepth => ?_, hmaterialized,
    fun out' => ?_⟩
  · rw [← hout, ← v.force_operand start out]
  · rw [← hout]
    exact hperforms
  · rw [← hout]
    exact (forceWithin_performs (s := (v, out)) (v.held_card_le.trans hdepth)).unique hperforms
  · rw [← hperforms.forced.operand start]
    exact force_of_real hperforms.virtual_eq_none out'

/-- Two objects that hold each other, the first itself too and in a field written twice,
and a third that holds both and a number. -/
def knot : Values :=
  let allocate (b : Nat) : Operation := { opcode := .new, args := [], result := some ⟨b, .ref⟩ }
  let v := (makeVirtual (makeVirtual (makeVirtual {} (allocate 0)).2 (allocate 1)).2 (allocate 2)).2
  let v := (v.valueOf (.const (.int 7))).2
  let v := ((v.setField 0 "next" 3).setField 0 "next" 1).setField 0 "self" 0
  let v := v.setField 1 "back" 0
  ((v.setField 2 "left" 0).setField 2 "right" 1).setField 2 "value" 3

theorem knot_materializes : knot.Forceable ∧
    ∃ (ops : List Operation) (v' : Values),
      knot.force 2 #[] = ((knot.slot 2).operand, v', (#[] : Array Operation) ++ ops) ∧
      Performs (.value 2) (knot, #[]) (v', (#[] : Array Operation) ++ ops) ∧
      (∀ depth ≥ knot.slots.size,
        forceWithin depth 2 (knot, #[]) = (v', (#[] : Array Operation) ++ ops)) ∧
      Materialized knot 2 ops v' ∧
      ∀ out', v'.force 2 out' = ((knot.slot 2).operand, v', out') := by
  have h : knot.Forceable :=
    ⟨by decide +kernel, by decide +kernel, by decide +kernel, by decide +kernel⟩
  exact ⟨h, force_materializes h 2 #[]⟩

example : (knot.force 2 #[]).2.2.toList.map (·.opcode) =
    [.new, .new, .new, .setfieldGc, .setfieldGc, .setfieldGc, .setfieldGc, .setfieldGc,
      .setfieldGc] := by
  decide +kernel

/-! ### Tables that were filled -/

/-- In a table that is in order and was filled by writing its slots, each object can be forced
whose allocation reads nothing. -/
theorem Filled.forceable {v : Values} (h : Filled v) (ht : v.Tidy)
    (hargs : ∀ id object, (v.slot id).virtual = some object → object.allocation.args = []) :
    v.Forceable := by
  refine ⟨fun id hid object ho => ?_, fun id hid other hother hi hj he => ?_,
    fun id hid object ho entry hentry => ?_, h.listedOnce⟩
  · obtain ⟨-, hintact, r, hr, hoperand⟩ := (ht.slots id hid).held object ho
    exact ⟨hintact.1, hargs id object ho, by rw [hr, hoperand]; rfl⟩
  · obtain ⟨object, ho⟩ := Option.isSome_iff_exists.1 hi
    obtain ⟨-, -, r, -, hoperand⟩ := (ht.slots id hid).held object ho
    exact Option.some.inj ((ht.home id r hoperand).symm.trans (ht.home other r (he ▸ hoperand)))
  · exact (ht.intact.held id object ho).2 _ _ hentry

theorem Filled.exists_materialized {v : Values} (h : Filled v) (ht : v.Tidy)
    (hargs : ∀ id object, (v.slot id).virtual = some object → object.allocation.args = [])
    (start : ValueId) (out : Array Operation) : ∃ ops : List Operation,
      (v.force start out).2.2 = out ++ ops ∧ Materialized v start ops (v.force start out).2.1 :=
  (h.forceable ht hargs).exists_materialized start out

/-- What was stored last in a field of an object is what forcing writes there, and it is written
once. -/
theorem Filled.exists_stored {v : Values} (h : Filled v) (ht : v.Tidy)
    (hargs : ∀ id object, (v.slot id).virtual = some object → object.allocation.args = [])
    {id value : ValueId} (hid : (v.slot id).isVirtual = true) (hvalue : value < v.slots.size)
    (name : String) {start : ValueId} (hr : (v.setField id name value).Reaches start id)
    (out : Array Operation) : ∃ ops : List Operation,
      ((v.setField id name value).force start out).2.2 = out ++ ops ∧
      ops.filter (writesField (v.slot id).operand name) =
        [.setField (v.slot id).operand name (v.slot value).operand] := by
  have hoperand : ∀ other, ((v.setField id name value).slot other).operand =
      (v.slot other).operand := by
    intro other
    rw [Values.setField, slot_modifySlot]
    split
    next he => rw [he.1]
    next => rfl
  have hargs' : ∀ other object, ((v.setField id name value).slot other).virtual = some object →
      object.allocation.args = [] := by
    intro other object ho
    rw [Values.setField, slot_modifySlot] at ho
    split at ho
    next =>
      obtain ⟨old, hold, rfl⟩ := Option.map_eq_some_iff.1 ho
      exact hargs other old hold
    next => exact hargs other object ho
  have htidy := (ht.setField (lt_of_isVirtual hid) name hvalue).tidy
  obtain ⟨ops, hout, hmaterialized⟩ :=
    (h.setField id name value).exists_materialized htidy hargs' start out
  refine ⟨ops, hout, ?_⟩
  have hstored := hmaterialized.stored id hr name
  rw [field?_setField hid, if_pos ⟨rfl, rfl⟩, hoperand] at hstored
  rw [hstored, Option.map_some, hoperand]
  rfl

end TracePeel.Values
