import Mathlib.Algebra.BigOperators.Intervals
import Mathlib.Algebra.Order.BigOperators.Group.Finset
import TracePeel.Proofs.Peeling.Retracing

/-! Forcing is paid for.

Where a value is forced, several operations may be written at once, and none of them stands for
the operation that asks for the value. Each stands for one that was left out before: the
allocation that was held back, or a write to one of its fields. `owed` counts the operations that
are left out in this way, so they are a credit. An operation that is sent either is written or
adds one to what is owed, and forcing writes no more than it pays off. `Affords` says this of a
stretch of the way, and that every object was held back before it was forced. -/
namespace TracePeel

/-- What forcing the value writes for itself: its allocation and a write for each field. -/
def Slot.cost (s : Slot) : Nat :=
  s.virtual.elim 0 fun object => object.fields.size + 1

namespace Values

/-- A count over all slots. -/
def total (g : Slot → Nat) (v : Values) : Nat :=
  ∑ id ∈ Finset.range v.slots.size, g (v.slot id)

/-- What forcing all objects of the table would write. -/
def owed (v : Values) : Nat :=
  v.total Slot.cost

/-- The objects that were forced and those that are still held back. -/
def objects (v : Values) : Nat :=
  v.forced + v.total fun s => s.isVirtual.toNat

/-! ### One change of the table -/

section
variable {g : Slot → Nat} {v v₁ v₂ : Values} {id : ValueId} {f : Slot → Slot} {i j k l : Nat}

theorem total_congr (hsize : v₁.slots.size = v.slots.size)
    (h : ∀ id < v.slots.size, g (v₁.slot id) = g (v.slot id)) : v₁.total g = v.total g := by
  unfold total
  rw [hsize]
  exact Finset.sum_congr rfl fun id hid => h id (Finset.mem_range.1 hid)

theorem total_push (a : Operand) (s : Slot) : (v.push a s).total g = v.total g + g s := by
  unfold total
  rw [size_push, Finset.sum_range_succ, slot_push_self]
  congr 1
  exact Finset.sum_congr rfl fun id hid => by rw [slot_push_of_lt v a s (Finset.mem_range.1 hid)]

theorem total_modifySlot (hid : id < v.slots.size) :
    (v.modifySlot id f).total g + g (v.slot id) = v.total g + g (f (v.slot id)) := by
  have hmem : id ∈ Finset.range v.slots.size := Finset.mem_range.2 hid
  have hothers : ∑ j ∈ (Finset.range v.slots.size).erase id, g ((v.modifySlot id f).slot j) =
      ∑ j ∈ (Finset.range v.slots.size).erase id, g (v.slot j) :=
    Finset.sum_congr rfl fun j hj => by rw [slot_modifySlot_of_ne f (Finset.ne_of_mem_erase hj)]
  have hbefore : g (v.slot id) + ∑ j ∈ (Finset.range v.slots.size).erase id, g (v.slot j) =
      v.total g := Finset.add_sum_erase _ (fun j => g (v.slot j)) hmem
  have hafter : g (f (v.slot id)) + ∑ j ∈ (Finset.range v.slots.size).erase id, g (v.slot j) =
      (v.modifySlot id f).total g := by
    rw [total, size_modifySlot, ← hothers, ← slot_modifySlot_self f hid]
    exact Finset.add_sum_erase _ (fun j => g ((v.modifySlot id f).slot j)) hmem
  omega

theorem total_modifySlot_le (h : g (f (v.slot id)) ≤ g (v.slot id) + k) :
    (v.modifySlot id f).total g ≤ v.total g + k := by
  by_cases hid : id < v.slots.size
  · have := total_modifySlot (g := g) (f := f) hid
    omega
  · have hsame : (v.modifySlot id f).total g = v.total g :=
      total_congr (size_modifySlot ..) fun j hj => by
        have hne : j ≠ id := fun he => hid (he ▸ hj)
        rw [slot_modifySlot_of_ne f hne]
    rw [hsame]
    exact Nat.le_add_right ..

/-- What objects that are kept would write is still owed. -/
theorem owed_le_of_kept (h : ∀ id object, (v.slot id).virtual = some object →
    v₁.slot id = v.slot id) : v.owed ≤ v₁.owed := by
  have hheld : ∀ id, (v.slot id).cost ≠ 0 → v₁.slot id = v.slot id ∧ id < v₁.slots.size := by
    intro id hcost
    cases hv : (v.slot id).virtual with
    | none =>
      rw [Slot.cost, hv] at hcost
      exact absurd rfl hcost
    | some object =>
      have hsame := h id object hv
      exact ⟨hsame, lt_of_virtual (hsame ▸ hv)⟩
  calc v.owed
      = ∑ id ∈ Finset.range v.slots.size, (v.slot id).cost := rfl
    _ ≤ ∑ id ∈ Finset.range v₁.slots.size, (v.slot id).cost :=
        Finset.sum_le_sum_of_ne_zero fun id _ hcost => Finset.mem_range.2 (hheld id hcost).2
    _ ≤ v₁.owed := Finset.sum_le_sum fun id _ => by
        by_cases hcost : (v.slot id).cost = 0
        · rw [hcost]
          exact Nat.zero_le _
        · rw [(hheld id hcost).1]

/-- At most `k` more operations are owed, and there are at most `j` more objects. -/
structure Charged (k j : Nat) (v v' : Values) : Prop where
  owed : v'.owed ≤ v.owed + k
  objects : v'.objects ≤ v.objects + j

namespace Charged

theorem refl (v : Values) : Charged 0 0 v v :=
  ⟨Nat.le_refl _, Nat.le_refl _⟩

theorem trans (h₁ : Charged k j v v₁) (h₂ : Charged l i v₁ v₂) : Charged (k + l) (j + i) v v₂ := by
  have howed₁ := h₁.owed
  have howed₂ := h₂.owed
  have hobjects₁ := h₁.objects
  have hobjects₂ := h₂.objects
  constructor <;> omega

theorem push (a : Operand) {s : Slot} (hs : s.virtual = none) : Charged 0 0 v (v.push a s) := by
  have hcost : s.cost = 0 := by rw [Slot.cost, hs]; rfl
  have hheld : s.isVirtual.toNat = 0 := by rw [Slot.isVirtual, hs]; rfl
  constructor
  · rw [Values.owed, total_push, hcost, Values.owed]
  · show v.forced + (v.push a s).total _ ≤ _
    rw [total_push, hheld]
    exact Nat.le_refl _

theorem modifySlot (hcost : (f (v.slot id)).cost ≤ (v.slot id).cost + k)
    (hheld : (f (v.slot id)).isVirtual.toNat ≤ (v.slot id).isVirtual.toNat + j) :
    Charged k j v (v.modifySlot id f) := by
  refine ⟨total_modifySlot_le hcost, ?_⟩
  show v.forced + (v.modifySlot id f).total _ ≤ v.forced + v.total _ + j
  have := total_modifySlot_le (g := fun s => s.isVirtual.toNat) hheld
  omega

theorem valueOf (v : Values) (a : Operand) : Charged 0 0 v (v.valueOf a).2 := by
  cases hget : v.index.get? a with
  | some id =>
    rw [valueOf_known hget]
    exact .refl v
  | none =>
    rw [valueOf_new hget]
    exact push a rfl

theorem forward (v : Values) (b : Box) (id : ValueId) : Charged 0 0 v (v.forward b id) :=
  ⟨Nat.le_refl _, Nat.le_refl _⟩

theorem makeConstant (v : Values) (id : ValueId) (c : Const) :
    Charged 0 0 v (v.makeConstant id c) :=
  modifySlot (Nat.zero_le _) (Nat.zero_le _)

theorem makeNonNull (v : Values) (id : ValueId) : Charged 0 0 v (v.makeNonNull id) := by
  refine modifySlot ?_ ?_ <;> split <;> exact Nat.le_refl _

theorem setClass (v : Values) (id : ValueId) (c : Const) : Charged 0 0 v (v.setClass id c) :=
  modifySlot (Nat.le_refl _) (Nat.le_refl _)

/-- A field that was not written before is one more write that is owed. -/
theorem setField (v : Values) (id : ValueId) (name : String) (value : ValueId) :
    Charged 1 0 v (v.setField id name value) := by
  refine modifySlot ?_ ?_
  · show ((v.slot id).virtual.map _).elim 0 _ ≤ _
    rw [Slot.cost]
    cases (v.slot id).virtual with
    | none => exact Nat.zero_le _
    | some object =>
      show (object.fields.set name value).size + 1 ≤ object.fields.size + 1 + 1
      rw [Bindings.size_set]
      split <;> omega
  · show ((v.slot id).virtual.map _).isSome.toNat ≤ _
    rw [Option.isSome_map]
    exact Nat.le_refl _

/-- An allocation that is held back is owed. -/
theorem makeVirtual (v : Values) (op : Operation) : Charged 1 1 v (v.makeVirtual op).2 := by
  unfold Values.makeVirtual
  cases op.result with
  | none => exact ⟨Nat.le_add_right .., Nat.le_add_right ..⟩
  | some r =>
    refine (valueOf v (.box r)).trans (modifySlot (k := 1) (j := 1) ?_ (Nat.le_add_left ..))
    exact Nat.le_add_left ..

theorem markFromStart (v : Values) : Charged 0 0 v v.markFromStart := by
  have hsize : v.markFromStart.slots.size = v.slots.size := by simp [Values.markFromStart]
  have hsame : ∀ {g : Slot → Nat}, (∀ s b, g {s with fromStart := b} = g s) →
      v.markFromStart.total g = v.total g := fun hg =>
    total_congr hsize fun id hid => by rw [Consistent.slot_markFromStart v id hid, hg]
  refine ⟨Nat.le_of_eq (hsame fun _ _ => rfl), ?_⟩
  show v.forced + v.markFromStart.total _ ≤ v.forced + v.total _
  rw [hsame fun _ _ => rfl]

end Charged

/-- An object that is forced is owed no more: neither its allocation nor its fields. -/
theorem charged_materialize {object : Virtual} (h : (v.slot id).virtual = some object) :
    (v.materialize id).owed + (object.fields.size + 1) = v.owed ∧
      (v.materialize id).objects = v.objects := by
  have hid := lt_of_virtual h
  have hcost : (v.slot id).cost = object.fields.size + 1 := by rw [Slot.cost, h]; rfl
  have hheld : (v.slot id).isVirtual.toNat = 1 := by rw [isVirtual_of_eq h]; rfl
  constructor
  · have := total_modifySlot (g := Slot.cost) (f := fun s => {s with virtual := none}) hid
    rw [hcost] at this
    exact this
  · have := total_modifySlot (g := fun s => s.isVirtual.toNat)
      (f := fun s => {s with virtual := none}) hid
    rw [hheld] at this
    change _ + 1 = _ + 0 at this
    show v.forced + 1 + (v.modifySlot id fun s => {s with virtual := none}).total
      (fun s => s.isVirtual.toNat) = v.forced + v.total fun s => s.isVirtual.toNat
    omega

/-! ### Forcing -/

/-- What a task writes besides what is owed already: the fields that are its own. -/
def Task.due : Task → Nat
  | .value _ => 0
  | .fields _ entries => entries.length

/-- Forcing writes no more than it pays off, and an object that is forced is held back no more. -/
theorem Performs.paid {t : Task} {s s' : Values × Array Operation} (h : Performs t s s') :
    s'.2.size + s'.1.owed ≤ s.2.size + s.1.owed + t.due ∧ s'.1.objects ≤ s.1.objects := by
  induction h with
  | real | written => exact ⟨Nat.le_refl _, Nat.le_refl _⟩
  | @object id v out object s hv _ ih =>
    obtain ⟨howed, hobjects⟩ := charged_materialize hv
    refine ⟨?_, hobjects ▸ ih.2⟩
    have hpaid : s.2.size + s.1.owed ≤ (out.push object.allocation).size +
      (v.materialize id).owed + object.fields.size := ih.1
    rw [Array.size_push] at hpaid
    show s.2.size + s.1.owed ≤ out.size + v.owed + 0
    omega
  | @field object name value rest s s' v out _ _ ih₁ ih₂ =>
    refine ⟨?_, ih₂.2.trans ih₁.2⟩
    have hpaid₁ : out.size + v.owed ≤ s.2.size + s.1.owed + 0 := ih₁.1
    have hpaid₂ : s'.2.size + s'.1.owed ≤
      (out.push (.setField object name (v.slot value).operand)).size + v.owed + rest.length := ih₂.1
    rw [Array.size_push] at hpaid₂
    show s'.2.size + s'.1.owed ≤ s.2.size + s.1.owed + (rest.length + 1)
    omega

end
end Values

namespace Optimizer
open Peel

/-- The list and what is owed grow by at most `k`, and objects that are new were counted. -/
structure Affords (k : Nat) (o o' : Optimizer) : Prop where
  list : o'.out.size + o'.values.owed ≤ o.out.size + o.values.owed + k
  objects : o'.values.objects + o.stats.virtualsCreated ≤
    o.values.objects + o'.stats.virtualsCreated
  opsIn : o'.stats.opsIn = o.stats.opsIn

namespace Affords
variable {k l : Nat} {o o₁ o₂ : Optimizer}

theorem refl (o : Optimizer) : Affords 0 o o :=
  ⟨Nat.le_refl _, Nat.le_refl _, rfl⟩

theorem trans (h₁ : Affords k o o₁) (h₂ : Affords l o₁ o₂) : Affords (k + l) o o₂ := by
  have hlist₁ := h₁.list
  have hlist₂ := h₂.list
  have hobjects₁ := h₁.objects
  have hobjects₂ := h₂.objects
  refine ⟨?_, ?_, h₂.opsIn.trans h₁.opsIn⟩ <;> omega

theorem mono (h : Affords k o o₁) (hkl : k ≤ l) : Affords l o o₁ :=
  ⟨h.list.trans (Nat.add_le_add_left hkl _), h.objects, h.opsIn⟩

/-- The state is changed in nothing that counts. -/
theorem congr (h : Affords k o o₁) (hout : o₂.out = o₁.out) (hvalues : o₂.values = o₁.values)
    (hcreated : o₂.stats.virtualsCreated = o₁.stats.virtualsCreated)
    (hin : o₂.stats.opsIn = o₁.stats.opsIn) : Affords k o o₂ := by
  refine ⟨?_, ?_, hin.trans h.opsIn⟩
  · rw [hout, hvalues]
    exact h.list
  · rw [hvalues, hcreated]
    exact h.objects

theorem charge (h : Affords k o o₁) {v : Values} (hv : Values.Charged l 0 o₁.values v) :
    Affords (k + l) o {o₁ with values := v} := by
  have hlist := h.list
  have hobjects := h.objects
  have howed := hv.owed
  have hcharged := hv.objects
  refine ⟨?_, ?_, h.opsIn⟩
  · show o₁.out.size + v.owed ≤ _
    omega
  · show v.objects + _ ≤ _ + o₁.stats.virtualsCreated
    omega

theorem met (o : Optimizer) (a : Operand) : Affords 0 o (o.met a) :=
  (refl o).charge (.valueOf o.values a)

theorem forcing (o : Optimizer) (id : ValueId) : Affords 0 o (o.forcing id) := by
  obtain ⟨hpaid, hobjects⟩ := (o.values.force_performs id o.out).paid
  exact ⟨hpaid, Nat.add_le_add_right hobjects _, rfl⟩

end Affords

theorem Met.affords {as : List Operand} {o o₁ : Optimizer} (h : Met as o o₁) : Affords 0 o o₁ := by
  induction h with
  | refl => exact .refl o
  | more _ _ ih => exact ih.trans (.met _ _)

theorem Grown.affords {o o₁ : Optimizer} (h : Grown o o₁) : Affords 0 o o₁ := by
  induction h with
  | refl => exact .refl o
  | met a _ ih => exact ih.trans (.met _ a)
  | forced id _ ih => exact ih.trans (.forcing _ id)
  | told events _ ih => exact ih.congr rfl rfl rfl rfl

theorem Forces.affords {o o₁ : Optimizer} (h : Forces o o₁) : Affords 0 o o₁ := by
  obtain ⟨ids, rfl⟩ := h.steps
  clear h
  induction ids generalizing o with
  | nil => exact .refl o
  | cons id ids ih => exact (Affords.forcing o id).trans ih

/-! ### Through the passes -/

/-- An operation that is sent is written, or adds at most one to what is owed. -/
def Thrifty (send : Operation → Optimizer → Optimizer → Prop) : Prop :=
  ∀ op o o', o.Intact → send op o o' → Affords 1 o o'

variable {send : Operation → Optimizer → Optimizer → Prop}

theorem thrifty_emit : Thrifty fun op o o' => o' = ((emit op).run o).2 := by
  rintro op o _ hi rfl
  obtain ⟨o₁, events, hforces, he⟩ := emit_forces hi op
  have h := hforces.affords
  have hlist := h.list
  rw [he]
  refine ⟨?_, h.objects, h.opsIn⟩
  show (o₁.out.push _).size + o₁.values.owed ≤ _
  rw [Array.size_push]
  omega

theorem thrifty_placed (h : Thrifty send) : Thrifty (Placed send) := by
  rintro op o _ hi ⟨chain, cursor, o₂, hs, rfl⟩
  have hs' := h op {o with chain, cursor} o₂ ⟨hi.values, hi.known⟩ hs
  exact ⟨hs'.list, hs'.objects, hs'.opsIn⟩

theorem charged_teaches {op : Operation} {arg : Operand} {s : Slot} {id : ValueId}
    {f : Values → Values} (h : Rewrite.Teaches op arg s id f) (v : Values) :
    Values.Charged 0 0 v (f v) := by
  cases h with
  | truth | value | null => exact .makeConstant ..
  | nothing => exact .refl v
  | nonNull => exact .makeNonNull ..
  | ofClass => exact (Values.Charged.setClass ..).trans (.makeNonNull ..)

theorem thrifty_rewritten (h : Thrifty send) : Thrifty (Rewrite.Rewritten send) := by
  intro op o o' hi hs
  have hone : ∀ {o'}, Affords 0 o o' → Affords 1 o o' := fun h => h.mono (Nat.zero_le 1)
  cases hs with
  | passed hmet _ hs => exact hmet.affords.trans (h op _ _ (hi.of_met hmet) hs)
  | @dropped arg => exact hone ((Affords.met o arg).congr rfl rfl rfl rfl)
  | @kept arg rest f o₁ hargs ht hs =>
    exact ((Affords.met o arg).trans (h op _ _ (hi.met arg) hs)).charge (charged_teaches ht _)
  | unraised => exact hone ((Affords.refl o).congr rfl rfl rfl rfl)
  | checked _ _ hs => exact (h op _ _ hi hs).congr rfl rfl rfl rfl
  | called _ hs =>
    have hs' := h op {o with mayRaise := true} o' ⟨hi.values, hi.known⟩ hs
    exact ⟨hs'.list, hs'.objects, hs'.opsIn⟩
  | @aliased a => exact hone ((Affords.met o a).charge (.forward ..))
  | @folded o₁ cs c r _ _ _ hmet =>
    exact hone (((hmet.affords.trans (.met o₁ (.box r))).charge (.makeConstant ..)).congr rfl rfl
      rfl rfl)
  | @reused o₁ ks r id _ _ _ hmet =>
    exact hone ((hmet.affords.charge (.forward _ r id)).congr rfl rfl rfl rfl)
  | @computed o₁ _ ks r _ _ _ hmet _ _ _ hs =>
    have hmet' : Affords 0 o₁ {o₁.met (.box r) with
        known := o₁.known.set (Rewrite.keyOf op ks r) (o₁.idOf (.box r))} :=
      (Affords.met o₁ (.box r)).congr rfl rfl rfl rfl
    exact (hmet.affords.trans hmet').trans (h op _ _ ((hi.of_met hmet).remember _ r) hs)

theorem thrifty_virtualized (h : Thrifty send) : Thrifty (Virtualize.Virtualized send) := by
  intro op o o' hi hs
  have hone : ∀ {o'}, Affords 0 o o' → Affords 1 o o' := fun h => h.mono (Nat.zero_le 1)
  cases hs with
  | passed hmet _ hs => exact hmet.affords.trans (h op _ _ (hi.of_met hmet) hs)
  | @held r =>
    have hv := Values.Charged.makeVirtual o.values op
    have howed := hv.owed
    have hobjects := hv.objects
    refine ⟨?_, ?_, rfl⟩
    · show o.out.size + (o.values.makeVirtual op).2.owed ≤ _
      omega
    · show (o.values.makeVirtual op).2.objects + _ ≤ _ + (o.stats.virtualsCreated + 1)
      omega
  | @written object value =>
    exact ((Affords.met o object).trans (.met _ value)).charge (.setField ..)
  | @read object => exact hone ((Affords.met o object).charge (.forward ..))
  | @readZero object _ r =>
    exact hone (((Affords.met o object).trans (.met _ (.box r))).charge (.makeConstant ..))

theorem thrifty_handled (ps : List Pass) : Thrifty (Handled ps) := by
  induction ps with
  | nil => exact thrifty_placed thrifty_emit
  | cons p ps ih =>
    refine thrifty_placed ?_
    cases p with
    | peel => exact fun _ _ _ _ h => h.elim
    | rewrite => exact thrifty_rewritten ih
    | virtualize => exact thrifty_virtualized ih

/-! ### Lists of operations -/

theorem Processed.affords {ps : List Pass} {ops : List Operation} {o o' : Optimizer}
    (h : Processed ps ops o o') (hi : o.Intact) : Affords ops.length o o' := by
  induction h with
  | nil => exact .refl _
  | cons hs _ ih =>
    have hone := thrifty_handled ps _ _ _ hi hs
    exact (hone.trans (ih (settled_handled ps _ _ _ hi hs).1)).mono (Nat.le_of_eq (Nat.add_comm ..))

theorem Retraced.affords {ps : List Pass} {rest : List Stage} {ops : List Operation}
    {n n' : Peeling} {o o' : Optimizer} (h : Retraced ps rest ops n o n' o') (hi : o.Intact) :
    Affords ops.length o o' := by
  induction h with
  | nil => exact .refl _
  | @cons op ops n n' o o₁ o' events hs _ ih =>
    have hnoted : Intact {o.noting rest (recast n o.pool op).2.1 (recast n o.pool op).2.2 with
      events} := ⟨hi.values, hi.known⟩
    have hone := thrifty_handled ps _ _ _ hnoted hs
    have hstep : Affords 1 o o₁ := ⟨hone.list, hone.objects, hone.opsIn⟩
    exact (hstep.trans (ih (hs.retraced hi).2)).mono (Nat.le_of_eq (Nat.add_comm ..))

/-- The search for inputs takes the jump off the list and writes it again. -/
theorem fixUp_affords (inputs : List Box) (o : Optimizer) :
    Ends (fun _ => True) (fixUp 0 inputs) o fun _ o' => Affords 0 o o' := by
  refine (fixUp_grown inputs o).mono ?_
  rintro inputs' _ ⟨out, jump, o₁, added, handed, hout, -, hgrown, -, rfl⟩
  have h := hgrown.affords
  have hlist : o₁.out.size + o₁.values.owed ≤ out.size + o.values.owed + 0 := h.list
  refine ⟨?_, h.objects, h.opsIn⟩
  show (o₁.out.push _).size + o₁.values.owed ≤ _
  rw [hout, Array.size_push, Array.size_push]
  omega

section
variable {c : Config} {rest : List Stage} {body : List Operation} {jump : Operation}
  {o o' : Optimizer} {w : Passage}

/-- On the way to the second list, that begins empty, nothing is sent. -/
theorem Traversed.affords_entered (h : Traversed c rest body jump o w o') :
    Affords 0 o w.entered := by
  obtain ⟨events, hmet⟩ := h.met
  have hcaptured := h.captured.affords
  have hlist := hcaptured.list
  have hturned : Affords 0 o {w.captured with
      out := #[], sink := .keeping, mayRaise := false, events
      chain := (⟨none, startingNotes o.inputs jump.args⟩ :: rest).toArray} := by
    refine ⟨?_, hcaptured.objects, hcaptured.opsIn⟩
    show 0 + w.captured.values.owed ≤ _
    omega
  have hmarked := (hturned.trans hmet.affords).charge (.markFromStart w.met.values)
  exact hmarked.trans h.entered.affords

/-- The recorded operations and the jump are sent once more. -/
theorem Traversed.affords (h : Traversed c rest body jump o w o') (ho : o.Intact) :
    Affords (body.length + 1) w.entered o' := by
  have hentered : w.entered.Intact := h.entered.intact (h.intact_met ho).markFromStart
  have hasked := h.asked.intact (h.replayed.intact hentered)
  obtain ⟨events, hs⟩ := h.handled
  have hready : Intact {w.asked with events} := ⟨hasked.values, hasked.known⟩
  have hone := thrifty_handled _ _ _ _ hready hs
  have hwritten : Affords 1 w.asked w.written := ⟨hone.list, hone.objects, hone.opsIn⟩
  obtain ⟨loopInputs, fixed, -, hfix, hsame⟩ := h.finishing
  have hfixed : Affords 0 w.written o' := by
    rw [hsame]
    exact ((fixUp_affords loopInputs w.written).of_run hfix).congr rfl rfl rfl rfl
  exact (((h.replayed.affords hentered).trans h.asked.affords).trans hwritten).trans hfixed

end

end Optimizer
end TracePeel
