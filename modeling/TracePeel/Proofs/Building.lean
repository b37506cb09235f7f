import TracePeel.Proofs.Forcing
import TracePeel.Proofs.Recorded

/-! The list that is being written.

`Built` is the invariant of a list under construction and the table of values: the
list is accepted behind the boxes it begins with, and what it reads of the boxes that
exist since before it goes round is marked as such. -/
namespace TracePeel

/-- The operation carries what only its kind may carry, its number was given out, and
its frames are in the table of frames. -/
structure Operation.Neat (nextGuard : Nat) (T : FrameTable) (op : Operation) : Prop where
  plain : op.Plain
  guard : ∀ p ∈ op.guard?, p.1 < nextGuard
  frames : op.snapshot.In T

theorem Operation.snapshot_of_guard?_eq_none {op : Operation} (h : op.guard? = none) :
    op.snapshot = [] := by
  unfold Operation.guard? at h
  unfold Operation.snapshot
  split at h
  · cases h
  · rfl

theorem Operation.Neat.mono {n n' : Nat} {T T' : FrameTable} (hn : n ≤ n') (hT : T.Extends T')
    {op : Operation} (h : op.Neat n T) : op.Neat n' T' :=
  ⟨h.plain, fun p hp => Nat.lt_of_lt_of_le (h.guard p hp) hn, h.frames.mono hT⟩

namespace Values

/-- The box is what a value is emitted as that exists since before the list goes round, or
was until the value turned out to be a constant. -/
def FromStart (v : Values) (b : Box) : Prop :=
  ∃ id, v.index.get? (.box b) = some id ∧ (v.slot id).fromStart = true ∧
    ∀ r, (v.slot id).operand = .box r → r = b

/-- The box is the key of a value that exists since before the list goes round. -/
def IsFromStart (v : Values) (b : Box) : Prop :=
  ∃ id, v.lookup b = some id ∧ (v.slot id).fromStart = true

/-- The operand can be read at the end of the list. -/
def Ready (available start : List Box) (v : Values) (a : Operand) : Prop :=
  ∀ b, a = .box b → b ∈ available ∧ (b ∈ start → v.FromStart b)

/-- Slots keep their numbers, kinds and marks, what a slot stands for may only become a
constant, and no ordinary value becomes virtual. -/
structure Later (v v' : Values) : Prop where
  size : v.slots.size ≤ v'.slots.size
  index : ∀ a id, v.index.get? a = some id → v'.index.get? a = some id
  kind : ∀ id < v.slots.size, (v'.slot id).operand.kind = (v.slot id).operand.kind
  operand : ∀ id < v.slots.size, ∀ r, (v'.slot id).operand = .box r →
    (v.slot id).operand = .box r
  fromStart : ∀ id < v.slots.size, (v'.slot id).fromStart = (v.slot id).fromStart
  real : ∀ id < v.slots.size, (v.slot id).virtual = none → (v'.slot id).virtual = none

namespace Later
variable {v v₁ v₂ : Values}

theorem refl (v : Values) : Later v v :=
  ⟨Nat.le_refl _, fun _ _ h => h, fun _ _ => rfl, fun _ _ _ h => h, fun _ _ => rfl,
    fun _ _ h => h⟩

theorem trans (h₁ : Later v v₁) (h₂ : Later v₁ v₂) : Later v v₂ where
  size := Nat.le_trans h₁.size h₂.size
  index a id h := h₂.index a id (h₁.index a id h)
  kind id h := (h₂.kind id (Nat.lt_of_lt_of_le h h₁.size)).trans (h₁.kind id h)
  operand id h r hr := h₁.operand id h r (h₂.operand id (Nat.lt_of_lt_of_le h h₁.size) r hr)
  fromStart id h :=
    (h₂.fromStart id (Nat.lt_of_lt_of_le h h₁.size)).trans (h₁.fromStart id h)
  real id h hv := h₂.real id (Nat.lt_of_lt_of_le h h₁.size) (h₁.real id h hv)

theorem marked (h : Later v v₁) (hv : v.InRange) {b : Box} (hb : v.FromStart b) :
    v₁.FromStart b := by
  obtain ⟨id, hid, hs, hr⟩ := hb
  have hlt := hv _ id hid
  exact ⟨id, h.index _ id hid, (h.fromStart id hlt).trans hs, fun r hr' =>
    hr r (h.operand id hlt r hr')⟩

end Later

theorem Forced.later {v v' : Values} (h : Forced v v') : Later v v' where
  size := Nat.le_of_eq h.size.symm
  index a id hid := by rwa [h.index]
  kind id _ := by rw [h.operand]
  operand id _ r hr := by rwa [h.operand] at hr
  fromStart id _ := h.fromStart id
  real _ _ hv := h.virtual_eq_none hv

theorem later_valueOf (v : Values) (a : Operand) : Later v (v.valueOf a).2 where
  size := v.size_le_valueOf a
  index _ _ h := index_valueOf_of_some h
  kind id h := by rw [slot_valueOf a h]
  operand id h r hr := by rwa [slot_valueOf a h] at hr
  fromStart id h := by rw [slot_valueOf a h]
  real id h hv := by rwa [slot_valueOf a h]

theorem later_modifySlot (v : Values) (id : ValueId) (f : Slot → Slot)
    (hkind : (f (v.slot id)).operand.kind = (v.slot id).operand.kind)
    (hop : ∀ r, (f (v.slot id)).operand = .box r → (v.slot id).operand = .box r)
    (hfrom : (f (v.slot id)).fromStart = (v.slot id).fromStart)
    (hreal : (v.slot id).virtual = none → (f (v.slot id)).virtual = none) :
    Later v (v.modifySlot id f) where
  size := Nat.le_of_eq (size_modifySlot ..).symm
  index _ _ h := h
  kind j h := by
    rw [slot_modifySlot]
    split
    next he => rw [he.1, hkind]
    next => rfl
  operand j h r hr := by
    rw [slot_modifySlot] at hr
    split at hr
    next he => exact he.1 ▸ hop r (he.1 ▸ hr)
    next => exact hr
  fromStart j h := by
    rw [slot_modifySlot]
    split
    next he => rw [he.1, hfrom]
    next => rfl
  real j h hv := by
    rw [slot_modifySlot]
    split
    next he => exact he.1 ▸ hreal (he.1 ▸ hv)
    next => exact hv

theorem later_makeNonNull (v : Values) (id : ValueId) : Later v (v.makeNonNull id) := by
  refine later_modifySlot v id _ ?_ (fun r hr => ?_) ?_ fun hv => ?_
  · split <;> rfl
  · split at hr <;> exact hr
  · split <;> rfl
  · split <;> exact hv

/-- What is made of a slot that was given out just now is no matter to the others. -/
theorem slot_modifySlot_new {v : Values} {r : Box} (f : Slot → Slot)
    (h : v.index.get? (.box r) = none) {id : ValueId} (hid : id < v.slots.size) :
    ((v.valueOf (.box r)).2.modifySlot (v.valueOf (.box r)).1 f).slot id = v.slot id := by
  have hne : id ≠ (v.valueOf (.box r)).1 := by
    rw [valueOf_new h]
    exact Nat.ne_of_lt hid
  rw [slot_modifySlot_of_ne f hne, slot_valueOf _ hid]

theorem later_modifySlot_new {v : Values} {r : Box} {f : Slot → Slot}
    (h : v.index.get? (.box r) = none) :
    Later v ((v.valueOf (.box r)).2.modifySlot (v.valueOf (.box r)).1 f) where
  size := Nat.le_trans (v.size_le_valueOf _) (Nat.le_of_eq (size_modifySlot ..).symm)
  index _ _ h' := index_valueOf_of_some h'
  kind id hid := by rw [slot_modifySlot_new f h hid]
  operand id hid r hr := by rwa [slot_modifySlot_new f h hid] at hr
  fromStart id hid := by rw [slot_modifySlot_new f h hid]
  real id hid hv := by rwa [slot_modifySlot_new f h hid]

theorem later_forward {v : Values} {r : Box} (h : v.index.get? (.box r) = none) (id : ValueId) :
    Later v (v.forward r id) where
  size := Nat.le_refl _
  index a j hj := by
    show (v.index.set _ _).get? a = _
    rw [Bindings.get?_set, if_neg, hj]
    rintro rfl
    rw [h] at hj
    cases hj
  kind _ _ := rfl
  operand _ _ _ hr := hr
  fromStart _ _ := rfl
  real _ _ hv := hv

theorem Ready.mono {available available' start : List Box} {v v' : Values} (hv : v.InRange)
    (ha : available ⊆ available') (hl : Later v v') {a : Operand}
    (h : v.Ready available start a) : v'.Ready available' start a :=
  fun b hb => ⟨ha (h b hb).1, fun hs => hl.marked hv ((h b hb).2 hs)⟩

namespace Consistent
variable {defined available start : List Box} {v : Values}

theorem ready_slot (h : v.Consistent defined available start) {id : ValueId}
    (hid : id < v.slots.size) (hv : (v.slot id).virtual = none) :
    v.Ready available start (v.slot id).operand := by
  intro b hb
  have hs := h.slots id hid
  exact ⟨hs.real b hv hb, fun hstart => ⟨id, h.own id hid b hb, (hs.fromStart b hb).2 hstart,
    fun r hr => by rw [hb] at hr; cases hr; rfl⟩⟩

/-- A box that was defined but not met is read as itself. -/
theorem ready_waiting (h : v.Consistent defined available start) {b : Box} (hb : b ∈ defined)
    (hn : v.index.get? (.box b) = none) : v.Ready available start (.box b) := by
  intro c hc
  cases hc
  refine ⟨h.waiting b hb hn, fun hs => ?_⟩
  obtain ⟨id, hid⟩ := h.begun b hs
  rw [hn] at hid
  cases hid

/-- Of what can be read, just the boxes that the list begins with exist since before. -/
theorem isFromStart_iff (h : v.Consistent defined available start) {b : Box}
    (hb : v.Ready available start (.box b)) : v.IsFromStart b ↔ b ∈ start := by
  obtain ⟨havailable, hfrom⟩ := hb b rfl
  constructor
  · rintro ⟨id, hid, hstart⟩
    by_contra hn
    rw [h.later b havailable hn id hid] at hstart
    cases hstart
  · intro hmem
    obtain ⟨id, hid, hstart, -⟩ := hfrom hmem
    exact ⟨id, hid, hstart⟩

end Consistent
end Values

/-! ### A list under construction -/

/-- What a list under construction and the table agree on. `base` are the boxes that the
list begins with, `defined` those that may be named in operations still to come. -/
structure Built (nextGuard : Nat) (T : FrameTable) (base start defined : List Box) (v : Values)
    (out : List Operation) : Prop where
  table : v.Consistent defined (base ++ results out) start
  accepts : Accepts base out
  neat : ∀ op ∈ out, op.Neat nextGuard T
  marked : ∀ op ∈ out, ∀ b, .box b ∈ op.usedArgs → b ∈ start → v.FromStart b

namespace Built
variable {nextGuard : Nat} {T : FrameTable} {base start defined : List Box} {v v' : Values}
  {out : List Operation}

theorem mono {n' : Nat} {T' : FrameTable} (hn : nextGuard ≤ n') (hT : T.Extends T')
    (h : Built nextGuard T base start defined v out) : Built n' T' base start defined v out :=
  {h with neat := fun op hop => (h.neat op hop).mono hn hT}

/-- The table changes and the list stays. -/
theorem setTable {defined' : List Box} (h : Built nextGuard T base start defined v out)
    (ht : v'.Consistent defined' (base ++ results out) start) (hl : v.Later v') :
    Built nextGuard T base start defined' v' out :=
  {h with
    table := ht
    marked := fun op hop b hb hs => hl.marked h.table.inRange (h.marked op hop b hb hs) }

/-- An operation is written that reads what is ready. -/
theorem append {defined' : List Box} (h : Built nextGuard T base start defined v out)
    {op : Operation} (hl : v.Later v')
    (ht : v'.Consistent defined' (op.result.toList ++ (base ++ results out)) start)
    (hop : op.Fits (base ++ results out)) (hfinal : op.opcode.isFinal = false)
    (hneat : op.Neat nextGuard T)
    (hready : ∀ b, .box b ∈ op.usedArgs → b ∈ start → v'.FromStart b) :
    Built nextGuard T base start defined' v' (out ++ [op]) where
  table := by
    refine ht.congr (fun _ => .rfl) fun b => ?_
    simp only [results_append, results_cons, results_nil, List.mem_append, List.append_nil]
    tauto
  accepts := accepts_append.2 ⟨h.accepts, accepts_singleton.2 ⟨hop, hfinal⟩⟩
  neat op' hop' := by
    rcases List.mem_append.1 hop' with hop' | hop'
    · exact h.neat op' hop'
    · cases List.mem_singleton.1 hop'
      exact hneat
  marked op' hop' b hb hs := by
    rcases List.mem_append.1 hop' with hop' | hop'
    · exact hl.marked h.table.inRange (h.marked op' hop' b hb hs)
    · cases List.mem_singleton.1 hop'
      exact hready b hb hs

/-! ### Forcing -/

/-- The allocation of a virtual object is written. -/
theorem materialize (h : Built nextGuard T base start defined v out) {id : ValueId}
    {object : Virtual} (hv : (v.slot id).virtual = some object) :
    Built nextGuard T base start defined (v.materialize id) (out ++ [object.allocation]) := by
  have hid := Values.lt_of_virtual hv
  obtain ⟨r, hr, hh, hn⟩ := (h.table.slots id hid).held object hv
  have hused : object.allocation.usedArgs = [] := by
    simp [Operation.usedArgs, hh.args, hh.failArgs,
      Operation.snapshot_of_guard?_eq_none hh.guard, Snapshot.operands]
  refine h.append (Values.Forced.materialize v id).later ?_ ?_ ?_ ?_ ?_
  · rw [hh.result]
    exact h.table.materialize hid hr (by simp [hv])
  · refine ⟨?_, ?_, ?_, ?_, ?_, ?_⟩
    · simp [hh.opcode, hh.args, Opcode.arity?]
    · simp [hused]
    · simp [Verify.kindsAgree, hh.opcode]
    · simp [Operation.isGuard, hh.opcode, Opcode.isGuard]
    · rintro b hb
      rw [hh.result] at hb
      cases hb
      exact ⟨by rw [hh.opcode]; rfl, by simp [hh.opcode, Opcode.resultKind?, hh.kind], hn⟩
    · simp [hh.result]
  · simp [hh.opcode, Opcode.isFinal]
  · refine ⟨fun _ => ⟨hh.failArgs, hh.guard⟩, by simp [hh.guard], ?_⟩
    rw [Operation.snapshot_of_guard?_eq_none hh.guard]
    trivial
  · simp [hused]

/-- A field of an ordinary object is written. -/
theorem writeField (h : Built nextGuard T base start defined v out) {object value : Operand}
    (name : String) (hobject : v.Ready (base ++ results out) start object)
    (hvalue : v.Ready (base ++ results out) start value) :
    Built nextGuard T base start defined v (out ++ [.setField object name value]) := by
  have hused : ∀ b, .box b ∈ (Operation.setField object name value).usedArgs →
      object = .box b ∨ value = .box b := by
    intro b hb
    simpa [Operation.usedArgs, Operation.setField, Operation.snapshot, Snapshot.operands,
      eq_comm] using hb
  refine h.append (.refl v) h.table ⟨?_, fun b hb => ?_, rfl, ?_, ?_, ?_⟩ rfl
    ⟨fun _ => ⟨rfl, rfl⟩, ?_, trivial⟩ fun b hb => ?_
  · rintro n ⟨⟩
    rfl
  · rcases hused b hb with rfl | rfl
    · exact (hobject b rfl).1
    · exact (hvalue b rfl).1
  · rintro ⟨⟩
  · rintro _ ⟨⟩
  · exact fun _ => rfl
  · rintro _ ⟨⟩
  · rcases hused b hb with rfl | rfl
    · exact (hobject b rfl).2
    · exact (hvalue b rfl).2

/-- What must hold before a task is done. -/
def Pending (available start : List Box) (v : Values) : Values.Task → Prop
  | .value id => id < v.slots.size
  | .fields object entries => v.Ready available start object ∧
      ∀ name id, (name, id) ∈ entries → id < v.slots.size

theorem performs {t : Values.Task} {s s' : Values × Array Operation}
    (hp : Values.Performs t s s')
    (h : Built nextGuard T base start defined s.1 s.2.toList)
    (ht : Pending (base ++ results s.2.toList) start s.1 t) :
    Built nextGuard T base start defined s'.1 s'.2.toList := by
  induction hp with
  | real | written => exact h
  | @object id v out object s hv _ ih =>
    have hid : id < v.slots.size := ht
    obtain ⟨r, hr, hh, _⟩ := (h.table.slots id hid).held object hv
    have hb := h.materialize hv
    have hforced := Values.Forced.materialize v id
    have hready := hb.table.ready_slot (hforced.size.symm ▸ hid)
      Values.virtual_materialize
    rw [hforced.operand] at hready
    refine ih (by simpa using hb) ⟨by simpa using hready, fun name value hmem => ?_⟩
    rw [hforced.size]
    exact hh.fields name value hmem
  | @field object name value rest s s' v out hvalue _ ih₁ ih₂ =>
    obtain ⟨hobject, hentries⟩ := ht
    have hid := hentries name value (List.mem_cons_self ..)
    have hb := ih₁ h hid
    have hforced := hvalue.forced
    have hbase : base ++ results s.2.toList ⊆ base ++ results out.toList :=
      List.append_subset.2 ⟨List.subset_append_left .., fun b hb =>
        List.mem_append_right _ (results_subset hvalue.out_grows hb)⟩
    have hobject' := hobject.mono h.table.inRange hbase hforced.later
    have hready := hb.table.ready_slot (hforced.size.symm ▸ hid)
      hvalue.virtual_eq_none
    have hwritten := hb.writeField name hobject' hready
    refine ih₂ (by simpa using hwritten) ⟨?_, fun name' id' hmem => ?_⟩
    · simpa [Operation.setField] using hobject'
    · rw [show v.slots.size = s.1.slots.size from hforced.size]
      exact hentries name' id' (.tail _ hmem)

/-- Forcing a value writes what is missing and gives an operand that is ready. -/
theorem force {out : Array Operation} (h : Built nextGuard T base start defined v out.toList)
    {id : ValueId} (hid : id < v.slots.size) :
    let r := v.force id out
    Built nextGuard T base start defined r.2.1 r.2.2.toList ∧
      out.toList <+: r.2.2.toList ∧ v.Forced r.2.1 ∧
      r.1 = (v.slot id).operand ∧ (r.2.1.slot id).virtual = none ∧
      r.2.1.Ready (base ++ results r.2.2.toList) start r.1 := by
  have hp := v.force_performs id out
  have hb := h.performs hp hid
  have hforced : v.Forced (v.force id out).2.1 := hp.forced
  refine ⟨hb, hp.out_grows, hforced, v.force_operand id out, hp.virtual_eq_none, ?_⟩
  have hready := hb.table.ready_slot (hforced.size.symm ▸ hid) hp.virtual_eq_none
  rwa [hforced.operand, ← v.force_operand id out] at hready

end Built
end TracePeel
