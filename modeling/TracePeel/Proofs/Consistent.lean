import TracePeel.Proofs.Table
import TracePeel.Proofs.Verified

/-! The table of values agrees with the list.

While a list is written, some boxes were defined by the operations sent so far, some
are available in the list, and some exist since before the list goes round. A slot
that is no virtual object stands for a constant or for a box that is available; a
virtual object stands for a box that its allocation would make available. -/
namespace TracePeel

/-- What an allocation that is held back looks like: it takes nothing, guards nothing,
and its fields hold values that exist. -/
structure Virtual.Holds (object : Virtual) (r : Box) (n : Nat) : Prop where
  opcode : object.allocation.opcode = .new
  args : object.allocation.args = []
  result : object.allocation.result = some r
  failArgs : object.allocation.failArgs = none
  guard : object.allocation.guard? = none
  kind : r.kind = .ref
  fields : ∀ name id, (name, id) ∈ object.fields.entries → id < n

theorem Virtual.Holds.mono {object : Virtual} {r : Box} {n m : Nat} (hnm : n ≤ m)
    (h : object.Holds r n) : object.Holds r m :=
  {h with fields := fun name id hid => Nat.lt_of_lt_of_le (h.fields name id hid) hnm}

/-- What a slot stands for can be read, or can be made available. -/
structure Slot.Sound (available start : List Box) (n : Nat) (s : Slot) : Prop where
  constant : s.isConstant = s.operand.isConst
  real : ∀ r, s.virtual = none → s.operand = .box r → r ∈ available
  held : ∀ object, s.virtual = some object →
    ∃ r, s.operand = .box r ∧ object.Holds r n ∧ r ∉ available
  fromStart : ∀ r, s.operand = .box r → (s.fromStart = true ↔ r ∈ start)

namespace Slot.Sound
variable {available start : List Box} {n : Nat} {s : Slot}

theorem mono {m : Nat} (hnm : n ≤ m) (h : s.Sound available start n) :
    s.Sound available start m :=
  {h with held := fun object ho =>
    let ⟨r, hr, hh, hn⟩ := h.held object ho
    ⟨r, hr, hh.mono hnm, hn⟩}

theorem constant?_eq (h : s.Sound available start n) : s.constant? = s.operand.const? := by
  unfold Slot.constant?
  rw [h.constant, Operand.isConst]
  cases s.operand.const? <;> rfl

/-- A slot that is known to be neither null nor other than null is no constant. -/
theorem not_const_of_unknown (h : s.Sound available start n) (hn : s.isNonNull = false)
    (hz : s.isNull = false) : s.operand.isConst = false := by
  cases ho : s.operand with
  | box b => rfl
  | const c =>
    have hc : s.constant? = some c := by rw [h.constant?_eq, ho]; rfl
    have hl : s.level = .constant := by
      have := h.constant
      simpa [ho, Slot.isConstant, Operand.isConst, Operand.const?] using this
    simp [Slot.isNonNull, Slot.isNull, hl, hc] at hn hz
    simp [hn] at hz

end Slot.Sound

namespace Values

/-- The table agrees with the boxes that were defined, that are available and that exist
since before the list goes round. -/
structure Consistent (defined available start : List Box) (v : Values) : Prop where
  inRange : v.InRange
  slots : ∀ id < v.slots.size, (v.slot id).Sound available start v.slots.size
  kind : ∀ a id, v.index.get? a = some id → (v.slot id).operand.kind = a.kind
  keeps : ∀ c id, v.index.get? (.const c) = some id → (v.slot id).operand = .const c
  own : ∀ id < v.slots.size, ∀ r, (v.slot id).operand = .box r →
    v.index.get? (.box r) = some id
  met : ∀ b id, v.index.get? (.box b) = some id → b ∈ defined
  waiting : ∀ b ∈ defined, v.index.get? (.box b) = none → b ∈ available
  subset : available ⊆ defined
  begun : ∀ b ∈ start, ∃ id, v.index.get? (.box b) = some id
  later : ∀ b ∈ available, b ∉ start → ∀ id, v.index.get? (.box b) = some id →
    (v.slot id).fromStart = false

namespace Consistent
variable {defined available start : List Box} {v : Values}

theorem congr {defined' available' : List Box} (hd : ∀ b, b ∈ defined ↔ b ∈ defined')
    (ha : ∀ b, b ∈ available ↔ b ∈ available') (h : v.Consistent defined available start) :
    v.Consistent defined' available' start where
  inRange := h.inRange
  slots id hid := by
    have hs := h.slots id hid
    refine ⟨hs.constant, fun r hv hr => (ha r).1 (hs.real r hv hr), fun object ho => ?_,
      hs.fromStart⟩
    obtain ⟨r, hr, hh, hn⟩ := hs.held object ho
    exact ⟨r, hr, hh, fun hr => hn ((ha r).2 hr)⟩
  kind := h.kind
  keeps := h.keeps
  own := h.own
  met b id hb := (hd b).1 (h.met b id hb)
  waiting b hb hn := (ha b).1 (h.waiting b ((hd b).2 hb) hn)
  subset b hb := (hd b).1 (h.subset ((ha b).2 hb))
  begun := h.begun
  later b hb := h.later b ((ha b).2 hb)

/-- A box that was not defined yet was not met either. -/
theorem index_of_not_defined (h : v.Consistent defined available start) {r : Box}
    (hr : r ∉ defined) : v.index.get? (.box r) = none := by
  cases hi : v.index.get? (.box r) with
  | none => rfl
  | some id => exact absurd (h.met r id hi) hr

theorem not_start (h : v.Consistent defined available start) {r : Box} (hr : r ∉ defined) :
    r ∉ start := by
  intro hs
  obtain ⟨id, hid⟩ := h.begun r hs
  exact hr (h.met r id hid)

/-- Constants stand for themselves also behind a box that is met. -/
theorem keeps_valueOf (h : v.Consistent defined available start) (r : Box) (c : Const)
    (id : ValueId) (hid : (v.valueOf (.box r)).2.index.get? (.const c) = some id) :
    ((v.valueOf (.box r)).2.slot id).operand = .const c := by
  have hne : Operand.box r ≠ .const c := nofun
  rw [index_valueOf_of_ne hne] at hid
  rw [slot_valueOf _ (h.inRange _ _ hid)]
  exact h.keeps c id hid

/-- Two slots that stand for one box are one slot. -/
theorem slot_unique (h : v.Consistent defined available start) {i j : ValueId} {r : Box}
    (hi : i < v.slots.size) (hj : j < v.slots.size) (hir : (v.slot i).operand = .box r)
    (hjr : (v.slot j).operand = .box r) : i = j := by
  have := h.own i hi r hir
  rw [h.own j hj r hjr] at this
  exact (Option.some.inj this).symm

/-! ### Changing one slot -/

/-- A slot changes, but what it stands for stays or becomes a constant. -/
theorem modifySlot (h : v.Consistent defined available start) {id : ValueId} {f : Slot → Slot}
    (hsound : (v.slot id).Sound available start v.slots.size →
      (f (v.slot id)).Sound available start v.slots.size)
    (hfrom : (f (v.slot id)).fromStart = (v.slot id).fromStart)
    (hkind : (f (v.slot id)).operand.kind = (v.slot id).operand.kind)
    (hop : (f (v.slot id)).operand = (v.slot id).operand ∨
      (v.slot id).operand.isConst = false ∧ (f (v.slot id)).operand.isConst = true) :
    (v.modifySlot id f).Consistent defined available start := by
  have hslot := v.slot_modifySlot id
  have hsame : ∀ j, (((v.modifySlot id f).slot j).fromStart = (v.slot j).fromStart) ∧
      ((v.modifySlot id f).slot j).operand.kind = (v.slot j).operand.kind := by
    intro j
    rw [hslot]
    split
    next hj =>
      rw [hj.1]
      exact ⟨hfrom, hkind⟩
    next => exact ⟨rfl, rfl⟩
  exact {
    inRange := fun a j hj => by simpa using h.inRange a j hj
    slots := fun j hj => by
      rw [size_modifySlot] at hj ⊢
      rw [hslot]
      split
      next he => exact he.1 ▸ hsound (he.1 ▸ h.slots j hj)
      next => exact h.slots j hj
    kind := fun a j hj => by
      rw [(hsame j).2]
      exact h.kind a j hj
    keeps := fun c j hj => by
      have hc := h.keeps c j hj
      rw [hslot]
      split
      next he =>
        rw [he.1] at hc ⊢
        rcases hop with hop | ⟨hno, _⟩
        · rw [hop, hc]
        · rw [hc] at hno
          cases hno
      next => exact hc
    own := fun j hj r hr => by
      rw [size_modifySlot] at hj
      rw [hslot] at hr
      split at hr
      next he =>
        rcases hop with hop | ⟨_, hc⟩
        · exact h.own j hj r (he.1 ▸ hop ▸ he.1 ▸ hr)
        · rw [he.1, ] at hr
          rw [hr] at hc
          cases hc
      next => exact h.own j hj r hr
    met := h.met
    waiting := h.waiting
    subset := h.subset
    begun := h.begun
    later := fun b hb hs j hj => by
      rw [(hsame j).1]
      exact h.later b hb hs j hj }

theorem makeConstant (h : v.Consistent defined available start) {id : ValueId} {c : Const}
    (hkind : c.kind = (v.slot id).operand.kind)
    (hop : (v.slot id).operand.isConst = false) :
    (v.makeConstant id c).Consistent defined available start := by
  refine h.modifySlot (fun _ => ?_) rfl hkind (.inr ⟨hop, rfl⟩)
  exact ⟨rfl, by rintro _ _ ⟨⟩, by rintro _ ⟨⟩, by rintro _ ⟨⟩⟩

/-- A slot of which more is known stands for what it stood for. -/
theorem learn (h : v.Consistent defined available start) {id : ValueId} {f : Slot → Slot}
    (hop : ∀ s, (f s).operand = s.operand) (hv : ∀ s, (f s).virtual = s.virtual)
    (hfrom : ∀ s, (f s).fromStart = s.fromStart) (hc : ∀ s, (f s).isConstant = s.isConstant) :
    (v.modifySlot id f).Consistent defined available start := by
  refine h.modifySlot (fun hs => ?_) (hfrom _) (by rw [hop]) (.inl (hop _))
  refine ⟨by rw [hc, hop, hs.constant], ?_, ?_, ?_⟩
  · rw [hop, hv]
    exact hs.real
  · rw [hop, hv]
    exact hs.held
  · rw [hop, hfrom]
    exact hs.fromStart

theorem makeNonNull (h : v.Consistent defined available start) (id : ValueId) :
    (v.makeNonNull id).Consistent defined available start := by
  refine h.learn ?_ ?_ ?_ ?_ <;> intro s <;> split <;> simp_all [Slot.isConstant]

theorem setClass (h : v.Consistent defined available start) (id : ValueId) (c : Const) :
    (v.setClass id c).Consistent defined available start :=
  h.learn (fun _ => rfl) (fun _ => rfl) (fun _ => rfl) fun _ => rfl

/-- A field of a virtual object is written with a value that exists. -/
theorem setField (h : v.Consistent defined available start) (id : ValueId) (name : String)
    {value : ValueId} (hvalue : value < v.slots.size) :
    (v.setField id name value).Consistent defined available start := by
  refine h.modifySlot (fun hs => ?_) rfl rfl (.inl rfl)
  refine ⟨hs.constant, fun r hv hr => hs.real r (by simpa using hv) hr, fun object ho => ?_,
    hs.fromStart⟩
  obtain ⟨object', ho', rfl⟩ := Option.map_eq_some_iff.1 ho
  obtain ⟨r, hr, hh, hn⟩ := hs.held object' ho'
  refine ⟨r, hr, {hh with fields := fun name' id' hid => ?_}, hn⟩
  rcases Bindings.mem_put hid with hid | hid
  · exact hh.fields name' id' hid
  · cases hid
    exact hvalue

/-! ### Defining a box -/

/-- An operation that defines a box is written to the list. -/
theorem define (h : v.Consistent defined available start) {r : Box} (hr : r ∉ defined) :
    v.Consistent (r :: defined) (r :: available) start where
  inRange := h.inRange
  slots id hid := by
    have hs := h.slots id hid
    refine ⟨hs.constant, fun b hv hb => .tail _ (hs.real b hv hb), fun object ho => ?_,
      hs.fromStart⟩
    obtain ⟨b, hb, hh, hn⟩ := hs.held object ho
    refine ⟨b, hb, hh, fun hmem => ?_⟩
    rcases List.mem_cons.1 hmem with rfl | hmem
    · exact hr (h.met b id (h.own id hid b hb))
    · exact hn hmem
  kind := h.kind
  keeps := h.keeps
  own := h.own
  met b id hb := .tail _ (h.met b id hb)
  waiting b hb hn := by
    rcases List.mem_cons.1 hb with rfl | hb
    · exact List.mem_cons_self ..
    · exact .tail _ (h.waiting b hb hn)
  subset b hb := by
    rcases List.mem_cons.1 hb with rfl | hb
    · exact List.mem_cons_self ..
    · exact .tail _ (h.subset hb)
  begun := h.begun
  later b hb hs id hid := by
    rcases List.mem_cons.1 hb with rfl | hb
    · exact absurd (h.met b id hid) hr
    · exact h.later b hb hs id hid

/-- A box that is defined stands for a value from now on. -/
theorem forward (h : v.Consistent defined available start) {r : Box} {id : ValueId}
    (hr : r ∉ defined) (hid : id < v.slots.size) (hkind : (v.slot id).operand.kind = r.kind) :
    (v.forward r id).Consistent (r :: defined) available start := by
  exact {
    inRange := fun a j hj => by
      rw [index_forward] at hj
      split at hj
      · cases hj
        exact hid
      · exact h.inRange a j hj
    slots := h.slots
    kind := fun a j hj => by
      rw [index_forward] at hj
      split at hj
      next he =>
        cases hj
        rw [← he]
        exact hkind
      next => exact h.kind a j hj
    keeps := fun c j hj => by
      rw [index_forward, if_neg (by simp)] at hj
      exact h.keeps c j hj
    own := fun j hj b hb => by
      have ho := h.own j hj b hb
      rw [index_forward, if_neg, ho]
      rintro he
      cases he
      exact hr (h.met r j ho)
    met := fun b j hj => by
      rw [index_forward] at hj
      split at hj
      next he =>
        cases he
        exact List.mem_cons_self ..
      next => exact .tail _ (h.met b j hj)
    waiting := fun b hb hn => by
      rw [index_forward] at hn
      split at hn
      next => cases hn
      next hne =>
        rcases List.mem_cons.1 hb with rfl | hb
        · exact absurd rfl hne
        · exact h.waiting b hb hn
    subset := fun b hb => .tail _ (h.subset hb)
    begun := fun b hb => by
      obtain ⟨j, hj⟩ := h.begun b hb
      refine ⟨j, ?_⟩
      rw [index_forward, if_neg, hj]
      rintro he
      cases he
      exact hr (h.met r j hj)
    later := fun b hb hs j hj => by
      rw [index_forward, if_neg] at hj
      · exact h.later b hb hs j hj
      · rintro he
        cases he
        exact hr (h.subset hb) }

/-! ### Meeting an operand -/

/-- A new slot for an operand that was not met. -/
theorem push (h : v.Consistent defined available start) {defined' : List Box} {a : Operand}
    {s : Slot} (ha : v.index.get? a = none)
    (hs : s.Sound available start (v.slots.size + 1)) (hfrom : s.fromStart = false)
    (hkind : s.operand.kind = a.kind) (hkeeps : ∀ c, a = .const c → s.operand = .const c)
    (hown : ∀ r, s.operand = .box r → a = .box r)
    (hdefined : ∀ b, b ∈ defined' ↔ b ∈ defined ∨ a = .box b) :
    (v.push a s).Consistent defined' available start := by
  have hold : ∀ {j}, j < v.slots.size → (v.push a s).slot j = v.slot j :=
    v.slot_push_of_lt a s
  have hnew : (v.push a s).slot v.slots.size = s := v.slot_push_self a s
  have hindex := v.index_push a s
  have hsize : (v.push a s).slots.size = v.slots.size + 1 := v.size_push a s
  exact {
    inRange := fun b j hj => by
      rw [hindex] at hj
      rw [hsize]
      split at hj
      · cases hj
        exact Nat.lt_succ_self _
      · exact Nat.lt_succ_of_lt (h.inRange b j hj)
    slots := fun j hj => by
      rw [hsize] at hj ⊢
      rcases Nat.lt_succ_iff_lt_or_eq.1 hj with hj | rfl
      · rw [hold hj]
        exact (h.slots j hj).mono (Nat.le_succ _)
      · rw [hnew]
        exact hs
    kind := fun b j hj => by
      rw [hindex] at hj
      split at hj
      next he =>
        cases hj
        rw [hnew, hkind, he]
      next =>
        rw [hold (h.inRange b j hj)]
        exact h.kind b j hj
    keeps := fun c j hj => by
      rw [hindex] at hj
      split at hj
      next he =>
        cases hj
        rw [hnew]
        exact hkeeps c he
      next =>
        rw [hold (h.inRange _ j hj)]
        exact h.keeps c j hj
    own := fun j hj r hr => by
      rw [hsize] at hj
      rw [hindex]
      rcases Nat.lt_succ_iff_lt_or_eq.1 hj with hj | rfl
      · rw [hold hj] at hr
        rw [if_neg, h.own j hj r hr]
        rintro rfl
        rw [h.own j hj r hr] at ha
        cases ha
      · rw [hnew] at hr
        rw [if_pos (hown r hr)]
    met := fun b j hj => by
      rw [hindex] at hj
      split at hj
      next he => exact (hdefined b).2 (.inr he)
      next => exact (hdefined b).2 (.inl (h.met b j hj))
    waiting := fun b hb hn => by
      rw [hindex] at hn
      split at hn
      next => cases hn
      next hne => exact h.waiting b (((hdefined b).1 hb).resolve_right hne) hn
    subset := fun b hb => (hdefined b).2 (.inl (h.subset hb))
    begun := fun b hb => by
      obtain ⟨j, hj⟩ := h.begun b hb
      refine ⟨j, ?_⟩
      rw [hindex, if_neg, hj]
      rintro rfl
      rw [hj] at ha
      cases ha
    later := fun b hb hs' j hj => by
      rw [hindex] at hj
      split at hj
      next =>
        cases hj
        rw [hnew, hfrom]
      next =>
        rw [hold (h.inRange _ j hj)]
        exact h.later b hb hs' j hj }

/-- An operand that may be read is met. -/
theorem valueOf (h : v.Consistent defined available start) {a : Operand}
    (ha : ∀ b, a = .box b → b ∈ defined) :
    (v.valueOf a).2.Consistent defined available start := by
  cases hi : v.index.get? a with
  | some id =>
    rw [valueOf_known hi]
    exact h
  | none =>
    rw [valueOf_new hi]
    refine h.push hi ?_ rfl rfl (fun _ he => he) (fun _ he => he) fun b => ?_
    · refine ⟨?_, fun r _ hr => ?_, by rintro _ ⟨⟩, fun r hr => ?_⟩
      · cases a <;> rfl
      · cases show a = .box r from hr
        exact h.waiting r (ha r rfl) hi
      · cases show a = .box r from hr
        refine ⟨nofun, fun hs => ?_⟩
        obtain ⟨id, hid⟩ := h.begun r hs
        rw [hi] at hid
        cases hid
    · exact ⟨.inl, fun hb => hb.elim id (ha b)⟩

/-- A box that is defined gets a slot of its own, which holds what is made of it. -/
theorem adopt (h : v.Consistent defined available start) {r : Box} {f : Slot → Slot}
    (hr : r ∉ defined)
    (hs : (f (fresh (.box r))).Sound available start (v.slots.size + 1))
    (hfrom : (f (fresh (.box r))).fromStart = false)
    (hkind : (f (fresh (.box r))).operand.kind = r.kind)
    (hown : ∀ b, (f (fresh (.box r))).operand = .box b → r = b) :
    ((v.valueOf (.box r)).2.modifySlot (v.valueOf (.box r)).1 f).Consistent
      (r :: defined) available start := by
  have hi := h.index_of_not_defined hr
  rw [valueOf_new hi, modifySlot_push]
  refine h.push hi hs hfrom hkind (by rintro _ ⟨⟩) (fun b hb => by rw [hown b hb]) fun b => ?_
  rw [List.mem_cons, Operand.box.injEq, or_comm, eq_comm]

/-- A box that is defined is known to be a constant. -/
theorem adoptConstant (h : v.Consistent defined available start) {r : Box} {c : Const}
    (hr : r ∉ defined) (hc : c.kind = r.kind) :
    ((v.valueOf (.box r)).2.makeConstant (v.valueOf (.box r)).1 c).Consistent
      (r :: defined) available start :=
  h.adopt hr ⟨rfl, by rintro _ _ ⟨⟩, by rintro _ ⟨⟩, by rintro _ ⟨⟩⟩ rfl hc (by rintro _ ⟨⟩)

/-- An allocation is held back. -/
theorem makeVirtual (h : v.Consistent defined available start) {op : Operation} {r : Box}
    (hr : r ∉ defined) (hop : Virtual.Holds { allocation := op } r 0) :
    (v.makeVirtual op).2.Consistent (r :: defined) available start := by
  have hheld := h.adopt (f := fun s =>
      {s with level := .nonNull, virtual := some { allocation := op }}) hr
    ⟨rfl, by rintro _ ⟨⟩, fun object ho => ?_, fun b hb => ?_⟩ rfl rfl fun b hb => by cases hb; rfl
  · have hresult : op.result = some r := hop.result
    simpa [Values.makeVirtual, hresult] using hheld
  · cases ho
    exact ⟨r, rfl, hop.mono (Nat.zero_le _), fun hm => hr (h.subset hm)⟩
  · cases hb
    exact ⟨nofun, fun hs => absurd hs (h.not_start hr)⟩

/-! ### Forcing and the start -/

/-- The allocation of a virtual object is written to the list. -/
theorem materialize (h : v.Consistent defined available start) {id : ValueId} {r : Box}
    (hid : id < v.slots.size) (hr : (v.slot id).operand = .box r)
    (hv : (v.slot id).virtual ≠ none) :
    (v.materialize id).Consistent defined (r :: available) start := by
  have hslot : ∀ j, (v.materialize id).slot j =
      if j = id then {v.slot j with virtual := none} else v.slot j := by
    intro j
    show (v.modifySlot id _).slot j = _
    rw [slot_modifySlot]
    by_cases hj : j = id
    · simp [hj, hid]
    · simp [hj]
  have hrest : ∀ j, ((v.materialize id).slot j).operand = (v.slot j).operand ∧
      ((v.materialize id).slot j).fromStart = (v.slot j).fromStart := by
    intro j
    rw [hslot]
    split <;> exact ⟨rfl, rfl⟩
  have hsize : (v.materialize id).slots.size = v.slots.size := by
    simp [Values.materialize]
  exact {
    inRange := fun a j hj => by
      rw [hsize]
      exact h.inRange a j hj
    slots := fun j hj => by
      rw [hsize] at hj ⊢
      have hs := h.slots j hj
      rw [hslot]
      split
      next he =>
        subst he
        refine ⟨hs.constant, fun b _ hb => ?_, by rintro _ ⟨⟩, hs.fromStart⟩
        rw [show (v.slot j).operand = .box b from hb] at hr
        cases hr
        exact List.mem_cons_self ..
      next hne =>
        refine ⟨hs.constant, fun b hv' hb => .tail _ (hs.real b hv' hb), fun object ho => ?_,
          hs.fromStart⟩
        obtain ⟨b, hb, hh, hn⟩ := hs.held object ho
        refine ⟨b, hb, hh, fun hm => ?_⟩
        rcases List.mem_cons.1 hm with rfl | hm
        · exact hne (h.slot_unique hj hid hb hr)
        · exact hn hm
    kind := fun a j hj => by
      rw [(hrest j).1]
      exact h.kind a j hj
    keeps := fun c j hj => by
      rw [(hrest j).1]
      exact h.keeps c j hj
    own := fun j hj b hb => by
      rw [hsize] at hj
      rw [(hrest j).1] at hb
      exact h.own j hj b hb
    met := h.met
    waiting := fun b hb hn => .tail _ (h.waiting b hb hn)
    subset := fun b hb => by
      rcases List.mem_cons.1 hb with rfl | hb
      · exact h.met b id (h.own id hid b hr)
      · exact h.subset hb
    begun := h.begun
    later := fun b hb hs j hj => by
      rw [(hrest j).2]
      rcases List.mem_cons.1 hb with rfl | hb
      · have hj' : v.index.get? (.box b) = some j := hj
        rw [h.own id hid b hr] at hj'
        cases hj'
        exact Bool.eq_false_iff.2 fun ht => hs (((h.slots id hid).fromStart b hr).1 ht)
      · exact h.later b hb hs j hj }

theorem slot_markFromStart (v : Values) (id : ValueId) (hid : id < v.slots.size) :
    v.markFromStart.slot id = {v.slot id with fromStart := (v.slot id).isSafeToForce} := by
  have hid' : id < v.markFromStart.slots.size := by simpa [Values.markFromStart] using hid
  rw [slot_of_lt hid', slot_of_lt hid]
  simp [Values.markFromStart]

/-- What is available when the list begins to go round exists since before it does. -/
theorem markFromStart (h : v.Consistent defined available [])
    (hmet : ∀ b ∈ available, ∃ id, v.index.get? (.box b) = some id) :
    v.markFromStart.Consistent defined available available := by
  have hsize : v.markFromStart.slots.size = v.slots.size := by simp [Values.markFromStart]
  have hslot := slot_markFromStart v
  exact {
    inRange := fun a j hj => by
      rw [hsize]
      exact h.inRange a j hj
    slots := fun j hj => by
      rw [hsize] at hj ⊢
      have hs := h.slots j hj
      rw [hslot j hj]
      refine ⟨hs.constant, hs.real, hs.held, fun r hr => ?_⟩
      have hr' : (v.slot j).operand = .box r := hr
      have hc : (v.slot j).isConstant = false := by rw [hs.constant, hr']; rfl
      simp only [Slot.isSafeToForce, hc, Bool.not_false, Bool.true_and, Bool.not_eq_true',
        Slot.isVirtual]
      cases hv : (v.slot j).virtual with
      | none => simpa using hs.real r hv hr'
      | some object =>
        obtain ⟨b, hb, _, hn⟩ := hs.held object hv
        rw [hr'] at hb
        cases hb
        simpa using hn
    kind := fun a j hj => by
      rw [hslot j (h.inRange a j hj)]
      exact h.kind a j hj
    keeps := fun c j hj => by
      rw [hslot j (h.inRange _ j hj)]
      exact h.keeps c j hj
    own := fun j hj r hr => by
      rw [hsize] at hj
      rw [hslot j hj] at hr
      exact h.own j hj r hr
    met := h.met
    waiting := h.waiting
    subset := h.subset
    begun := hmet
    later := fun b hb hs => absurd hb hs }

end Consistent
end Values
end TracePeel
