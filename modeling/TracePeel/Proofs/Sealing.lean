import TracePeel.Proofs.Intact
import TracePeel.Proofs.Running

/-! What forcing writes.

When the list goes round, objects that the preamble held back to its end may still stand in
the table. Their slots are stale: no operand that is still used leads to one of them, and
none is in a field of an object that is not stale. What is forced was therefore allocated,
and its fields written, by the operations of the same way through the trace. -/
namespace TracePeel

/-- Whether a pass may settle the operation without writing it. -/
def Opcode.mayVanish (o : Opcode) : Bool :=
  o.isGuard || o.isAlwaysPure || o == .new || o == .setfieldGc || o == .getfieldGc

/-- What forcing an object writes that some operations allocate: its allocation, and writes
to fields that one of them wrote. -/
inductive Operation.SuppliedBy (source : List Operation) : Operation → Prop
  | allocation {a : Operation} : a ∈ source → a.opcode = .new → SuppliedBy source a
  | fieldWrite {a w : Operation} {r : Box} {name : String} (value : Operand) : a ∈ source →
      a.opcode = .new → a.result = some r → w ∈ source → w.opcode = .setfieldGc →
      w.descrName? = some name → SuppliedBy source (.setField (.box r) name value)

theorem Operation.SuppliedBy.mono {source source' : List Operation} (hsub : source ⊆ source')
    {op : Operation} (h : op.SuppliedBy source) : op.SuppliedBy source' := by
  cases h with
  | allocation ha hnew => exact .allocation (hsub ha) hnew
  | fieldWrite value ha hnew hr hw hset hname =>
    exact .fieldWrite value (hsub ha) hnew hr (hsub hw) hset hname

/-- What is forced produces nothing that the operations do not. -/
theorem Operation.SuppliedBy.result_mem {source : List Operation} {op : Operation} {r : Box}
    (h : op.SuppliedBy source) (hr : op.result = some r) : r ∈ results source := by
  cases h with
  | allocation ha _ => exact mem_results.2 ⟨_, ha, hr⟩
  | fieldWrite => cases hr

/-- The object stands for a box that some operations allocate, and holds nothing stale. -/
structure Virtual.HeldFrom (stale : ValueId → Prop) (source : List Operation) (operand : Operand)
    (object : Virtual) : Prop where
  allocated : object.allocation ∈ source
  opcode : object.allocation.opcode = .new
  stands : ∃ r, object.allocation.result = some r ∧ operand = .box r
  fields : ∀ name value, (name, value) ∈ object.fields.entries → ¬ stale value ∧
    ∃ w ∈ source, w.opcode = .setfieldGc ∧ w.descrName? = some name

namespace Values

/-- The operand does not lead to a stale slot. -/
def Live (stale : ValueId → Prop) (v : Values) (a : Operand) : Prop :=
  ∀ id, v.index.get? a = some id → ¬ stale id

/-- The slot is not stale and holds no object. -/
def Solid (stale : ValueId → Prop) (v : Values) (id : ValueId) : Prop :=
  ¬ stale id ∧ (v.slot id).virtual = none

/-- Nothing that is not stale leads to a stale slot. Each box that a slot is emitted as leads
back to it. -/
structure Sealed (stale : ValueId → Prop) (seen : Box → Prop) (source : List Operation)
    (v : Values) : Prop where
  inRange : v.InRange
  stale_lt : ∀ id, stale id → id < v.slots.size
  constant : ∀ c id, v.index.get? (.const c) = some id → v.Solid stale id
  marked : ∀ id, (v.slot id).fromStart = true → ¬ stale id
  held : ∀ id object, ¬ stale id → (v.slot id).virtual = some object →
    object.HeldFrom stale source (v.slot id).operand
  home : ∀ id b, (v.slot id).operand = .box b → v.index.get? (.box b) = some id
  seen : ∀ b id, v.index.get? (.box b) = some id → seen b

/-- The table stays sealed and its stale slots as they are, no operand comes to lead to one of
them, and no slot that is there comes to hold an object. -/
structure Moves (stale : ValueId → Prop) (seen : Box → Prop) (source : List Operation)
    (v v' : Values) : Prop where
  table : v'.Sealed stale seen source
  size : v.slots.size ≤ v'.slots.size
  live : ∀ a, v.Live stale a → v'.Live stale a
  kept : ∀ id, stale id → v'.slot id = v.slot id
  solid : ∀ id, id < v.slots.size → v.Solid stale id → v'.Solid stale id

section
variable {stale : ValueId → Prop} {seen : Box → Prop} {source : List Operation}
  {v v₁ v₂ : Values}

theorem Sealed.refl (h : v.Sealed stale seen source) : Moves stale seen source v v :=
  ⟨h, Nat.le_refl _, fun _ => id, fun _ _ => rfl, fun _ _ => id⟩

theorem Moves.trans (h₁ : Moves stale seen source v v₁) (h₂ : Moves stale seen source v₁ v₂) :
    Moves stale seen source v v₂ :=
  ⟨h₂.table, Nat.le_trans h₁.size h₂.size, fun a ha => h₂.live a (h₁.live a ha),
    fun id hid => (h₂.kept id hid).trans (h₁.kept id hid),
    fun id hid hs => h₂.solid id (Nat.lt_of_lt_of_le hid h₁.size) (h₁.solid id hid hs)⟩

/-- A constant never leads to a stale slot. -/
theorem Sealed.live_const (h : v.Sealed stale seen source) (c : Const) : v.Live stale (.const c) :=
  fun id hid => (h.constant c id hid).1

/-- What a slot is emitted as leads back to it. -/
theorem Sealed.live_operand (h : v.Sealed stale seen source) {id : ValueId} (hid : ¬ stale id) :
    v.Live stale (v.slot id).operand ∧ ∀ b, (v.slot id).operand = .box b → seen b := by
  refine ⟨?_, fun b hb => h.seen b id (h.home id b hb)⟩
  cases ho : (v.slot id).operand with
  | const c => exact h.live_const c
  | box b =>
    intro id' hid'
    rw [h.home id b ho] at hid'
    cases hid'
    exact hid

/-- A slot is added for an operand that was not met before. -/
theorem Sealed.push (h : v.Sealed stale seen source) {a : Operand} {s : Slot}
    (hnone : v.index.get? a = none) (hseen : ∀ b, a = .box b → seen b)
    (hoperand : s.operand = a) (hstart : s.fromStart = false)
    (hreal : a.isConst = true → s.virtual = none)
    (hheld : ∀ object, s.virtual = some object → object.HeldFrom stale source a) :
    Moves stale seen source v (v.push a s) := by
  have hnew : ¬ stale v.slots.size := fun hs => Nat.lt_irrefl _ (h.stale_lt _ hs)
  have hsolid : ∀ id, id < v.slots.size → v.Solid stale id → (v.push a s).Solid stale id := by
    rintro id hid ⟨hs, hv⟩
    exact ⟨hs, by rw [slot_push_of_lt v a s hid]; exact hv⟩
  refine ⟨⟨?_, ?_, ?_, ?_, ?_, ?_, ?_⟩, by simp, ?_,
    fun id hid => slot_push_of_lt v a s (h.stale_lt id hid), hsolid⟩
  · intro b id hid
    rw [index_push] at hid
    rw [size_push]
    split at hid
    next => cases hid; exact Nat.lt_succ_self _
    next => exact Nat.lt_succ_of_lt (h.inRange b id hid)
  · intro id hid
    rw [size_push]
    exact Nat.lt_succ_of_lt (h.stale_lt id hid)
  · intro c id hid
    rw [index_push] at hid
    split at hid
    next he =>
      cases hid
      exact ⟨hnew, by rw [slot_push_self]; exact hreal (he ▸ rfl)⟩
    next => exact hsolid id (h.inRange _ id hid) (h.constant c id hid)
  · intro id hid
    rw [slot_push] at hid
    split at hid
    next => rw [hstart] at hid; cases hid
    next => exact h.marked id hid
  · intro id object hid hv
    rw [slot_push] at hv ⊢
    split at hv
    next he =>
      rw [if_pos he, hoperand]
      exact hheld object hv
    next hne =>
      rw [if_neg hne]
      exact h.held id object hid hv
  · intro id b hb
    rw [slot_push] at hb
    rw [index_push]
    split at hb
    next he => rw [if_pos (hoperand.symm.trans hb), he]
    next =>
      have hb' := h.home id b hb
      rw [if_neg]
      · exact hb'
      · rintro rfl
        rw [hnone] at hb'
        cases hb'
  · intro b id hid
    rw [index_push] at hid
    split at hid
    next he => exact hseen b he
    next => exact h.seen b id hid
  · intro b hb id hid
    rw [index_push] at hid
    split at hid
    next =>
      cases hid
      exact hnew
    next => exact hb id hid

theorem Sealed.valueOf (h : v.Sealed stale seen source) (a : Operand)
    (ha : ∀ b, a = .box b → seen b) : Moves stale seen source v (v.valueOf a).2 := by
  cases hget : v.index.get? a with
  | some id =>
    rw [valueOf_known hget]
    exact h.refl
  | none =>
    rw [valueOf_new hget]
    exact h.push hget ha rfl rfl (fun _ => rfl) fun _ hv => absurd hv (Option.some_ne_none _).symm

/-- A slot that is not stale is changed, and not into one that holds another object. -/
theorem Sealed.modifySlot (h : v.Sealed stale seen source) {id : ValueId} (hid : ¬ stale id)
    {f : Slot → Slot} (hstart : (f (v.slot id)).fromStart = (v.slot id).fromStart)
    (hoperand : ∀ b, (f (v.slot id)).operand = .box b → (v.slot id).operand = .box b)
    (hreal : (v.slot id).virtual = none → (f (v.slot id)).virtual = none)
    (hheld : ∀ object, (f (v.slot id)).virtual = some object →
      object.HeldFrom stale source (f (v.slot id)).operand) :
    Moves stale seen source v (v.modifySlot id f) := by
  have hsolid : ∀ j, v.Solid stale j → (v.modifySlot id f).Solid stale j := by
    rintro j ⟨hs, hv⟩
    refine ⟨hs, ?_⟩
    rw [slot_modifySlot]
    split
    next he =>
      rw [he.1] at hv ⊢
      exact hreal hv
    next => exact hv
  refine ⟨⟨?_, ?_, ?_, ?_, ?_, ?_, h.seen⟩, by simp, fun _ ha => ha,
    fun j hj => slot_modifySlot_of_ne f fun he => hid (he ▸ hj), fun j _ => hsolid j⟩
  · intro a j hj
    rw [size_modifySlot]
    exact h.inRange a j hj
  · intro j hj
    rw [size_modifySlot]
    exact h.stale_lt j hj
  · exact fun c j hj => hsolid j (h.constant c j hj)
  · intro j hj
    rw [slot_modifySlot] at hj
    split at hj
    next he =>
      rw [he.1, hstart] at hj
      exact he.1 ▸ h.marked id hj
    next => exact h.marked j hj
  · intro j object hj hv
    rw [slot_modifySlot] at hv ⊢
    split at hv
    next he =>
      rw [if_pos he]
      rw [he.1] at hv ⊢
      exact hheld object hv
    next hne =>
      rw [if_neg hne]
      exact h.held j object hj hv
  · intro j b hb
    rw [slot_modifySlot] at hb
    refine h.home j b ?_
    split at hb
    next he =>
      rw [he.1] at hb ⊢
      exact hoperand b hb
    next => exact hb

theorem Sealed.makeConstant (h : v.Sealed stale seen source) {id : ValueId} (hid : ¬ stale id)
    (c : Const) : Moves stale seen source v (v.makeConstant id c) :=
  h.modifySlot hid rfl (fun _ hb => by cases hb) (fun _ => rfl) fun _ hv =>
    absurd hv (Option.some_ne_none _).symm

theorem Sealed.makeNonNull (h : v.Sealed stale seen source) {id : ValueId} (hid : ¬ stale id) :
    Moves stale seen source v (v.makeNonNull id) := by
  refine h.modifySlot hid ?_ (fun b hb => ?_) (fun hv => ?_) (fun object hv => ?_)
  · split <;> rfl
  · split at hb <;> exact hb
  · split <;> exact hv
  · split at hv
    next hl => rw [if_pos hl]; exact h.held id object hid hv
    next hl => rw [if_neg hl]; exact h.held id object hid hv

theorem Sealed.setClass (h : v.Sealed stale seen source) {id : ValueId} (hid : ¬ stale id)
    (c : Const) : Moves stale seen source v (v.setClass id c) :=
  h.modifySlot hid rfl (fun _ hb => hb) (fun hv => hv) fun object hv => h.held id object hid hv

/-- A field is written with a value that is not stale. -/
theorem Sealed.setField (h : v.Sealed stale seen source) {id value : ValueId}
    {name : String} (hid : ¬ stale id) (hvalue : ¬ stale value)
    (hw : ∃ w ∈ source, w.opcode = .setfieldGc ∧ w.descrName? = some name) :
    Moves stale seen source v (v.setField id name value) := by
  refine h.modifySlot hid rfl (fun _ hb => hb) (fun hv => ?_) (fun object hv => ?_)
  · show (v.slot id).virtual.map _ = none
    rw [hv]
    rfl
  · obtain ⟨old, hold, rfl⟩ := Option.map_eq_some_iff.1 hv
    have hheld := h.held id old hid hold
    refine ⟨hheld.allocated, hheld.opcode, hheld.stands, fun name' value' hmem => ?_⟩
    rcases Bindings.mem_put hmem with hmem | he
    · exact hheld.fields name' value' hmem
    · cases he
      exact ⟨hvalue, hw⟩

/-- An allocation is held back under a box that was not met before. -/
theorem Sealed.makeVirtual (h : v.Sealed stale seen source) {op : Operation} {r : Box}
    (hop : op.opcode = .new) (hr : op.result = some r) (hsource : op ∈ source)
    (hnone : v.index.get? (.box r) = none) (hseen : seen r) :
    Moves stale seen source v (v.makeVirtual op).2 := by
  unfold Values.makeVirtual
  rw [hr]
  show Moves stale seen source v (((v.valueOf (.box r)).2).modifySlot (v.valueOf (.box r)).1 _)
  rw [valueOf_new hnone, modifySlot_push]
  refine h.push hnone (by rintro _ ⟨⟩; exact hseen) rfl rfl nofun ?_
  rintro _ ⟨⟩
  exact ⟨hsource, hop, ⟨r, hr, rfl⟩, by rintro _ _ ⟨⟩⟩

/-- A box that was not met before comes to stand for a value that is not stale. -/
theorem Sealed.forward (h : v.Sealed stale seen source) {b : Box} {id : ValueId}
    (hnone : v.index.get? (.box b) = none) (hid : ¬ stale id) (hlt : id < v.slots.size)
    (hseen : seen b) : Moves stale seen source v (v.forward b id) := by
  refine ⟨⟨?_, h.stale_lt, ?_, h.marked, h.held, ?_, ?_⟩, Nat.le_refl _, ?_, fun _ _ => rfl,
    fun _ _ hs => hs⟩
  · intro a j hj
    rw [index_forward] at hj
    split at hj
    next => cases hj; exact hlt
    next => exact h.inRange a j hj
  · intro c j hj
    rw [index_forward, if_neg (by simp)] at hj
    exact h.constant c j hj
  · intro j b' hb'
    have hhome := h.home j b' hb'
    rw [index_forward, if_neg]
    · exact hhome
    · rintro ⟨⟩
      rw [hnone] at hhome
      cases hhome
  · intro b' j hj
    rw [index_forward] at hj
    split at hj
    next he => cases he; exact hseen
    next => exact h.seen b' j hj
  · intro a ha j hj
    rw [index_forward] at hj
    split at hj
    next => cases hj; exact hid
    next => exact ha j hj

theorem Sealed.mono (h : v.Sealed stale seen source) {seen' : Box → Prop}
    {source' : List Operation} (hseen : ∀ b, seen b → seen' b) (hsub : source ⊆ source') :
    v.Sealed stale seen' source' :=
  ⟨h.inRange, h.stale_lt, h.constant, h.marked, fun id object hid hv => by
    have hheld := h.held id object hid hv
    refine ⟨hsub hheld.allocated, hheld.opcode, hheld.stands, fun name value hmem => ?_⟩
    obtain ⟨hlive, w, hw, hset⟩ := hheld.fields name value hmem
    exact ⟨hlive, w, hsub hw, hset⟩, h.home, fun b id hid => hseen b (h.seen b id hid)⟩

/-- What is not held back is not held back when some objects are forced. -/
theorem Solid.forced {id : ValueId} (h : v.Solid stale id) {v' : Values} (hf : v.Forced v') :
    v'.Solid stale id :=
  ⟨h.1, hf.virtual_eq_none h.2⟩

/-- Some objects are forced. -/
theorem Sealed.forced (h : v.Sealed stale seen source) {v' : Values} (hf : v.Forced v') :
    v'.Sealed stale seen source := by
  refine ⟨?_, ?_, ?_, ?_, ?_, ?_, ?_⟩
  · intro a id hid
    rw [hf.size]
    exact h.inRange a id (hf.index ▸ hid)
  · intro id hid
    rw [hf.size]
    exact h.stale_lt id hid
  · exact fun c id hid => (h.constant c id (hf.index ▸ hid)).forced hf
  · intro id hid
    rw [hf.fromStart] at hid
    exact h.marked id hid
  · intro id object hid hv
    rw [hf.operand]
    rcases hf.slot id with e | e
    · exact h.held id object hid (e ▸ hv)
    · rw [e] at hv
      cases hv
  · intro id b hb
    rw [hf.operand] at hb
    rw [hf.index]
    exact h.home id b hb
  · exact fun b id hid => h.seen b id (hf.index ▸ hid)

/-- Some objects are forced, and none in a stale slot. -/
theorem Moves.forced (h : v.Sealed stale seen source) {v' : Values} (hf : v.Forced v')
    (hkept : ∀ id, stale id → v'.slot id = v.slot id) : Moves stale seen source v v' :=
  ⟨h.forced hf, Nat.le_of_eq hf.size.symm, fun _ ha id hid => ha id (hf.index ▸ hid), hkept,
    fun _ _ hs => hs.forced hf⟩

/-- A task that leads to nothing stale. -/
def Task.Sound (stale : ValueId → Prop) (source : List Operation) : Task → Prop
  | .value id => ¬ stale id
  | .fields operand entries => ∃ object : Virtual, object.HeldFrom stale source operand ∧
      entries ⊆ object.fields.entries

/-- What is forced for a value that is not stale was supplied by the operations, and stale slots
stay as they are. -/
theorem Performs.supplied {t : Task} {s s' : Values × Array Operation} (hp : Performs t s s')
    (h : s.1.Sealed stale seen source) (ht : t.Sound stale source) :
    (∀ id, stale id → s'.1.slot id = s.1.slot id) ∧
      ∃ ops, s'.2.toList = s.2.toList ++ ops ∧ ∀ op ∈ ops, op.SuppliedBy source := by
  induction hp with
  | real | written => exact ⟨fun _ _ => rfl, [], by simp, List.forall_mem_nil _⟩
  | @object id v out object s hv _ ih =>
    have hheld := h.held id object ht hv
    have hkept : ∀ j, stale j → (v.materialize id).slot j = v.slot j := fun j hj =>
      slot_modifySlot_of_ne _ fun he => ht (he ▸ hj)
    obtain ⟨hlater, ops, hout, hops⟩ := ih (h.forced (.materialize v id))
      ⟨object, hheld, List.Subset.refl _⟩
    refine ⟨fun j hj => (hlater j hj).trans (hkept j hj), object.allocation :: ops,
      by simpa using hout, fun op hop => ?_⟩
    rcases List.mem_cons.1 hop with rfl | hop
    · exact .allocation hheld.allocated hheld.opcode
    · exact hops op hop
  | @field operand name value rest s s' v out hvalue _ ih₁ ih₂ =>
    obtain ⟨object, hheld, hsub⟩ := ht
    obtain ⟨hlive, w, hw, hset, hname⟩ := hheld.fields name value (hsub (List.mem_cons_self ..))
    obtain ⟨hkept₁, ops₁, hout₁, hops₁⟩ := ih₁ h hlive
    obtain ⟨hkept₂, ops₂, hout₂, hops₂⟩ := ih₂ (h.forced hvalue.forced)
      ⟨object, hheld, fun _ he => hsub (.tail _ he)⟩
    obtain ⟨r, hr, hoperand⟩ := hheld.stands
    refine ⟨fun j hj => (hkept₂ j hj).trans (hkept₁ j hj),
      ops₁ ++ .setField operand name (v.slot value).operand :: ops₂, ?_, fun op hop => ?_⟩
    · rw [hout₂]
      simp [show out.toList = _ from hout₁]
    · rcases List.mem_append.1 hop with hop | hop
      · exact hops₁ op hop
      rcases List.mem_cons.1 hop with rfl | hop
      · rw [hoperand]
        exact .fieldWrite _ hheld.allocated hheld.opcode hr hw hset hname
      · exact hops₂ op hop

/-- Of the slots that are not stale, none is for an operand that was not met. -/
theorem Sealed.live_valueOf (h : v.Sealed stale seen source) {a : Operand}
    (ha : v.Live stale a) : ¬ stale (v.valueOf a).1 := by
  cases hget : v.index.get? a with
  | some id =>
    rw [valueOf_known hget]
    exact ha id hget
  | none =>
    rw [valueOf_new hget]
    exact fun hs => Nat.lt_irrefl _ (h.stale_lt _ hs)

end
end Values

namespace Optimizer
variable {stale : ValueId → Prop} {seen : Box → Prop} {source : List Operation}
  {o o₁ o₂ : Optimizer} {op : Operation}

/-- The table is sealed, and what was computed is kept in slots that hold no object. -/
structure Sealed (stale : ValueId → Prop) (seen : Box → Prop) (source : List Operation)
    (o : Optimizer) : Prop where
  values : o.values.Sealed stale seen source
  known : ∀ key id, o.known.get? key = some id →
    id < o.values.slots.size ∧ o.values.Solid stale id

/-- The state stays sealed and its stale slots as they are, and no operand comes to lead to one
of them. -/
structure Stays (stale : ValueId → Prop) (seen : Box → Prop) (source : List Operation)
    (o o' : Optimizer) : Prop where
  sealed : o'.Sealed stale seen source
  live : ∀ a, o.values.Live stale a → o'.values.Live stale a
  kept : ∀ id, stale id → o'.values.slot id = o.values.slot id

/-- The state stays sealed, and all that was written was supplied by the operations. -/
structure Draws (stale : ValueId → Prop) (seen : Box → Prop) (source : List Operation)
    (o o' : Optimizer) : Prop extends Stays stale seen source o o' where
  chain : o'.chain = o.chain
  out : ∃ ops, o'.out.toList = o.out.toList ++ ops ∧ ∀ op ∈ ops, op.SuppliedBy source

theorem Sealed.mono (h : o.Sealed stale seen source) {seen' : Box → Prop}
    {source' : List Operation} (hseen : ∀ b, seen b → seen' b) (hsub : source ⊆ source') :
    o.Sealed stale seen' source' :=
  ⟨h.values.mono hseen hsub, h.known⟩

theorem Sealed.stays (h : o.Sealed stale seen source) : Stays stale seen source o o :=
  ⟨h, fun _ ha => ha, fun _ _ => rfl⟩

/-- The state is changed where it is not asked for. -/
theorem Stays.congr (h : Stays stale seen source o o₁) (hvalues : o₂.values = o₁.values)
    (hknown : o₂.known = o₁.known) : Stays stale seen source o o₂ := by
  refine ⟨⟨?_, ?_⟩, ?_, ?_⟩
  · rw [hvalues]
    exact h.sealed.values
  · rw [hvalues, hknown]
    exact h.sealed.known
  · rw [hvalues]
    exact h.live
  · rw [hvalues]
    exact h.kept

theorem Sealed.draws (h : o.Sealed stale seen source) : Draws stale seen source o o :=
  ⟨h.stays, rfl, [], by simp, List.forall_mem_nil _⟩

theorem Stays.trans (h₁ : Stays stale seen source o o₁) (h₂ : Stays stale seen source o₁ o₂) :
    Stays stale seen source o o₂ :=
  ⟨h₂.sealed, fun a ha => h₂.live a (h₁.live a ha),
    fun id hid => (h₂.kept id hid).trans (h₁.kept id hid)⟩

theorem Draws.trans (h₁ : Draws stale seen source o o₁) (h₂ : Draws stale seen source o₁ o₂) :
    Draws stale seen source o o₂ := by
  obtain ⟨ops₁, hout₁, hops₁⟩ := h₁.out
  obtain ⟨ops₂, hout₂, hops₂⟩ := h₂.out
  refine ⟨h₁.toStays.trans h₂.toStays, h₂.chain.trans h₁.chain, ops₁ ++ ops₂, ?_, fun op hop => ?_⟩
  · rw [hout₂, hout₁, List.append_assoc]
  · exact (List.mem_append.1 hop).elim (hops₁ op) (hops₂ op)

/-- The table was changed, and what was computed stays. -/
theorem Sealed.setValues (h : o.Sealed stale seen source) {v : Values}
    (hv : Values.Moves stale seen source o.values v) : Sealed stale seen source {o with values := v} :=
  ⟨hv.table, fun key id hid => by
    obtain ⟨hlt, hs⟩ := h.known key id hid
    exact ⟨Nat.lt_of_lt_of_le hlt hv.size, hv.solid id hlt hs⟩⟩

theorem Stays.moves (h : Stays stale seen source o o₁) {v : Values}
    (hv : Values.Moves stale seen source o₁.values v) :
    Stays stale seen source o {o₁ with values := v} :=
  h.trans ⟨h.sealed.setValues hv, hv.live, hv.kept⟩

/-- What is computed is kept in a new slot. -/
theorem Sealed.remember (h : o.Sealed stale seen source) {r : Box} (hseen : seen r)
    (hnone : o.values.index.get? (.box r) = none) (key : PureKey) :
    Sealed stale seen source
      {o.met (.box r) with known := o.known.set key (o.idOf (.box r))} := by
  have hmoves := h.values.valueOf (.box r) (by rintro _ ⟨⟩; exact hseen)
  have hmet := h.setValues hmoves
  have hnew : (o.met (.box r)).values.slots.size = o.values.slots.size + 1 ∧
      o.idOf (.box r) = o.values.slots.size ∧
      (o.met (.box r)).values.slot o.values.slots.size = Values.fresh (.box r) := by
    unfold met idOf
    rw [Values.valueOf_new hnone]
    exact ⟨Values.size_push .., rfl, Values.slot_push_self ..⟩
  obtain ⟨hsize, hid, hslot⟩ := hnew
  refine ⟨hmet.values, fun key' id hknown => ?_⟩
  rw [Bindings.get?_set] at hknown
  split at hknown
  next =>
    cases hknown
    refine ⟨?_, fun hs => ?_, ?_⟩
    · show o.idOf (.box r) < (o.met (.box r)).values.slots.size
      rw [hsize, hid]
      exact Nat.lt_succ_self _
    · exact Nat.lt_irrefl _ (hid ▸ h.values.stale_lt _ hs)
    · show ((o.met (.box r)).values.slot (o.idOf (.box r))).virtual = none
      rw [hid, hslot]
      rfl
  next => exact hmet.known key' id hknown

theorem Sealed.met (h : o.Sealed stale seen source) (a : Operand) (ha : ∀ b, a = .box b → seen b) :
    Stays stale seen source o (o.met a) :=
  h.stays.moves (h.values.valueOf a ha)

theorem Sealed.of_met {as : List Operand} (h : o.Sealed stale seen source) (hmet : Met as o o₁)
    (has : ∀ b, .box b ∈ as → seen b) : Stays stale seen source o o₁ := by
  induction hmet with
  | refl => exact h.stays
  | more _ ha ih => exact ih.trans (ih.sealed.met _ fun b hb => has b (hb ▸ ha))

/-- Forcing a value that is not stale writes what the operations supplied. -/
theorem force_draws (h : o.Sealed stale seen source) {id : ValueId} (hid : ¬ stale id) :
    Yields (force id) o fun a o' => Draws stale seen source o o' ∧ a = (o.values.slot id).operand := by
  have hp := o.values.force_performs id o.out
  obtain ⟨hkept, hout⟩ := hp.supplied h.values hid
  have hstays := h.stays.moves (.forced h.values hp.forced hkept)
  exact ⟨⟨hstays.congr rfl rfl, rfl, hout⟩, o.values.force_operand id o.out⟩

theorem forwardArg_draws (h : o.Sealed stale seen source) {a : Operand}
    (ha : o.values.Live stale a) :
    Yields (forwardArg a) o fun _ o' => Draws stale seen source o o' := by
  cases a with
  | const c => exact h.draws
  | box b =>
    show Yields (forwardBox b) o _
    unfold forwardBox
    rw [yields_bind, yields_get]
    split
    next id hid => exact (force_draws h (ha id hid)).mono fun _ _ hd => hd.1
    next => exact h.draws

theorem forwardArgs_draws {as : List Operand} (h : o.Sealed stale seen source)
    (has : ∀ a ∈ as, o.values.Live stale a) :
    Yields (as.mapM forwardArg) o fun _ o' => Draws stale seen source o o' := by
  induction as generalizing o with
  | nil => exact h.draws
  | cons a as ih =>
    rw [List.mapM_cons, yields_bind]
    refine (forwardArg_draws h (has a (List.mem_cons_self ..))).mono fun _ o₁ h₁ => ?_
    rw [yields_bind]
    exact (ih h₁.sealed fun a ha => h₁.live a (has a (.tail _ ha))).mono fun _ _ h₂ => h₁.trans h₂

theorem relink_draws {s : Snapshot} (h : o.Sealed stale seen source)
    (hs : ∀ a ∈ s.operands, o.values.Live stale a) (supply : Relinker.Supply) :
    Yields (Relinker.relink forwardBox s supply) o fun _ o' => Draws stale seen source o o' := by
  induction s generalizing o supply with
  | nil => exact h.draws
  | cons frame rest ih =>
    unfold Relinker.relink
    split
    · exact h.draws
    · rw [yields_bind]
      refine (ih h (fun a ha => hs a ?_) supply).mono fun r o₁ h₁ => ?_
      · exact List.mem_append_right _ ha
      rw [yields_bind]
      exact (forwardArgs_draws h₁.sealed fun a ha =>
        h₁.live a (hs a (List.mem_append_left _ ha))).mono fun _ _ h₂ => h₁.trans h₂

/-- In front of an operation stands what was forced for it. -/
theorem emit_draws (h : o.Sealed stale seen source)
    (hlive : ∀ a ∈ op.usedArgs, o.values.Live stale a) :
    Yields (emit op) o fun _ o' => Stays stale seen source o o' ∧ ∃ forced x,
      (∀ f ∈ forced, f.SuppliedBy source) ∧ o'.out.toList = o.out.toList ++ forced ++ [x] := by
  unfold emit
  rw [yields_bind]
  refine (forwardArgs_draws h fun a ha => hlive a (by simp [Operation.usedArgs, ha])).mono
    fun args o₁ h₁ => ?_
  have hfail : Yields (op.failArgs.mapM (·.mapM forwardArg)) o₁ fun _ o' =>
      Draws stale seen source o₁ o' := by
    cases hf : op.failArgs with
    | none => exact h₁.sealed.draws
    | some as =>
      show Yields (some <$> as.mapM forwardArg) o₁ _
      rw [yields_map]
      exact forwardArgs_draws h₁.sealed fun a ha =>
        h₁.live a (hlive a (by simp [Operation.usedArgs, hf, ha]))
  rw [yields_bind]
  refine hfail.mono fun failArgs o₂ h₂ => ?_
  have h₁₂ := h₁.trans h₂
  have hdescr : Yields (forwardDescr op.descr) o₂ fun _ o' => Draws stale seen source o₂ o' := by
    unfold forwardDescr
    split
    next n s hd =>
      simp only [yields_bind, yields_pure, forwardSnapshot, yields_get, yields_modify]
      refine (relink_draws h₁₂.sealed (fun a ha => h₁₂.live a (hlive a ?_)) _).mono
        fun r o₃ h₃ => ⟨h₃.toStays.congr rfl rfl, h₃.chain, h₃.out⟩
      simp [Operation.usedArgs, Operation.snapshot, hd, ha]
    next => exact h₁₂.sealed.draws
  rw [yields_bind]
  refine hdescr.mono fun descr o₃ h₃ => ?_
  have h₁₃ := h₁₂.trans h₃
  rw [yields_bind, yields_tell, yields_modify]
  obtain ⟨forced, hout, hforced⟩ := h₁₃.out
  exact ⟨h₁₃.toStays.congr rfl rfl, forced, _, hforced, by rw [Array.toList_push, hout]⟩

/-- When the first operation is sent, nothing was met. -/
theorem sealed_begin (c : Config) (t : Trace) (seen : Box → Prop) :
    (c.begin t).Sealed (fun _ => False) seen [] := by
  have hslot : ∀ id, (c.begin t).values.slot id = .vacant := fun id =>
    Values.slot_of_not_lt (Nat.not_lt_zero id)
  refine ⟨⟨nofun, nofun, nofun, fun _ _ => id, fun id object _ hv => ?_, fun id b hb => ?_, nofun⟩,
    nofun⟩
  · rw [hslot] at hv
    cases hv
  · rw [hslot] at hb
    cases hb

/-! ### Through the passes -/

/-- An operation that comes next leads to nothing stale. What it produces was not met before,
except where it was found just now that it has to be computed. -/
structure Expects (stale : ValueId → Prop) (seen : Box → Prop) (source : List Operation)
    (op : Operation) (o : Optimizer) : Prop where
  source : op.isForcing = true → op ∈ source
  live : ∀ a ∈ op.usedArgs, o.values.Live stale a
  reads : ∀ b, .box b ∈ op.usedArgs → seen b
  seen : ∀ r, op.result = some r → seen r
  apart : ∀ r, op.result = some r → .box r ∉ op.args
  produces : ∀ r, op.result = some r → o.values.Live stale (.box r)
  unmet : ∀ r, op.result = some r → o.values.index.get? (.box r) = none ∨
    op.opcode.isAlwaysPure = true ∧ ∀ a ∈ op.args, ∃ k, o.values.EmittedAs a k

/-- A box is still not met where others were. -/
theorem unmet_of_met {as : List Operand} {r : Box} (hr : .box r ∉ as) (hmet : Met as o o₁)
    (hnone : o.values.index.get? (.box r) = none) : o₁.values.index.get? (.box r) = none := by
  induction hmet with
  | refl => exact hnone
  | @more o₂ a _ ha ih =>
    have hne : a ≠ .box r := fun he => hr (he ▸ ha)
    exact (Values.index_valueOf_of_ne hne).trans ih

/-- What the operation produces was not met. -/
def Unmet (op : Operation) (o : Optimizer) : Prop :=
  ∀ r, op.result = some r → o.values.index.get? (.box r) = none

namespace Expects

theorem seen_args (h : Expects stale seen source op o) : ∀ b, .box b ∈ op.args → seen b :=
  fun b hb => h.reads b (by simp [Operation.usedArgs, hb])

theorem live_args (h : Expects stale seen source op o) {a : Operand} (ha : a ∈ op.args) :
    o.values.Live stale a :=
  h.live a (by simp [Operation.usedArgs, ha])

theorem of_met {as : List Operand} (h : Expects stale seen source op o)
    (ho : o.Sealed stale seen source) (hmet : Met as o o₁) (has : as ⊆ op.args) :
    Stays stale seen source o o₁ ∧ Expects stale seen source op o₁ := by
  have hs := ho.of_met hmet fun b hb => h.seen_args b (has hb)
  refine ⟨hs, h.source, fun a ha => hs.live a (h.live a ha), h.reads, h.seen, h.apart,
    fun r hr => hs.live _ (h.produces r hr), fun r hr => (h.unmet r hr).imp ?_ ?_⟩
  · exact unmet_of_met (fun hb => h.apart r hr (has hb)) hmet
  · rintro ⟨hpure, hargs⟩
    exact ⟨hpure, fun a ha => (hargs a ha).imp fun k hk =>
      hmet.emittedAs ho.values.inRange hk⟩

/-- What is produced was not met, unless the operand is no object. -/
theorem unmet_of_virtual (h : Expects stale seen source op o) {object : Operand}
    (hobject : object ∈ op.args) (hv : (o.slotOf object).isVirtual = true) : Unmet op o := by
  intro r hr
  refine (h.unmet r hr).resolve_right fun ⟨_, hargs⟩ => ?_
  obtain ⟨k, id, hid, hreal, -⟩ := hargs object hobject
  have hslot : o.slotOf object = o.values.slot id := by
    unfold slotOf met idOf
    rw [Values.valueOf_known hid]
  rw [hslot, hreal] at hv
  cases hv

end Expects

/-- The operation was written behind what was supplied, or settled without being written. -/
structure Dispatched (stale : ValueId → Prop) (seen : Box → Prop) (source : List Operation)
    (op : Operation) (o o' : Optimizer) : Prop extends Stays stale seen source o o' where
  written : op.opcode.mayVanish = true ∧ o'.out = o.out ∨ ∃ forced x,
    (∀ f ∈ forced, f.SuppliedBy source) ∧ o'.out.toList = o.out.toList ++ forced ++ [x]

theorem Stays.dispatched (h₁ : Stays stale seen source o o₁) (hout : o₁.out = o.out)
    (h₂ : Dispatched stale seen source op o₁ o₂) : Dispatched stale seen source op o o₂ :=
  ⟨h₁.trans h₂.toStays, hout ▸ h₂.written⟩

theorem Dispatched.trans (h₁ : Dispatched stale seen source op o o₁) (h₂ : Stays stale seen source o₁ o₂)
    (hout : o₂.out = o₁.out) : Dispatched stale seen source op o o₂ :=
  ⟨h₁.toStays.trans h₂, hout ▸ h₁.written⟩

theorem Stays.vanished (h : Stays stale seen source o o₁) (hop : op.opcode.mayVanish = true)
    (hout : o₁.out = o.out) : Dispatched stale seen source op o o₁ :=
  ⟨h, .inl ⟨hop, hout⟩⟩

/-- Sending an operation that comes next keeps the state sealed, under a condition. -/
def Seals (stale : ValueId → Prop) (seen : Box → Prop) (source : List Operation)
    (P : Operation → Optimizer → Prop) (send : Operation → Optimizer → Optimizer → Prop) : Prop :=
  ∀ op o o', o.Intact → o.Sealed stale seen source → Expects stale seen source op o → P op o →
    send op o o' → Dispatched stale seen source op o o'

variable {P : Operation → Optimizer → Prop} {send : Operation → Optimizer → Optimizer → Prop}

theorem seals_placed (hP : ∀ op o chain cursor, P op o → P op {o with chain, cursor})
    (h : Seals stale seen source P send) : Seals stale seen source P (Placed send) := by
  rintro op o _ hi ho hop hp ⟨chain, cursor, o₂, hs, rfl⟩
  have hs' := h op {o with chain, cursor} o₂ ⟨hi.values, hi.known⟩ ⟨ho.values, ho.known⟩
    { hop with } (hP _ _ _ _ hp) hs
  have hstays := hs'.toStays
  exact ⟨⟨⟨hstays.sealed.values, hstays.sealed.known⟩, hstays.live, hstays.kept⟩, hs'.written⟩

theorem seals_emit : Seals stale seen source (fun _ _ => True)
    fun op o o' => o' = ((emit op).run o).2 := by
  rintro op o _ - ho hop - rfl
  obtain ⟨hs, hw⟩ := emit_draws ho hop.live
  exact ⟨hs, .inr hw⟩

theorem seals_virtualized (h : Seals stale seen source (fun _ _ => True) send) :
    Seals stale seen source (fun _ _ => True) (Virtualize.Virtualized send) := by
  rintro op o o' hi ho hop - hs
  cases hs with
  | passed hmet _ hs =>
    obtain ⟨hstays, hop'⟩ := hop.of_met ho hmet (List.Subset.refl _)
    exact hstays.dispatched hmet.sameList.out (h op _ _ (hi.of_met hmet) hstays.sealed hop' trivial hs)
  | @held r hnew hr =>
    have hnone := (hop.unmet r hr).resolve_right (by simp [hnew, Opcode.isAlwaysPure])
    have hmoves := ho.values.makeVirtual hnew hr (hop.source (by simp [Operation.isForcing, hnew]))
      hnone (hop.seen r hr)
    exact Stays.vanished ((ho.stays.moves hmoves).congr rfl rfl)
      (by simp [Opcode.mayVanish, hnew]) rfl
  | @written object value rest name hset hargs hname hv =>
    have hobject : object ∈ op.args := by simp [hargs]
    have hvalue : value ∈ op.args := by simp [hargs]
    have hmet : Met op.args o ((o.met object).met value) := .more (.one hobject) hvalue
    obtain ⟨hstays, hop'⟩ := hop.of_met ho (.one hobject) (List.Subset.refl _)
    obtain ⟨hstays', -⟩ := hop.of_met ho hmet (List.Subset.refl _)
    have hlive := hstays.sealed.values.live_valueOf (hop'.live_args hvalue)
    have hwrites : ∃ w ∈ source, w.opcode = .setfieldGc ∧ w.descrName? = some name :=
      ⟨op, hop.source (by simp [Operation.isForcing, hset]), hset, hname⟩
    have hid := ho.values.live_valueOf (hop.live_args hobject)
    have hmoves := hstays'.sealed.values.setField hid hlive hwrites
    exact Stays.vanished (hstays'.moves hmoves) (by simp [Opcode.mayVanish, hset]) rfl
  | @read object rest r name value hget hargs hr hname hv hfield =>
    have hobject : object ∈ op.args := by simp [hargs]
    have hne : object ≠ .box r := fun he => hop.apart r hr (he ▸ hobject)
    have hnone : (o.met object).values.index.get? (.box r) = none :=
      (Values.index_valueOf_of_ne hne).trans (hop.unmet_of_virtual hobject hv r hr)
    obtain ⟨hstays, -⟩ := hop.of_met ho (.one hobject) (List.Subset.refl _)
    obtain ⟨held, hheld, hvalue⟩ := Option.bind_eq_some_iff.1 hfield
    have hid := ho.values.live_valueOf (hop.live_args hobject)
    obtain ⟨hlive, -⟩ := (hstays.sealed.values.held _ held hid hheld).fields name value
      (Bindings.mem_of_get? hvalue)
    have hmoves := hstays.sealed.values.forward hnone hlive
      ((hi.met object).values.field?_lt hfield) (hop.seen r hr)
    refine Stays.vanished (hstays.moves hmoves) ?_ rfl
    rcases hget with hget | hget <;> simp [Opcode.mayVanish, hget, Opcode.isAlwaysPure]
  | @readZero object rest r name hget hargs hr hname hv hfield =>
    have hobject : object ∈ op.args := by simp [hargs]
    obtain ⟨hstays, hop'⟩ := hop.of_met ho (.one hobject) (List.Subset.refl _)
    have hstays' := hstays.trans (hstays.sealed.met (.box r) (by rintro _ ⟨⟩; exact hop.seen r hr))
    have hid := hstays.sealed.values.live_valueOf (hop'.produces r hr)
    refine Stays.vanished (hstays'.moves (hstays'.sealed.values.makeConstant hid _)) ?_ rfl
    rcases hget with hget | hget <;> simp [Opcode.mayVanish, hget, Opcode.isAlwaysPure]

theorem moves_teaches {arg : Operand} {s : Slot} {id : ValueId} {f : Values → Values}
    (h : Rewrite.Teaches op arg s id f) (hid : ¬ stale id) {v : Values}
    (hv : v.Sealed stale seen source) : Values.Moves stale seen source v (f v) := by
  cases h with
  | truth | value | null => exact hv.makeConstant hid _
  | nothing => exact hv.refl
  | nonNull => exact hv.makeNonNull hid
  | ofClass => exact (hv.setClass hid _).trans ((hv.setClass hid _).table.makeNonNull hid)

theorem seals_rewritten (h : Seals stale seen source (fun _ _ => True) send) :
    Seals stale seen source Unmet (Rewrite.Rewritten send) := by
  rintro op o o' hi ho hop hunmet hs
  cases hs with
  | passed hmet _ hs =>
    obtain ⟨hstays, hop'⟩ := hop.of_met ho hmet (List.Subset.refl _)
    exact hstays.dispatched hmet.sameList.out
      (h op _ _ (hi.of_met hmet) hstays.sealed hop' trivial hs)
  | @dropped arg rest hargs himplied =>
    have harg : arg ∈ op.args := by simp [hargs]
    obtain ⟨hstays, -⟩ := hop.of_met ho (.one harg) (List.Subset.refl _)
    exact Stays.vanished (hstays.congr rfl rfl)
      (by simp [Opcode.mayVanish, show op.opcode.isGuard = true from himplied.isGuard]) rfl
  | @kept arg rest f o₁ hargs ht hs =>
    have harg : arg ∈ op.args := by simp [hargs]
    obtain ⟨hstays, hop'⟩ := hop.of_met ho (.one harg) (List.Subset.refl _)
    have hs' := h op _ _ (hi.met arg) hstays.sealed hop' trivial hs
    have hid := ho.values.live_valueOf (hop.live_args harg)
    have hmoves := moves_teaches ht hid hs'.sealed.values
    exact hstays.dispatched rfl (hs'.trans (hs'.sealed.stays.moves hmoves) rfl)
  | unraised hguard =>
    exact Stays.vanished (ho.stays.congr rfl rfl)
      (by simp [Opcode.mayVanish, hguard, Opcode.isGuard]) rfl
  | checked _ _ hs =>
    have hs' := h op _ _ hi ho hop trivial hs
    exact hs'.trans (hs'.sealed.stays.congr rfl rfl) rfl
  | called _ hs =>
    have hs' := h op {o with mayRaise := true} o' ⟨hi.values, hi.known⟩ ⟨ho.values, ho.known⟩
      { hop with } trivial hs
    exact ⟨⟨hs'.sealed, hs'.live, hs'.kept⟩, hs'.written⟩
  | @aliased a rest r hsame hargs hr =>
    have harg : a ∈ op.args := by simp [hargs]
    have hne : a ≠ .box r := fun he => hop.apart r hr (he ▸ harg)
    obtain ⟨hstays, -⟩ := hop.of_met ho (.one harg) (List.Subset.refl _)
    have hmoves := hstays.sealed.values.forward
      ((Values.index_valueOf_of_ne hne).trans (hunmet r hr))
      (ho.values.live_valueOf (hop.live_args harg)) (hi.idOf_lt a) (hop.seen r hr)
    exact Stays.vanished (hstays.moves hmoves)
      (by simp [Opcode.mayVanish, hsame, Opcode.isAlwaysPure]) rfl
  | @folded o₁ cs c r hpure _ hr hmet =>
    obtain ⟨hstays, hop'⟩ := hop.of_met ho hmet (List.Subset.refl _)
    have hstays' := hstays.trans (hstays.sealed.met (.box r) (by rintro _ ⟨⟩; exact hop.seen r hr))
    have hid := hstays.sealed.values.live_valueOf (hop'.produces r hr)
    have hmoves := hstays'.sealed.values.makeConstant hid c
    exact Stays.vanished ((hstays'.moves hmoves).congr rfl rfl)
      (by simp [Opcode.mayVanish, hpure]) hmet.sameList.out
  | @reused o₁ ks r id hpure _ hr hmet _ hknown =>
    obtain ⟨hstays, -⟩ := hop.of_met ho hmet (List.Subset.refl _)
    obtain ⟨hlt, hlive, -⟩ := hstays.sealed.known _ id hknown
    have hnone := unmet_of_met (hop.apart r hr) hmet (hunmet r hr)
    have hmoves := hstays.sealed.values.forward hnone hlive hlt (hop.seen r hr)
    exact Stays.vanished ((hstays.moves hmoves).congr rfl rfl)
      (by simp [Opcode.mayVanish, hpure]) hmet.sameList.out
  | @computed o₁ _ ks r hpure _ hr hmet hks _ _ hs =>
    obtain ⟨hstays, hop'⟩ := hop.of_met ho hmet (List.Subset.refl _)
    have hnone := unmet_of_met (hop.apart r hr) hmet (hunmet r hr)
    have hmet' := hstays.sealed.met (.box r) (by rintro _ ⟨⟩; exact hop.seen r hr)
    have hi' := (hi.of_met hmet).remember (Rewrite.keyOf op ks r) r
    have hsealed := hstays.sealed.remember (hop.seen r hr) hnone (Rewrite.keyOf op ks r)
    have hstays' : Stays stale seen source o {o₁.met (.box r) with
        known := o₁.known.set (Rewrite.keyOf op ks r) (o₁.idOf (.box r))} :=
      hstays.trans ⟨hsealed, hmet'.live, hmet'.kept⟩
    refine hstays'.dispatched hmet.sameList.out (h op _ _ hi' hsealed ?_ trivial hs)
    refine ⟨hop'.source, fun a ha => hmet'.live a (hop'.live a ha), hop'.reads, hop'.seen,
      hop'.apart, fun r hr => hmet'.live _ (hop'.produces r hr), fun r' hr' => .inr ⟨hpure, ?_⟩⟩
    intro a ha
    obtain ⟨k, -, hk⟩ := exists_right_of_mem hks ha
    exact ⟨k, (Met.one (List.mem_singleton_self _)).emittedAs hstays.sealed.values.inRange hk⟩

/-- Nothing is asked of the operation by an end of the chain behind rewriting. -/
theorem seals_end : Seals stale seen source (fun _ _ => True) (Handled []) ∧
    Seals stale seen source (fun _ _ => True) (Handled [.virtualize]) := by
  have hlist : Seals stale seen source (fun _ _ => True) (Handled []) :=
    seals_placed (fun _ _ _ _ => id) seals_emit
  exact ⟨hlist, seals_placed (fun _ _ _ _ => id) (seals_virtualized hlist)⟩

theorem seals_handled (c : Config) : Seals stale seen source Unmet (Handled c.behind) := by
  have hplaced : ∀ op o chain cursor, Unmet op o → Unmet op {o with chain, cursor} :=
    fun _ _ _ _ => id
  have hweak : ∀ {send}, Seals stale seen source (fun _ _ => True) send →
      Seals stale seen source Unmet send :=
    fun h op o o' hi ho hop _ hs => h op o o' hi ho hop trivial hs
  have hends : Seals stale seen source (fun _ _ => True) (Handled []) ∧
      Seals stale seen source (fun _ _ => True) (Handled [.virtualize]) := seals_end
  obtain ⟨hlist, hvirtualize⟩ := hends
  unfold Config.behind
  cases c.rewrite <;> cases c.virtualize
  · exact hweak hlist
  · exact hweak hvirtualize
  · exact seals_placed hplaced (seals_rewritten hlist)
  · exact seals_placed hplaced (seals_rewritten hvirtualize)

/-- What becomes of an operation that comes next: it vanishes, or it is written as the state
writes it in which it was sent, behind what the operations supplied. -/
theorem Handled.sends {c : Config} {o' : Optimizer} (h : Handled c.behind op o o') (hi : o.Intact)
    (ho : o.Sealed stale seen source) (hop : Expects stale seen source op o) (hunmet : Unmet op o) :
    Stays stale seen source o o' ∧ (op.opcode.mayVanish = true ∧ o'.out = o.out ∨ ∃ forced,
      (∀ f ∈ forced, f.SuppliedBy source) ∧
        o'.out.toList = o.out.toList ++ forced ++ [o.writes op]) := by
  obtain ⟨hstays, hw⟩ := seals_handled c op o o' hi ho hop hunmet h
  refine ⟨hstays, hw.imp id ?_⟩
  rintro ⟨forced, x, hforced, hout⟩
  rcases (settled_handled _ _ _ _ hi h).2.list with hlist | ⟨_, -, hout', -⟩
  · rw [hlist.out] at hout
    simp at hout
  · rw [hout] at hout'
    obtain ⟨-, hx⟩ := List.append_inj' hout' rfl
    exact ⟨forced, hforced, by rw [hout, hx]⟩

end Optimizer
end TracePeel
