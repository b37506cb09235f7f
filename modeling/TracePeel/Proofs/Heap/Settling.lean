import TracePeel.Proofs.Heap.Mirroring

/-! What is settled in the table.

An operation that is not written changes the first run alone, and the table with it: an object
is made and held back, one of its fields is written, a field is read or found to be zero. Each
time the table still says what the first run holds, and the second run is behind by no more than
the objects that are held back. -/
namespace TracePeel
open Machine

variable {σ : Type}

namespace Values

/-! ### Writing the table -/

section
variable {v : Values} {s s₁ s' : State σ} {P : Value → Prop} {met written : List Box}
  {stale : ValueId → Prop} {source : List Operation} {a : Operand} {slot : Slot} {r : Box}

/-- Boxes that were met hold what they held. -/
theorem means_eq (h : v.Sealed stale (· ∈ met) source) (henv : ∀ b ∈ met, s₁.env b = s.env b) :
    v.means s₁ = v.means s := by
  funext id
  unfold means
  cases ho : (v.slot id).operand with
  | const c => rfl
  | box b => exact henv b (h.seen b id (h.home id b ho))

theorem stored_congr {object : Virtual} {n : Nat} (h : object.Intact n) {f g : ValueId → Value}
    (hfg : ∀ id < n, f id = g id) : object.stored f = object.stored g := by
  funext name
  cases name with
  | none => rfl
  | some name =>
    show (object.fields.get? name).map f = (object.fields.get? name).map g
    cases hid : object.fields.get? name with
    | none => rfl
    | some id => exact congrArg some (hfg id (h.2 name id (Bindings.mem_of_get? hid)))

/-- The first run goes on, and leaves the boxes that were met and the objects that are held
back as they were. -/
theorem Tracks.go (h : v.Tracks s) (hsealed : v.Sealed stale (· ∈ met) source)
    (henv : ∀ b ∈ met, s₁.env b = s.env b) (hheap : ∀ a, v.Holds a → s₁.heap a = s.heap a) :
    v.Tracks s₁ := by
  have hmeans := means_eq hsealed henv
  refine ⟨fun a id hid => ?_, fun id object r hv ho => ?_, fun id object r hv ho => ?_, h.keys⟩
  · rw [hmeans, ← h.same a id hid]
    cases a with
    | const c => rfl
    | box b => exact henv b (hsealed.seen b id hid)
  · rw [henv r (hsealed.seen r id (hsealed.home id r ho))]
    exact h.made id object r hv ho
  · rw [hmeans, hheap _ ⟨id, object, r, hv, ho, rfl⟩]
    exact h.fields id object r hv ho

/-- A slot is added for an operand that was not met. -/
theorem Tracks.push (h : v.Tracks s) (hi : v.Intact)
    (hsame : s.value slot.operand = s.value a)
    (hheld : ∀ object, slot.virtual = some object → object.fields = {} ∧
      ∀ r, slot.operand = .box r → s.env r = .made r ∧ s.heap (.made r) = fun _ => none) :
    (v.push a slot).Tracks s := by
  have hmeans : ∀ id < v.slots.size, (v.push a slot).means s id = v.means s id := fun id hid => by
    unfold means
    rw [slot_push_of_lt v a slot hid]
  have hstored : ∀ id object, (v.slot id).virtual = some object →
      object.stored ((v.push a slot).means s) = object.stored (v.means s) :=
    fun id object hv => stored_congr (hi.held id object hv) hmeans
  refine ⟨fun b id hid => ?_, fun id object r hv ho => ?_, fun id object r hv ho => ?_,
    fun id object hv => ?_⟩
  · rw [index_push] at hid
    split at hid
    next he =>
      cases hid
      rw [← he, means, slot_push_self, hsame]
    next => rw [hmeans id (hi.inRange b id hid), h.same b id hid]
  · rw [slot_push] at hv ho
    split at hv
    next he =>
      rw [if_pos he] at ho
      exact ((hheld object hv).2 r ho).1
    next hne =>
      rw [if_neg hne] at ho
      exact h.made id object r hv ho
  · rw [slot_push] at hv ho
    split at hv
    next he =>
      rw [if_pos he] at ho
      obtain ⟨hfields, hobject⟩ := hheld object hv
      rw [(hobject r ho).2]
      funext name
      cases name <;> simp [Virtual.stored, hfields]
    next hne =>
      rw [if_neg hne] at ho
      rw [hstored id object hv]
      exact h.fields id object r hv ho
  · rw [slot_push] at hv
    split at hv
    next => simp [(hheld object hv).1]
    next => exact h.keys id object hv

theorem holds_push (hv : slot.virtual = none) {x : Value} :
    (v.push a slot).Holds x ↔ v.Holds x := by
  constructor
  · rintro ⟨id, object, r, hv', ho, rfl⟩
    rw [slot_push] at hv' ho
    split at hv'
    next =>
      rw [hv] at hv'
      cases hv'
    next hne => exact ⟨id, object, r, hv', by rwa [if_neg hne] at ho, rfl⟩
  · rintro ⟨id, object, r, hv', ho, rfl⟩
    have hlt := lt_of_virtual hv'
    exact ⟨id, object, r, by rwa [slot_push_of_lt v a slot hlt],
      by rwa [slot_push_of_lt v a slot hlt], rfl⟩

/-- A slot that holds no object is added. -/
theorem Mirrors.push (h : Mirrors P met written v s s') (hv : slot.virtual = none)
    (hreal : ∀ b, slot.operand = .box b → b ∈ written) :
    Mirrors P met written (v.push a slot) s s' := by
  have hholds : ∀ x, (v.push a slot).Holds x = v.Holds x := fun x => propext (holds_push hv)
  refine ⟨h.env, ?_, h.known, fun id b hb hv' => ?_, fun b hb hnone => h.unmet b hb ?_, ?_, ?_, ?_,
    ?_, h.exposed, h.outside⟩
  · simpa only [hholds] using h.reads
  · rw [slot_push] at hb hv'
    split at hb
    next => exact hreal b hb
    next hne => exact h.real id b hb (by rwa [if_neg hne] at hv')
  · rw [index_push] at hnone
    split at hnone
    · cases hnone
    · exact hnone
  · simpa only [hholds] using h.heap
  · simpa only [hholds] using h.shut
  · simpa only [hholds] using h.pending
  · simpa only [hholds] using h.hidden

/-- What was not met by the table is in the written list. -/
theorem Mirrors.unmet_mem (h : Mirrors P met written v s s') (hmet : ∀ b, a = .box b → b ∈ met)
    (hnone : v.index.get? a = none) : ∀ b, a = .box b → b ∈ written := by
  rintro b rfl
  exact h.unmet b (hmet b rfl) hnone

theorem Tracks.valueOf (h : v.Tracks s) (hi : v.Intact) (a : Operand) : (v.valueOf a).2.Tracks s := by
  cases hget : v.index.get? a with
  | some id => rwa [valueOf_known hget]
  | none =>
    rw [valueOf_new hget]
    exact h.push hi rfl fun _ hv => absurd hv (Option.some_ne_none _).symm

theorem Mirrors.valueOf (h : Mirrors P met written v s s') (hmet : ∀ b, a = .box b → b ∈ met) :
    Mirrors P met written (v.valueOf a).2 s s' := by
  cases hget : v.index.get? a with
  | some id => rwa [valueOf_known hget]
  | none =>
    rw [valueOf_new hget]
    exact h.push rfl (h.unmet_mem hmet hget)

/-- The first run defines a box that was not met. -/
theorem Mirrors.define (h : Mirrors P met written v s s') (hr : r ∉ met) (f : Box → Value) :
    Mirrors P met written v (s.define (some r) f) s' := by
  have henv : ∀ b ∈ written, (s.define (some r) f).env b = s.env b := fun b hb =>
    if_neg fun (he : some r = some b) => hr (Option.some.inj he ▸ h.known b hb)
  exact ⟨fun b hb => (h.env b hb).trans (henv b hb).symm, fun b hb => henv b hb ▸ h.reads b hb,
    h.known, h.real, h.unmet, h.heap, h.shut, h.pending, h.hidden, h.exposed, h.outside⟩

/-- A box that the table has met is met. -/
theorem Mirrors.meet (h : Mirrors P met written v s s') (hr : v.index.get? (.box r) ≠ none) :
    Mirrors P (r :: met) written v s s' := by
  refine ⟨h.env, h.reads, fun b hb => .tail _ (h.known b hb), h.real, fun b hb hnone => ?_, h.heap,
    h.shut, h.pending, h.hidden, h.exposed, h.outside⟩
  rcases List.mem_cons.1 hb with rfl | hb
  · exact absurd hnone hr
  · exact h.unmet b hb hnone

/-- Both runs go on, with the same operation. -/
theorem Mirrors.go (h : Mirrors (fun _ => False) met written v s s') {op : Operation}
    (hop : ∀ r, op.result = some r → r ∉ met) {s₁' : State σ}
    (hsteps : Steps (fun a => ¬ v.Holds a) op s s₁) (hagree : Agree (fun a => ¬ v.Holds a) s₁ s₁')
    (hresult : ∀ r, op.result = some r → s₁'.env r = s₁.env r)
    (henv : ∀ b, op.result ≠ some b → s₁'.env b = s'.env b) :
    Mirrors (fun _ => False) (op.result.toList ++ met) (written ++ op.result.toList) v s₁ s₁' := by
  have hold : ∀ b ∈ written, op.result ≠ some b := fun b hb hr => hop b hr (h.known b hb)
  have hsplit : ∀ {b}, b ∈ written ++ op.result.toList → b ∈ written ∨ op.result = some b :=
    fun hb => by simpa using hb
  refine ⟨fun b hb => ?_, fun b hb => ?_, fun b hb => ?_, fun id b hb hv =>
    List.mem_append_left _ (h.real id b hb hv), fun b hb hnone => ?_, fun a ha _ => hagree.heap a ha,
    fun a name b ha _ hb => hsteps.within.heap a name b ha hb, fun _ ha => ha.elim,
    hsteps.within.exposed, hagree.exposed, hagree.outside⟩
  · rcases hsplit hb with hb | hr
    · rw [henv b (hold b hb), hsteps.env b (hold b hb), h.env b hb]
    · exact hresult b hr
  · rcases hsplit hb with hb | hr
    · rw [hsteps.env b (hold b hb)]
      exact h.reads b hb
    · exact hsteps.result b hr
  · rcases hsplit hb with hb | hr
    · exact List.mem_append_right _ (h.known b hb)
    · simp [hr]
  · rcases List.mem_append.1 hb with hb | hb
    · exact List.mem_append_right _ hb
    · exact List.mem_append_left _ (h.unmet b hb hnone)

/-- An allocation is held back in a slot of its own. -/
theorem makeVirtual_new {op : Operation} (hr : op.result = some r)
    (hnone : v.index.get? (.box r) = none) :
    (v.makeVirtual op).2 = v.push (.box r)
      {fresh (.box r) with level := .nonNull, virtual := some { allocation := op } } := by
  unfold makeVirtual
  rw [hr]
  show ((v.valueOf (.box r)).2).modifySlot (v.valueOf (.box r)).1 _ = _
  rw [valueOf_new hnone, modifySlot_push]

/-- A box that was not met becomes a constant in a slot of its own. -/
theorem makeConstant_new (hnone : v.index.get? (.box r) = none) (c : Const) :
    (v.valueOf (.box r)).2.makeConstant (v.valueOf (.box r)).1 c =
      v.push (.box r) {fresh (.box r) with operand := .const c, level := .constant} := by
  rw [valueOf_new hnone, makeConstant, modifySlot_push]
  rfl

/-- The first run makes an object that is held back. -/
theorem Tracks.hold (h : v.Tracks s) (hi : v.Intact) (hsealed : v.Sealed stale (· ∈ met) source)
    (hr : r ∉ met) (hslot : slot.operand = .box r)
    (hheld : ∀ object, slot.virtual = some object → object.fields = {}) :
    (v.push (.box r) slot).Tracks (s.make (some r)) := by
  have hgo : v.Tracks (s.make (some r)) := by
    refine h.go hsealed (fun b hb => ?_) fun a ha => ?_
    · exact if_neg fun (he : some r = some b) => hr (Option.some.inj he ▸ hb)
    · obtain ⟨id, object, r', hv, ho, rfl⟩ := ha
      refine Function.update_of_ne (fun he => hr ?_) ..
      rw [← Value.made.inj he]
      exact hsealed.seen r' id (hsealed.home id r' ho)
  refine hgo.push hi (by rw [hslot]) fun object hv => ⟨hheld object hv, fun r' hr' => ?_⟩
  rw [hslot] at hr'
  cases hr'
  exact ⟨if_pos rfl, Function.update_self ..⟩

theorem Mirrors.hold (h : Mirrors P met written v s s') (hborn : Born met s) (hr : r ∉ met)
    (hoperand : slot.operand = .box r) (hv : slot.virtual ≠ none) (hp : ∀ a, ¬ P a) :
    Mirrors P (r :: met) written (v.push (.box r) slot) (s.make (some r)) s' := by
  have henv : ∀ b ∈ written, (s.make (some r)).env b = s.env b := fun b hb =>
    if_neg fun (he : some r = some b) => hr (Option.some.inj he ▸ h.known b hb)
  have hholds : ∀ {a}, (v.push (.box r) slot).Holds a → v.Holds a ∨ a = .made r := by
    rintro a ⟨id, object, r', hv', ho, rfl⟩
    rw [slot_push] at hv' ho
    split at hv'
    next he =>
      rw [if_pos he, hoperand] at ho
      cases ho
      exact .inr rfl
    next hne => exact .inl ⟨id, object, r', hv', by rwa [if_neg hne] at ho, rfl⟩
  have hself : (v.push (.box r) slot).Holds (.made r) := by
    obtain ⟨object, hobject⟩ := Option.ne_none_iff_exists'.1 hv
    exact ⟨v.slots.size, object, r, by rw [slot_push_self, hobject], by rw [slot_push_self, hoperand],
      rfl⟩
  have hold : ∀ {a}, v.Holds a → (v.push (.box r) slot).Holds a := by
    rintro a ⟨id, object, r', hv', ho, rfl⟩
    have hlt := lt_of_virtual hv'
    exact ⟨id, object, r', by rwa [slot_push_of_lt _ _ _ hlt], by rwa [slot_push_of_lt _ _ _ hlt],
      rfl⟩
  have hheap : ∀ a, ¬ (v.push (.box r) slot).Holds a → (s.make (some r)).heap a = s.heap a :=
    fun a ha => Function.update_of_ne (fun (he : a = .made r) => ha (he ▸ hself)) ..
  refine ⟨fun b hb => (h.env b hb).trans (henv b hb).symm, fun b hb hh => ?_,
    fun b hb => .tail _ (h.known b hb), fun id b hb hv' => ?_, fun b hb hnone => ?_,
    fun a ha hpa => ?_, fun a name b ha hpa hb hh => ?_, fun a ha => absurd ha (hp a),
    fun a ha hh => ?_, h.exposed, h.outside⟩
  · rw [henv b hb] at hh
    rcases hholds hh with hh | hh
    · exact h.reads b hb hh
    · exact hr (hborn.env b r hh)
  · rw [slot_push] at hb hv'
    split at hb
    next he =>
      rw [if_pos he] at hv'
      exact absurd hv' hv
    next hne => exact h.real id b hb (by rwa [if_neg hne] at hv')
  · rw [index_push] at hnone
    split at hnone
    · cases hnone
    next hne =>
      refine h.unmet b ((List.mem_cons.1 hb).resolve_left fun he => hne ?_) hnone
      rw [he]
  · rw [hheap a ha]
    exact h.heap a (fun hh => ha (hold hh)) hpa
  · rw [hheap a ha] at hb
    rcases hholds hh with hh | rfl
    · exact h.shut a name b (fun hh => ha (hold hh)) hpa hb hh
    · exact hr (hborn.heap a name r hb)
  · rcases hholds hh with hh | rfl
    · exact h.hidden a ha hh
    · exact hr (hborn.exposed r ha)

/-- The first run writes a field of an object that is held back. -/
theorem Tracks.setField (h : v.Tracks s) (hsealed : v.Sealed stale (· ∈ met) source)
    {id value : ValueId} {object : Virtual} (hv : (v.slot id).virtual = some object)
    (ho : (v.slot id).operand = .box r) (name : String) :
    (v.setField id name value).Tracks (s.write (some name) [.made r, v.means s value]) := by
  have hlt := lt_of_virtual hv
  have hoperand : ∀ id', ((v.setField id name value).slot id').operand = (v.slot id').operand := by
    intro id'
    show ((v.modifySlot id _).slot id').operand = _
    rw [slot_modifySlot]
    split <;> rfl
  have hmeans : (v.setField id name value).means (s.write (some name) [.made r, v.means s value]) =
      v.means s := funext fun id' => by
    unfold means
    rw [hoperand id']
    rfl
  have hself : ((v.setField id name value).slot id).virtual =
      some {object with fields := object.fields.set name value} := by
    show ((v.modifySlot id _).slot id).virtual = _
    rw [slot_modifySlot_self _ hlt, hv]
    rfl
  have hother : ∀ id', id' ≠ id → (v.setField id name value).slot id' = v.slot id' :=
    fun id' hne => slot_modifySlot_of_ne _ hne
  refine ⟨fun a id' hid => ?_, fun id' object' r' hv' ho' => ?_, fun id' object' r' hv' ho' => ?_,
    fun id' object' hv' => ?_⟩
  · rw [hmeans]
    exact h.same a id' hid
  · by_cases he : id' = id
    · rw [he, hoperand] at ho'
      exact h.made id object r' hv ho'
    · rw [hother id' he] at hv' ho'
      exact h.made id' object' r' hv' ho'
  · rw [hmeans]
    by_cases he : id' = id
    · subst he
      rw [hoperand, ho] at ho'
      cases ho'
      rw [hself] at hv'
      cases hv'
      refine (Function.update_self ..).trans ?_
      rw [h.fields id' object r hv ho]
      funext name'
      by_cases hn : name' = some name
      · simp [hn, Virtual.stored]
      · cases name' with
        | none => simp [Virtual.stored]
        | some n =>
          have hne : name ≠ n := fun he => hn (congrArg some he.symm)
          simp [Virtual.stored, Bindings.get?_set, hne, Ne.symm hne]
    · have hsame := hother id' he
      rw [hsame] at hv' ho'
      refine (Function.update_of_ne (fun he' => he ?_) ..).trans (h.fields id' object' r' hv' ho')
      cases he'
      have hhome := hsealed.home id' r ho'
      rw [hsealed.home id r ho] at hhome
      exact (Option.some.inj hhome).symm
  · by_cases he : id' = id
    · rw [he, hself] at hv'
      cases hv'
      exact Bindings.nodup_put (h.keys id object hv)
    · rw [hother id' he] at hv'
      exact h.keys id' object' hv'

theorem Mirrors.setField (h : Mirrors P met written v s s') {id value : ValueId} {object : Virtual}
    (hv : (v.slot id).virtual = some object) (ho : (v.slot id).operand = .box r) (name : String)
    (x : Value) :
    Mirrors P met written (v.setField id name value) (s.write (some name) [.made r, x]) s' := by
  have hslot : ∀ id', ((v.setField id name value).slot id').operand = (v.slot id').operand ∧
      (((v.setField id name value).slot id').virtual = none ↔ (v.slot id').virtual = none) := by
    intro id'
    show ((v.modifySlot id _).slot id').operand = _ ∧ (((v.modifySlot id _).slot id').virtual = none ↔ _)
    rw [slot_modifySlot]
    split <;> simp
  have hholds : ∀ a, (v.setField id name value).Holds a = v.Holds a := fun a => by
    have hiff : ∀ id', (∃ object, ((v.setField id name value).slot id').virtual = some object) ↔
        ∃ object, (v.slot id').virtual = some object := fun id' => by
      rw [← Option.ne_none_iff_exists', ← Option.ne_none_iff_exists']
      exact not_congr (hslot id').2
    simp only [Holds, (hslot _).1]
    refine propext (exists_congr fun id' => ?_)
    constructor
    · rintro ⟨object, r, hv, hrest⟩
      obtain ⟨object', hv'⟩ := (hiff id').1 ⟨object, hv⟩
      exact ⟨object', r, hv', hrest⟩
    · rintro ⟨object, r, hv, hrest⟩
      obtain ⟨object', hv'⟩ := (hiff id').2 ⟨object, hv⟩
      exact ⟨object', r, hv', hrest⟩
  have hself : v.Holds (.made r) := ⟨id, object, r, hv, ho, rfl⟩
  have hheap : ∀ a, ¬ v.Holds a → (s.write (some name) [.made r, x]).heap a = s.heap a :=
    fun a ha => Function.update_of_ne (fun (he : a = .made r) => ha (he ▸ hself)) ..
  refine ⟨h.env, ?_, h.known, fun id' b hb hv' => h.real id' b ((hslot id').1 ▸ hb) ((hslot id').2.1 hv'),
    h.unmet, ?_, ?_, ?_, ?_, h.exposed, h.outside⟩ <;> simp only [hholds]
  · exact h.reads
  · exact fun a ha hp => (h.heap a ha hp).trans (hheap a ha).symm
  · exact fun a name' b ha hp hb => h.shut a name' b ha hp (hheap a ha ▸ hb)
  · exact h.pending
  · exact h.hidden

/-- A box that was not met comes to stand for what it holds in the first run. -/
theorem Tracks.forward (h : v.Tracks s) {id : ValueId} (hr : s.env r = v.means s id) :
    (v.forward r id).Tracks s := by
  refine ⟨fun a id' hid => ?_, h.made, h.fields, h.keys⟩
  rw [index_forward] at hid
  split at hid
  next he =>
    cases hid
    rw [← he]
    exact hr
  next => exact h.same a id' hid

theorem Mirrors.forward (h : Mirrors P met written v s s') (id : ValueId) :
    Mirrors P met written (v.forward r id) s s' := by
  refine ⟨h.env, h.reads, h.known, h.real, fun b hb hnone => h.unmet b hb ?_, h.heap, h.shut,
    h.pending, h.hidden, h.exposed, h.outside⟩
  rw [index_forward] at hnone
  split at hnone
  · cases hnone
  · exact hnone

end

end Values
end TracePeel
