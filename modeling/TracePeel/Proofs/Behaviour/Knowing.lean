import TracePeel.Proofs.Behaviour.World
import TracePeel.Proofs.Keeping

/-! What the optimizer knows is true.

`Knows` says of a state that all that the table, the remembered computations and the
rebuilt snapshots claim holds in an environment. Each way to write the table keeps it,
given that what is written is true, and an operation that is written reads the values
that the operation it comes from reads. -/
namespace TracePeel

/-- What a slot says of its value is true, and the value is no virtual object. -/
structure Slot.Holds (w : World) (V : Env) (s : Slot) : Prop where
  real : s.virtual = none
  nonNull : s.level = .nonNull → (V.value s.operand).isTrue = true
  ofClass : ∀ c, s.knownClass = some c →
    (V.value s.operand).isTrue = true ∧ w.classOf (V.value s.operand) = c

theorem Slot.holds_fresh (w : World) (V : Env) (a : Operand) : (Values.fresh a).Holds w V := by
  refine ⟨rfl, fun h => ?_, nofun⟩
  cases hc : a.isConst <;> simp [Values.fresh, hc] at h

/-- A value known to be other than null is. -/
theorem Slot.Holds.isTrue {w : World} {V : Env} {s : Slot} (h : s.Holds w V)
    (hn : s.isNonNull = true) : (V.value s.operand).isTrue = true := by
  unfold isNonNull at hn
  split at hn
  next =>
    unfold constant? at hn
    split at hn
    next =>
      cases ho : s.operand with
      | box b => simp [ho, Operand.const?] at hn
      | const c =>
        show c.isTrue = true
        simpa [ho, Operand.const?] using hn
    next => cases hn
  next hl => exact h.nonNull hl
  next => cases hn

namespace Values

/-- What the table says is true: a slot stands for the value of every operand that it is
the slot of and of every computation that is remembered with it, and what is known of it
holds. -/
structure Hold (w : World) (V : Env) (known : Bindings PureKey ValueId) (v : Values) : Prop where
  slots : ∀ id, (v.slot id).Holds w V
  value : ∀ a id, v.index.get? a = some id → V.value (v.slot id).operand = V.value a
  known : ∀ key id, known.get? key = some id → V.value (v.slot id).operand =
    w.computed key.opcode key.descr key.kind (key.args.map V.value)

/-- Every slot that is named exists. -/
structure Grounded (known : Bindings PureKey ValueId) (v : Values) : Prop where
  inRange : v.InRange
  known : ∀ key id, known.get? key = some id → id < v.slots.size

theorem Grounded.valueOf {known : Bindings PureKey ValueId} {v : Values} (h : v.Grounded known)
    (a : Operand) : (v.valueOf a).2.Grounded known :=
  ⟨h.inRange.valueOf a, fun key id hid =>
    Nat.lt_of_lt_of_le (h.known key id hid) (size_le_valueOf ..)⟩

namespace Hold
variable {w : World} {V : Env} {known : Bindings PureKey ValueId} {v : Values}

theorem constant?_eq {s : Slot} {c : Const} (h : s.constant? = some c) : s.operand = .const c := by
  unfold Slot.constant? at h
  split at h
  next =>
    cases ho : s.operand with
    | box b => simp [ho, Operand.const?] at h
    | const c' => simpa [ho, Operand.const?] using h
  next => cases h

/-- An operand known to be a constant holds it. -/
theorem constantIs (h : v.Hold w V known) {a : Operand} {c : Const} (hc : v.ConstantIs a c) :
    V.value a = c := by
  obtain ⟨id, hid, hs⟩ := hc
  rw [← h.value a id hid, constant?_eq hs]
  rfl

/-- What an operand is emitted as holds its value. -/
theorem emittedAs (h : v.Hold w V known) {a k : Operand} (hk : v.EmittedAs a k) :
    V.value k = V.value a := by
  obtain ⟨id, hid, _, rfl⟩ := hk
  exact h.value a id hid

theorem slot_push_cases (v : Values) (a : Operand) (s : Slot) (id : ValueId) :
    (v.push a s).slot id = v.slot id ∨ (v.push a s).slot id = s := by
  rcases Nat.lt_trichotomy id v.slots.size with h | rfl | h
  · exact .inl (v.slot_push_of_lt a s h)
  · exact .inr (v.slot_push_self a s)
  · have h₁ : ¬ id < (v.push a s).slots.size := by
      rw [size_push]
      exact Nat.not_lt.2 h
    rw [slot_of_not_lt h₁, slot_of_not_lt (Nat.lt_asymm h)]
    exact .inl rfl

theorem valueOf (h : v.Hold w V known) (hg : v.Grounded known) (a : Operand) :
    (v.valueOf a).2.Hold w V known := by
  cases ha : v.index.get? a with
  | some id =>
    rw [valueOf_known ha]
    exact h
  | none =>
    rw [valueOf_new ha]
    refine ⟨fun id => ?_, fun b id hid => ?_, fun key id hid => ?_⟩
    · rcases slot_push_cases v a (fresh a) id with he | he <;> rw [he]
      · exact h.slots id
      · exact Slot.holds_fresh w V a
    · rw [index_push] at hid
      split at hid
      next he =>
        cases hid
        rw [slot_push_self, ← he]
        rfl
      next =>
        rw [slot_push_of_lt v a _ (hg.inRange b id hid)]
        exact h.value b id hid
    · rw [slot_push_of_lt v a _ (hg.known key id hid)]
      exact h.known key id hid

/-- More comes to be known of a slot whose value stays. -/
theorem modifySlot (h : v.Hold w V known) {id : ValueId} {f : Slot → Slot}
    (hf : (f (v.slot id)).Holds w V)
    (hvalue : V.value (f (v.slot id)).operand = V.value (v.slot id).operand) :
    (v.modifySlot id f).Hold w V known := by
  have hsame : ∀ j, V.value ((v.modifySlot id f).slot j).operand = V.value (v.slot j).operand := by
    intro j
    rw [slot_modifySlot]
    split
    next he => rw [he.1, hvalue]
    next => rfl
  refine ⟨fun j => ?_, fun a j hj => (hsame j).trans (h.value a j hj),
    fun key j hj => (hsame j).trans (h.known key j hj)⟩
  rw [slot_modifySlot]
  split
  next he =>
    rw [he.1]
    exact hf
  next => exact h.slots j

theorem makeConstant (h : v.Hold w V known) {id : ValueId} {c : Const}
    (hc : V.value (v.slot id).operand = c) : (v.makeConstant id c).Hold w V known := by
  refine h.modifySlot ⟨rfl, nofun, fun k hk => ?_⟩ hc.symm
  have := (h.slots id).ofClass k hk
  rwa [hc] at this

theorem makeNonNull (h : v.Hold w V known) {id : ValueId}
    (ht : (V.value (v.slot id).operand).isTrue = true) : (v.makeNonNull id).Hold w V known := by
  have hs := h.slots id
  refine h.modifySlot ?_ ?_
  · split
    · exact ⟨hs.real, fun _ => ht, hs.ofClass⟩
    · exact hs
  · split <;> rfl

theorem setClass (h : v.Hold w V known) {id : ValueId} {c : Const}
    (ht : (V.value (v.slot id).operand).isTrue = true)
    (hc : w.classOf (V.value (v.slot id).operand) = c) : (v.setClass id c).Hold w V known := by
  have hs := h.slots id
  refine h.modifySlot ⟨hs.real, hs.nonNull, fun k hk => ?_⟩ rfl
  cases hk
  exact ⟨ht, hc⟩

theorem forward (h : v.Hold w V known) {r : Box} {id : ValueId}
    (hr : V r = V.value (v.slot id).operand) : (v.forward r id).Hold w V known := by
  refine ⟨h.slots, fun a j hj => ?_, h.known⟩
  have hj' : (v.index.set (.box r) id).get? a = some j := hj
  rw [Bindings.get?_set] at hj'
  split at hj'
  next he =>
    cases hj'
    rw [← he]
    exact hr.symm
  next => exact h.value a j hj'

/-- A box that holds a constant is met and known to be it. -/
theorem adoptConstant (h : v.Hold w V known) (hg : v.Grounded known) {r : Box} {c : Const} (hc : V r = c) :
    ((v.valueOf (.box r)).2.makeConstant (v.valueOf (.box r)).1 c).Hold w V known := by
  have hmet := h.valueOf hg (.box r)
  refine hmet.makeConstant ?_
  rw [hmet.value (.box r) _ (index_valueOf_self ..)]
  exact hc

theorem markFromStart (h : v.Hold w V known) : v.markFromStart.Hold w V known := by
  have hslot : ∀ id, ∃ b, v.markFromStart.slot id = {v.slot id with fromStart := b} := by
    intro id
    by_cases hid : id < v.slots.size
    · exact ⟨_, Consistent.slot_markFromStart v id hid⟩
    · have hid' : ¬ id < v.markFromStart.slots.size := by simpa [Values.markFromStart] using hid
      exact ⟨false, by rw [slot_of_not_lt hid', slot_of_not_lt hid]; rfl⟩
  have hsame : ∀ id, (v.markFromStart.slot id).operand = (v.slot id).operand := fun id => by
    obtain ⟨b, hb⟩ := hslot id
    rw [hb]
  refine ⟨fun id => ?_, fun a id hid => ?_, fun key id hid => ?_⟩
  · obtain ⟨b, hb⟩ := hslot id
    rw [hb]
    exact ⟨(h.slots id).real, (h.slots id).nonNull, (h.slots id).ofClass⟩
  · rw [hsame]
    exact h.value a id hid
  · rw [hsame]
    exact h.known key id hid

/-- A computation is remembered with the slot of what it yields. -/
theorem remember (h : v.Hold w V known) {key : PureKey} {id : ValueId}
    (hvalue : V.value (v.slot id).operand =
      w.computed key.opcode key.descr key.kind (key.args.map V.value)) :
    v.Hold w V (known.set key id) := by
  refine ⟨h.slots, h.value, fun key' id' hid => ?_⟩
  rw [Bindings.get?_set] at hid
  split at hid
  next he =>
    cases hid
    rw [← he]
    exact hvalue
  next => exact h.known key' id' hid

end Hold
end Values

namespace Optimizer

/-- All that the optimizer knows is true in an environment. -/
structure Knows (w : World) (V : Env) (T : FrameTable) (o : Optimizer) : Prop where
  table : o.values.Hold w V o.known
  sink : Relinker.Sound (fun a a' => V.value a' = V.value a) T ⟨o.sink, o.pool.nextFrame⟩

/-- The operations do just `x`, and the environment holds what they produce. -/
structure Mimics (w : World) (V : Env) (s : Course) (x : Except Exit Course)
    (new : List Operation) : Prop where
  outcome : w.runAt V new s = x
  explains : w.Explains V new s

/-- What was written does just `x`, and if that does not leave the list, all that is known
behind it is true. -/
def Mirrors (w : World) (V : Env) (T : FrameTable) (s : Course) (x : Except Exit Course)
    (o o' : Optimizer) : Prop :=
  ∃ new, o'.out.toList = o.out.toList ++ new ∧ Mimics w V s x new ∧
    ∀ s', x = .ok s' → ∃ T', T.Extends T' ∧ Knows w V T' o'

theorem mimics_of_alike {w : World} {V : Env} {s : Course} {op op' : Operation}
    (h : Alike V V op op') (hresult : op'.result = op.result) (hguard : op.isGuard = true →
      op.result = none) (he : w.Explains V [op] s) : Mimics w V s (w.outcome V op s) [op'] := by
  refine ⟨?_, fun s' hs => ⟨fun r hr => ?_, trivial⟩⟩
  · simp only [World.runAt]
    rw [h.outcome]
    cases w.outcome V op s <;> rfl
  · rw [h.outcome] at hs
    rw [hresult] at hr
    have hno : op.isGuard = false := by
      cases hg : op.isGuard with
      | false => rfl
      | true =>
        rw [hguard hg] at hr
        cases hr
    rw [h.result hno]
    exact (he s' hs).1 r hr

section Emit
variable {w : World} {V : Env} {T : FrameTable} {o o' : Optimizer} {op : Operation}

/-- An operation was written that reads what the operation it comes from reads. -/
structure Emitted (w : World) (V : Env) (T : FrameTable) (op : Operation) (o o' : Optimizer) :
    Prop where
  written : ∃ op', Alike V V op op' ∧ op'.result = op.result ∧ o'.out = o.out.push op'
  values : o'.values = o.values
  known : o'.known = o.known
  mayRaise : o'.mayRaise = o.mayRaise
  knows : ∃ T', T.Extends T' ∧ Knows w V T' o'

theorem Knows.emit (h : Knows w V T o) (hop : op.Plain) (hframes : op.snapshot.In T) :
    Emitted w V T op o ((Optimizer.emit op).run o).2 := by
  have hp : Persists (fun o o' : Optimizer => o' = o)
      fun _ a a' => V.value a' = V.value a :=
    ⟨fun _ => rfl, fun h₁ h₂ => h₂.trans h₁, fun _ h => h⟩
  have hstep : ∀ b, .box b ∈ op.usedArgs → ∀ o₁, o₁ = o →
      Yields (forwardBox b) o₁ fun a o' => o' = o ∧ o' = o₁ ∧ V.value a = V.value (.box b) := by
    rintro b - _ rfl
    unfold forwardBox
    rw [yields_bind, yields_get]
    split
    next id hid =>
      simp only [force, yields_modifyGet, Values.force_of_real (h.table.slots id).real]
      exact ⟨trivial, trivial, h.table.value _ id hid⟩
    next => exact ⟨rfl, rfl, rfl⟩
  obtain ⟨o₁, op', T', supply, events, rfl, -, hT, hsink, hrenders, hresult, -, he⟩ :=
    Optimizer.emit_yields hp (fun _ _ => rfl) (fun he => by rw [he]; exact ⟨rfl, rfl⟩) hframes
      hstep rfl h.sink
  rw [he]
  exact ⟨⟨op', hrenders.alike (fun _ _ => id) hop, hresult, rfl⟩, rfl, rfl, rfl, T', hT,
    h.table, hsink⟩

/-- At the end of the chain, whatever comes is written. -/
theorem Knows.handled (h : Knows w V T o) (hop : op.Plain) (hframes : op.snapshot.In T)
    (hs : Handled [] op o o') : Emitted w V T op o o' := by
  obtain ⟨chain, cursor, o₂, rfl, rfl⟩ := hs
  have hknows : Knows w V T {o with chain, cursor} := ⟨h.table, h.sink⟩
  obtain ⟨hwritten, hvalues, hknown, hraise, T', hT, hk⟩ := hknows.emit hop hframes
  exact ⟨hwritten, hvalues, hknown, hraise, T', hT, hk.table, hk.sink⟩

theorem Emitted.mimics (h : Emitted w V T op o o') {s : Course}
    (hguard : op.isGuard = true → op.result = none) (he : w.Explains V [op] s) :
    ∃ new, o'.out.toList = o.out.toList ++ new ∧ Mimics w V s (w.outcome V op s) new := by
  obtain ⟨op', halike, hresult, hout⟩ := h.written
  exact ⟨[op'], by rw [hout, Array.toList_push], mimics_of_alike halike hresult hguard he⟩

theorem Emitted.mirrors (h : Emitted w V T op o o') {s : Course}
    (hguard : op.isGuard = true → op.result = none) (he : w.Explains V [op] s) :
    Mirrors w V T s (w.outcome V op s) o o' :=
  let ⟨new, hout, hmimics⟩ := h.mimics hguard he
  ⟨new, hout, hmimics, fun _ _ => h.knows⟩

end Emit

/-! ### Meeting operands -/

theorem Working.grounded {T : FrameTable} {base start defined : List Box} {o : Optimizer}
    (h : Working T base start defined o) : o.values.Grounded o.known :=
  ⟨h.inRange, fun key id hid => (h.known key id hid).1⟩

section Met
variable {w : World} {V : Env} {T : FrameTable} {o o₁ : Optimizer} {as : List Operand}

theorem Knows.met (h : Knows w V T o) (hg : o.values.Grounded o.known) (a : Operand) :
    Knows w V T (o.met a) :=
  ⟨h.table.valueOf hg a, h.sink⟩

theorem Knows.of_met (h : Knows w V T o) (hg : o.values.Grounded o.known) (hmet : Met as o o₁) :
    Knows w V T o₁ ∧ o₁.values.Grounded o₁.known := by
  induction hmet with
  | refl => exact ⟨h, hg⟩
  | more _ _ ih => exact ⟨ih.1.met ih.2 _, ih.2.valueOf _⟩

end Met
end Optimizer
end TracePeel
