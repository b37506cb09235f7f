import TracePeel.Proofs.Run
import TracePeel.Proofs.Table

/-! What one operation does in a pass.

Rewriting and allocation removal meet some operands, and then hand the operation on,
drop it, or settle it in the table. `Rewritten` and `Virtualized` list the ways, each
with what was known when it was taken and the state it leaves. What happens to an
operation that is handed on is a parameter, so the two compose. -/
namespace TracePeel

namespace Values

/-- The operand is known to be a constant. -/
def ConstantIs (v : Values) (a : Operand) (c : Const) : Prop :=
  ∃ id, v.index.get? a = some id ∧ (v.slot id).constant? = some c

/-- The operand is emitted as `k` as it stands, without an allocation in front. -/
def EmittedAs (v : Values) (a k : Operand) : Prop :=
  ∃ id, v.index.get? a = some id ∧ (v.slot id).isVirtual = false ∧ (v.slot id).operand = k

end Values

namespace Optimizer

/-- The slot that an operand has once it is met. -/
def idOf (o : Optimizer) (a : Operand) : ValueId :=
  (o.values.valueOf a).1

/-- The state after an operand was met. -/
def met (o : Optimizer) (a : Operand) : Optimizer :=
  {o with values := (o.values.valueOf a).2}

/-- What is known of an operand when it is met. -/
def slotOf (o : Optimizer) (a : Operand) : Slot :=
  (o.met a).values.slot (o.idOf a)

/-- A state reached by meeting some of the operands. -/
inductive Met (as : List Operand) (o : Optimizer) : Optimizer → Prop
  | refl : Met as o o
  | more {o' : Optimizer} {a : Operand} : Met as o o' → a ∈ as → Met as o (o'.met a)

theorem yields_valueOf {o : Optimizer} {a : Operand} {Q : ValueId → Optimizer → Prop} :
    Yields (valueOf a) o Q ↔ Q (o.idOf a) (o.met a) :=
  Iff.rfl

theorem yields_slot {o : Optimizer} {id : ValueId} {Q : Slot → Optimizer → Prop} :
    Yields (slot id) o Q ↔ Q (o.values.slot id) o :=
  Iff.rfl

theorem yields_modifyValues {o : Optimizer} {f : Values → Values} {Q : PUnit → Optimizer → Prop} :
    Yields (modifyValues f) o Q ↔ Q ⟨⟩ {o with values := f o.values} :=
  Iff.rfl

theorem yields_count {o : Optimizer} {f : Stats → Stats} {Q : PUnit → Optimizer → Prop} :
    Yields (count f) o Q ↔ Q ⟨⟩ {o with stats := f o.stats} :=
  Iff.rfl

theorem yields_tell {o : Optimizer} {e : Event} {Q : PUnit → Optimizer → Prop} :
    Yields (tell e) o Q ↔ Q ⟨⟩ {o with events := o.events.push e} :=
  Iff.rfl

theorem index_met (o : Optimizer) (a : Operand) :
    (o.met a).values.index.get? a = some (o.idOf a) :=
  Values.index_valueOf_self ..

namespace Met
variable {as : List Operand} {o o₁ o₂ : Optimizer}

theorem trans (h₁ : Met as o o₁) (h₂ : Met as o₁ o₂) : Met as o o₂ := by
  induction h₂ with
  | refl => exact h₁
  | more _ ha ih => exact ih.more ha

theorem one {a : Operand} (h : a ∈ as) : Met as o (o.met a) :=
  Met.refl.more h

theorem mono {bs : List Operand} (h : Met as o o₁) (hs : as ⊆ bs) : Met bs o o₁ := by
  induction h with
  | refl => exact .refl
  | more _ ha ih => exact ih.more (hs ha)

/-- Meeting operands changes the table only. -/
theorem eq_values (h : Met as o o₁) : o₁ = {o with values := o₁.values} := by
  induction h with
  | refl => rfl
  | more _ _ ih =>
    rw [ih]
    rfl

theorem chain (h : Met as o o₁) : o₁.chain = o.chain := by
  rw [h.eq_values]

theorem inRange (h : Met as o o₁) (ho : o.values.InRange) : o₁.values.InRange := by
  induction h with
  | refl => exact ho
  | more _ _ ih => exact ih.valueOf _

theorem index_of_some (h : Met as o o₁) {a : Operand} {id : ValueId}
    (ha : o.values.index.get? a = some id) : o₁.values.index.get? a = some id := by
  induction h with
  | refl => exact ha
  | more _ _ ih => exact Values.index_valueOf_of_some ih

theorem size_le (h : Met as o o₁) : o.values.slots.size ≤ o₁.values.slots.size := by
  induction h with
  | refl => exact Nat.le_refl _
  | more _ _ ih => exact Nat.le_trans ih (Values.size_le_valueOf _ _)

theorem slot_of_lt (h : Met as o o₁) {id : ValueId} (hid : id < o.values.slots.size) :
    o₁.values.slot id = o.values.slot id := by
  induction h with
  | refl => rfl
  | more hm _ ih =>
    rw [← ih]
    exact Values.slot_valueOf _ (Nat.lt_of_lt_of_le hid hm.size_le)

theorem constantIs (h : Met as o o₁) (ho : o.values.InRange) {a : Operand} {c : Const}
    (hc : o.values.ConstantIs a c) : o₁.values.ConstantIs a c := by
  obtain ⟨id, ha, hs⟩ := hc
  exact ⟨id, h.index_of_some ha, by rw [h.slot_of_lt (ho a id ha), hs]⟩

theorem emittedAs (h : Met as o o₁) (ho : o.values.InRange) {a k : Operand}
    (hk : o.values.EmittedAs a k) : o₁.values.EmittedAs a k := by
  obtain ⟨id, ha, hv, hs⟩ := hk
  refine ⟨id, h.index_of_some ha, ?_, ?_⟩ <;> rwa [h.slot_of_lt (ho a id ha)]

end Met
end Optimizer

/-- Whether the loop is refused because a guard can never pass. -/
def OptCause.isGuardFailure : OptCause → Bool
  | alwaysFails _ _ | neverEqual _ _ | neverOfClass _ _ => true
  | _ => false

/-! ### Rewriting -/

namespace Rewrite
open Optimizer

/-- A guard that passes by what is known of the value it looks at. -/
inductive Implied (op : Operation) (s : Slot) : Prop
  | truth {c : Const} : op.opcode = .guardTrue ∨ op.opcode = .guardFalse →
      s.constant? = some c → c.isTrue = (op.opcode == .guardTrue) → Implied op s
  | value {a : Operand} {c : Const} {rest : List Operand} : op.opcode = .guardValue →
      op.args = a :: .const c :: rest → s.constant? = some c → Implied op s
  | nonNull : op.opcode = .guardNonnull → s.isNonNull = true → Implied op s
  | null : op.opcode = .guardIsnull → s.isNull = true → Implied op s
  | ofClass {a : Operand} {c : Const} {rest : List Operand} : op.opcode = .guardClass →
      op.args = a :: .const c :: rest → s.knownClass = some c → Implied op s

theorem Implied.isGuard {op : Operation} {s : Slot} (h : Implied op s) :
    op.isGuard = true := by
  cases h with
  | truth h => rcases h with h | h <;> simp [Operation.isGuard, h, Opcode.isGuard]
  | value h | nonNull h | null h | ofClass h => simp [Operation.isGuard, h, Opcode.isGuard]

/-- A guard that can never pass by what is known of the value it looks at, and the reason
that is given for it. -/
inductive Refuted (op : Operation) (arg : Operand) (s : Slot) : OptCause → Prop
  | truth {c : Const} : op.opcode = .guardTrue ∨ op.opcode = .guardFalse →
      s.constant? = some c → c.isTrue ≠ (op.opcode == .guardTrue) →
      Refuted op arg s (.alwaysFails op.opcode (.const c))
  | value {a : Operand} {c wanted : Const} {rest : List Operand} : op.opcode = .guardValue →
      op.args = a :: .const wanted :: rest → s.constant? = some c → c ≠ wanted →
      Refuted op arg s (.neverEqual wanted c)
  | nonNull : op.opcode = .guardNonnull → s.isNull = true →
      Refuted op arg s (.alwaysFails op.opcode arg)
  | null : op.opcode = .guardIsnull → s.isNonNull = true →
      Refuted op arg s (.alwaysFails op.opcode arg)
  | ofClass {a : Operand} {c wanted : Const} {rest : List Operand} : op.opcode = .guardClass →
      op.args = a :: .const wanted :: rest → s.knownClass = some c → c ≠ wanted →
      Refuted op arg s (.neverOfClass wanted c)

theorem Refuted.isGuardFailure {op : Operation} {arg : Operand} {s : Slot} {cause : OptCause}
    (h : Refuted op arg s cause) : cause.isGuardFailure = true := by
  cases h <;> rfl

/-- How the table changes behind a guard that stays: `s` is what was known of the value
with the number `id` that the guard looks at through `arg`. -/
inductive Teaches (op : Operation) (arg : Operand) (s : Slot) (id : ValueId) :
    (Values → Values) → Prop
  | truth : op.opcode = .guardTrue ∨ op.opcode = .guardFalse → s.constant? = none →
      arg.kind = .int → Teaches op arg s id (·.makeConstant id (.ofBool (op.opcode == .guardTrue)))
  | nothing : op.opcode = .guardTrue ∨ op.opcode = .guardFalse → arg.kind ≠ .int →
      Teaches op arg s id fun v => v
  | value {a : Operand} {c : Const} {rest : List Operand} : op.opcode = .guardValue →
      op.args = a :: .const c :: rest → s.constant? = none →
      Teaches op arg s id (·.makeConstant id c)
  | nonNull : op.opcode = .guardNonnull → Teaches op arg s id (·.makeNonNull id)
  | null : op.opcode = .guardIsnull → s.isNonNull = false → s.isNull = false →
      Teaches op arg s id (·.makeConstant id (.zero arg.kind))
  | ofClass {a : Operand} {c : Const} {rest : List Operand} : op.opcode = .guardClass →
      op.args = a :: .const c :: rest →
      Teaches op arg s id fun v => (v.setClass id c).makeNonNull id

theorem Teaches.isGuard {op : Operation} {arg : Operand} {s : Slot} {id : ValueId}
    {f : Values → Values} (h : Teaches op arg s id f) : op.isGuard = true := by
  cases h with
  | truth h | nothing h => rcases h with h | h <;> simp [Operation.isGuard, h, Opcode.isGuard]
  | value h | nonNull h | null h | ofClass h => simp [Operation.isGuard, h, Opcode.isGuard]

/-- Why an operation is handed on although nothing is made of it. -/
inductive Untouched (op : Operation) (v : Values) : Prop
  | ordinary : op.isGuard = false → op.opcode ≠ .call → op.opcode.isAlwaysPure = false →
      Untouched op v
  | shapeless : op.isGuard = true → op.opcode ≠ .guardNoException →
      (∀ a c rest, op.args ≠ a :: .const c :: rest) → Untouched op v
  | noResult : op.opcode.isAlwaysPure = true →
      op.result = none ∨ op.opcode = .sameAs ∧ op.args = [] → Untouched op v
  | virtual {a : Operand} {id : ValueId} : op.opcode.isAlwaysPure = true → a ∈ op.args →
      v.index.get? a = some id → (v.slot id).isVirtual = true → Untouched op v

/-- Under which key a pure operation is remembered, its operands emitted as `ks`. -/
def keyOf (op : Operation) (ks : List Operand) (r : Box) : PureKey :=
  ⟨op.opcode, ks, op.descrName?, r.kind⟩

/-- One operation through rewriting, from a state to a state. `send` says what happens
to an operation that is handed on. -/
inductive Rewritten (send : Operation → Optimizer → Optimizer → Prop) (op : Operation)
    (o : Optimizer) : Optimizer → Prop
  | passed {o₁ o' : Optimizer} : Met op.args o o₁ → Untouched op o₁.values → send op o₁ o' →
      Rewritten send op o o'
  | dropped {arg : Operand} {rest : List Operand} : op.args = arg :: rest →
      Implied op (o.slotOf arg) →
      Rewritten send op o
        {o.met arg with stats := {o.stats with guardsRemoved := o.stats.guardsRemoved + 1}}
  | kept {arg : Operand} {rest : List Operand} {f : Values → Values} {o₁ : Optimizer} :
      op.args = arg :: rest → Teaches op arg (o.slotOf arg) (o.idOf arg) f →
      send op (o.met arg) o₁ → Rewritten send op o {o₁ with values := f o₁.values}
  | unraised : op.opcode = .guardNoException → o.mayRaise = false →
      Rewritten send op o
        {o with stats := {o.stats with guardsRemoved := o.stats.guardsRemoved + 1}}
  | checked {o₁ : Optimizer} : op.opcode = .guardNoException → o.mayRaise = true →
      send op o o₁ → Rewritten send op o {o₁ with mayRaise := false}
  | called {o' : Optimizer} : op.opcode = .call → send op {o with mayRaise := true} o' →
      Rewritten send op o o'
  | aliased {a : Operand} {rest : List Operand} {r : Box} : op.opcode = .sameAs →
      op.args = a :: rest → op.result = some r →
      Rewritten send op o
        {o.met a with values := (o.met a).values.forward r (o.idOf a)}
  | folded {o₁ : Optimizer} {cs : List Const} {c : Const} {r : Box} :
      op.opcode.isAlwaysPure = true → op.opcode ≠ .sameAs → op.result = some r →
      Met op.args o o₁ → List.Forall₂ o₁.values.ConstantIs op.args cs →
      fold op.opcode cs = some c →
      Rewritten send op o
        {o₁ with
          values := (o₁.met (.box r)).values.makeConstant (o₁.idOf (.box r)) c
          stats := {o₁.stats with folded := o₁.stats.folded + 1}
          events := o₁.events.push (.folded op.opcode c)}
  | reused {o₁ : Optimizer} {ks : List Operand} {r : Box} {id : ValueId} :
      op.opcode.isAlwaysPure = true → op.opcode ≠ .sameAs → op.result = some r →
      Met op.args o o₁ → List.Forall₂ o₁.values.EmittedAs op.args ks →
      o₁.known.get? (keyOf op ks r) = some id →
      Rewritten send op o
        {o₁ with
          values := o₁.values.forward r id
          stats := {o₁.stats with cseHits := o₁.stats.cseHits + 1}
          events := o₁.events.push (.reused op.opcode)}
  | computed {o₁ o' : Optimizer} {ks : List Operand} {r : Box} :
      op.opcode.isAlwaysPure = true → op.opcode ≠ .sameAs → op.result = some r →
      Met op.args o o₁ → List.Forall₂ o₁.values.EmittedAs op.args ks →
      o₁.known.get? (keyOf op ks r) = none →
      (∀ cs, List.Forall₂ o₁.values.ConstantIs op.args cs → fold op.opcode cs = none) →
      send op
        {o₁.met (.box r) with known := o₁.known.set (keyOf op ks r) (o₁.idOf (.box r))} o' →
      Rewritten send op o o'

/-! ### What rewriting ends with -/

/-- An operand is known to be one constant at most. -/
theorem constantIs_unique (v : Values) : Relator.RightUnique v.ConstantIs := by
  rintro a c c' ⟨id, hid, hc⟩ ⟨id', hid', hc'⟩
  rw [hid] at hid'
  cases hid'
  rw [hc] at hc'
  exact Option.some.inj hc'

section Steps
variable {emit : Operation → Optimize Unit} {E : OptError → Prop}
  {send : Operation → Optimizer → Optimizer → Prop} {op : Operation} {o : Optimizer}

variable (hemit : ∀ op o', o'.chain = o.chain → o'.values.InRange →
    Ends E (emit op) o' fun _ o'' => send op o' o'')
  (hE : ∀ arg rest cause, op.args = arg :: rest → Refuted op arg (o.slotOf arg) cause →
    E { cause })
  (ho : o.values.InRange)
include hemit hE ho

theorem guardTruth_ends (hop : op.opcode = .guardTrue ∨ op.opcode = .guardFalse) :
    Ends E (guardTruth emit op) o fun _ o' => Rewritten send op o o' := by
  unfold guardTruth
  split
  next ha =>
    refine (hemit op o rfl ho).mono fun _ o' h => .passed .refl (.shapeless ?_ ?_ ?_) h
    · rcases hop with h | h <;> simp [Operation.isGuard, h, Opcode.isGuard]
    · rcases hop with h | h <;> simp [h]
    · simp [ha]
  next arg rest ha =>
    simp only [ends_bind, ends_lift, yields_valueOf, yields_slot]
    split
    next c hc =>
      split
      next ht => exact .dropped ha (.truth hop hc (by simpa using ht))
      next hf => exact hE arg rest _ ha (.truth hop hc (by simpa using hf))
    next hc =>
      rw [ends_bind]
      refine (hemit op (o.met arg) rfl (ho.valueOf arg)).mono fun _ o' h => ?_
      split
      next hk => exact .kept ha (.truth hop hc hk) h
      next hk => exact .kept ha (.nothing hop hk) h

theorem guardValue_ends (hop : op.opcode = .guardValue) :
    Ends E (guardValue emit op) o fun _ o' => Rewritten send op o o' := by
  unfold guardValue
  split
  next arg wanted rest ha =>
    simp only [ends_bind, ends_lift, yields_valueOf, yields_slot]
    split
    next c hc =>
      split
      next ht => exact .dropped ha (.value hop ha (ht ▸ hc))
      next hf => exact hE _ _ _ ha (.value hop ha hc hf)
    next hc =>
      rw [ends_bind]
      exact (hemit op (o.met arg) rfl (ho.valueOf arg)).mono fun _ o' h =>
        .kept ha (.value hop ha hc) h
  next hno =>
    refine (hemit op o rfl ho).mono fun _ o' h => .passed .refl (.shapeless ?_ ?_ ?_) h
    · simp [Operation.isGuard, hop, Opcode.isGuard]
    · simp [hop]
    · exact fun a c rest h => hno a c rest h

theorem guardNull_ends (hop : op.opcode = .guardNonnull ∨ op.opcode = .guardIsnull) :
    Ends E (guardNull emit op) o fun _ o' => Rewritten send op o o' := by
  unfold guardNull
  split
  next ha =>
    refine (hemit op o rfl ho).mono fun _ o' h => .passed .refl (.shapeless ?_ ?_ ?_) h
    · rcases hop with h | h <;> simp [Operation.isGuard, h, Opcode.isGuard]
    · rcases hop with h | h <;> simp [h]
    · simp [ha]
  next arg rest ha =>
    simp only [ends_bind, ends_lift, yields_valueOf, yields_slot]
    have hsend := hemit op (o.met arg) rfl (ho.valueOf arg)
    rcases hop with hop | hop
    all_goals simp only [hop, beq_self_eq_true, if_true, Bool.or_eq_true, reduceCtorEq,
      beq_iff_eq, if_false]
    · split
      next hn => exact .dropped ha (.nonNull hop hn)
      next hn =>
        split
        next hk => exact hE arg rest _ ha (hop ▸ .nonNull hop (hk.resolve_left hn))
        next =>
          rw [ends_bind]
          exact hsend.mono fun _ o' h => .kept ha (.nonNull hop) h
    · split
      next hn => exact .dropped ha (.null hop hn)
      next hn =>
        split
        next hk => exact hE arg rest _ ha (hop ▸ .null hop (hk.resolve_right hn))
        next hk =>
          rw [not_or, Bool.not_eq_true, Bool.not_eq_true] at hk
          rw [ends_bind]
          exact hsend.mono fun _ o' h => .kept ha (.null hop hk.1 hk.2) h

theorem guardClass_ends (hop : op.opcode = .guardClass) :
    Ends E (guardClass emit op) o fun _ o' => Rewritten send op o o' := by
  unfold guardClass
  split
  next arg wanted rest ha =>
    simp only [ends_bind, ends_lift, yields_valueOf, yields_slot]
    split
    next c hc =>
      split
      next ht => exact .dropped ha (.ofClass hop ha (ht ▸ hc))
      next hf => exact hE _ _ _ ha (.ofClass hop ha hc hf)
    next =>
      rw [ends_bind]
      exact (hemit op (o.met arg) rfl (ho.valueOf arg)).mono fun _ o' h =>
        .kept ha (.ofClass hop ha) h
  next hno =>
    refine (hemit op o rfl ho).mono fun _ o' h => .passed .refl (.shapeless ?_ ?_ ?_) h
    · simp [Operation.isGuard, hop, Opcode.isGuard]
    · simp [hop]
    · exact fun a c rest h => hno a c rest h

omit hE in
theorem guardNoException_ends (hop : op.opcode = .guardNoException) :
    Ends E (guardNoException emit op) o fun _ o' => Rewritten send op o o' := by
  unfold guardNoException
  rw [ends_bind, ends_get]
  split
  next hm =>
    rw [ends_bind]
    exact (hemit op o rfl ho).mono fun _ o' h => .checked hop hm h
  next hm => exact .unraised hop (by simpa using hm)

omit hE in
theorem call_ends (hop : op.opcode = .call) :
    Ends E (call emit op) o fun _ o' => Rewritten send op o o' := by
  unfold call
  simp only [ends_bind, ends_modify]
  exact (hemit op {o with mayRaise := true} rfl ho).mono fun _ o' h => .called hop h

omit hE in
theorem sameAs_ends (hop : op.opcode = .sameAs) :
    Ends E (sameAs emit op) o fun _ o' => Rewritten send op o o' := by
  unfold sameAs
  split
  next r a rest hr ha =>
    simp only [ends_bind, ends_lift, yields_valueOf, yields_modifyValues]
    exact .aliased hop ha hr
  next hno =>
    refine (hemit op o rfl ho).mono fun _ o' h => .passed .refl (.noResult ?_ ?_) h
    · simp [hop, Opcode.isAlwaysPure]
    · cases hr : op.result with
      | none => exact .inl rfl
      | some r =>
        cases ha : op.args with
        | nil => exact .inr ⟨hop, rfl⟩
        | cons a rest => exact absurd ha (hno r a rest hr)

omit hemit hE in
/-- Either all operands are constants, or one that is not was found. -/
theorem constants_yields (args : List Operand) :
    Yields (constants args) o fun cs? o' => Met args o o' ∧
      match cs? with
      | some cs => List.Forall₂ o'.values.ConstantIs args cs
      | none => ∃ a ∈ args, ∃ id, o'.values.index.get? a = some id ∧
          (o'.values.slot id).constant? = none := by
  induction args generalizing o with
  | nil => exact ⟨.refl, .nil⟩
  | cons a rest ih =>
    unfold constants
    simp only [yields_bind, constant?, yields_valueOf, yields_slot, yields_pure]
    have hmet : Met (a :: rest) o (o.met a) := .one (List.mem_cons_self ..)
    have hindex : (o.met a).values.index.get? a = some (o.idOf a) :=
      o.index_met a
    split
    next hc =>
      rw [yields_pure]
      exact ⟨hmet, a, List.mem_cons_self .., _, hindex, hc⟩
    next c hc =>
      rw [yields_bind]
      have hr := ho.valueOf a
      refine (ih hr).mono ?_
      rintro cs? o' ⟨hm, h⟩
      refine ⟨hmet.trans (hm.mono (List.subset_cons_self ..)), ?_⟩
      have hac := hm.constantIs hr ⟨_, hindex, hc⟩
      cases cs? with
      | some cs => exact .cons hac h
      | none =>
        obtain ⟨b, hb, hfound⟩ := h
        exact ⟨b, List.mem_cons_of_mem _ hb, hfound⟩

omit hemit hE in
/-- Either no operand is a virtual object, or one that is was found. -/
theorem representatives_yields (args : List Operand) :
    Yields (representatives args) o fun ks? o' => Met args o o' ∧
      match ks? with
      | some ks => List.Forall₂ o'.values.EmittedAs args ks
      | none => ∃ a ∈ args, ∃ id, o'.values.index.get? a = some id ∧
          (o'.values.slot id).isVirtual = true := by
  induction args generalizing o with
  | nil => exact ⟨.refl, .nil⟩
  | cons a rest ih =>
    unfold representatives
    simp only [yields_bind, yields_valueOf, yields_slot]
    have hmet : Met (a :: rest) o (o.met a) := .one (List.mem_cons_self ..)
    have hindex : (o.met a).values.index.get? a = some (o.idOf a) :=
      o.index_met a
    split
    next hv => exact ⟨hmet, a, List.mem_cons_self .., _, hindex, hv⟩
    next hv =>
      rw [yields_bind]
      have hr := ho.valueOf a
      refine (ih hr).mono ?_
      rintro ks? o' ⟨hm, h⟩
      refine ⟨hmet.trans (hm.mono (List.subset_cons_self ..)), ?_⟩
      cases ks? with
      | some ks =>
        exact .cons (hm.emittedAs hr ⟨_, hindex, by simpa using hv, rfl⟩) h
      | none =>
        obtain ⟨b, hb, hfound⟩ := h
        exact ⟨b, List.mem_cons_of_mem _ hb, hfound⟩

omit hE in
theorem pureOp_ends (hop : op.opcode.isAlwaysPure = true) (hne : op.opcode ≠ .sameAs) :
    Ends E (pureOp emit op) o fun _ o' => Rewritten send op o o' := by
  unfold pureOp
  split
  next hr =>
    exact (hemit op o rfl ho).mono fun _ o' h => .passed .refl (.noResult hop (.inl hr)) h
  next r hr =>
    rw [ends_bind, ends_lift]
    refine (constants_yields ho op.args).mono fun cs? o₁ ⟨hm, hcs⟩ => ?_
    split
    next c hc =>
      obtain ⟨cs, rfl, hfold⟩ := Option.bind_eq_some_iff.1 hc
      simp only [ends_bind, ends_lift, yields_tell, yields_valueOf, yields_modifyValues,
        yields_count]
      exact .folded hop hne hr hm hcs hfold
    next hc =>
      unfold reuse
      rw [ends_bind, ends_lift]
      have hr₁ := hm.inRange ho
      refine (representatives_yields hr₁ op.args).mono fun ks? o₂ ⟨hm₂, hks⟩ => ?_
      have hmet := hm.trans hm₂
      have hr₂ := hm₂.inRange hr₁
      cases ks? with
      | none =>
        obtain ⟨a, ha, id, hid, hv⟩ := hks
        exact (hemit op o₂ hmet.chain hr₂).mono fun _ o' h =>
          .passed hmet (.virtual hop ha hid hv) h
      | some ks =>
        simp only [ends_bind, ends_get]
        split
        next id hid =>
          simp only [ends_lift, ends_bind, yields_tell, yields_modifyValues, yields_count]
          exact .reused hop hne hr hmet hks hid
        next hnone =>
          simp only [ends_lift, ends_bind, yields_valueOf, ends_modify]
          refine (hemit op {o₂.met (.box r) with known := _} hmet.chain (hr₂.valueOf _)).mono
            fun _ o' h => .computed hop hne hr hmet hks hnone (fun cs h₂ => ?_) h
          cases cs? with
          | none =>
            obtain ⟨a, ha, id, hid, hc'⟩ := hcs
            obtain ⟨c, _, id', hid', hc⟩ := exists_right_of_mem h₂ ha
            rw [hm₂.index_of_some hid] at hid'
            cases hid'
            rw [hm₂.slot_of_lt (hr₁ a id hid), hc'] at hc
            cases hc
          | some cs₁ =>
            have hcs₂ := hcs.imp fun a c => hm₂.constantIs hr₁
            rw [List.right_unique_forall₂' (constantIs_unique _) h₂ hcs₂]
            exact hc

theorem step_ends_of_refuted :
    Ends E (step emit op) o fun _ o' => Rewritten send op o o' := by
  unfold step
  split
  next h => exact guardTruth_ends hemit hE ho (.inl h)
  next h => exact guardTruth_ends hemit hE ho (.inr h)
  next h => exact guardValue_ends hemit hE ho h
  next h => exact guardNull_ends hemit hE ho (.inl h)
  next h => exact guardNull_ends hemit hE ho (.inr h)
  next h => exact guardClass_ends hemit hE ho h
  next h => exact guardNoException_ends hemit ho h
  next h => exact sameAs_ends hemit ho h
  next h => exact call_ends hemit ho h
  next hTrue hFalse hValue hNonnull hIsnull hClass hNoException hSame hCall =>
    split
    next hp => exact pureOp_ends hemit ho hp hSame
    next hp =>
      refine (hemit op o rfl ho).mono fun _ o' h => .passed .refl (.ordinary ?_ hCall ?_) h
      · rw [Operation.isGuard]
        unfold Opcode.isGuard
        split <;> simp_all
      · simpa using hp

end Steps

/-- Rewriting goes one of these ways, or a guard can never pass. -/
theorem step_ends {emit : Operation → Optimize Unit} {E : OptError → Prop}
    {send : Operation → Optimizer → Optimizer → Prop} {op : Operation} {o : Optimizer}
    (hemit : ∀ op o', o'.chain = o.chain → o'.values.InRange →
      Ends E (emit op) o' fun _ o'' => send op o' o'')
    (hE : ∀ e : OptError, e.cause.isGuardFailure = true → E e) (ho : o.values.InRange) :
    Ends E (step emit op) o fun _ o' => Rewritten send op o o' :=
  step_ends_of_refuted hemit (fun _ _ _ _ h => hE _ h.isGuardFailure) ho

end Rewrite

/-! ### Allocation removal -/

namespace Virtualize
open Optimizer

/-- Whether the operation is about an object. -/
def concerns (op : Operation) : Bool :=
  match op.opcode with
  | .new | .setfieldGc | .getfieldGc | .getfieldGcPure => true
  | _ => false

/-- Why an operation is handed on: it is about no object, or about one that is no
virtual object, or it reads a field as another kind than it was written. -/
inductive Untouched (op : Operation) (v : Values) : Prop
  | ordinary : concerns op = false → Untouched op v
  | shapeless : op.args = [] ∨ op.result = none ∧ op.opcode ≠ .setfieldGc ∨
      op.descrName? = none ∨ op.opcode = .setfieldGc ∧ op.args.length < 2 → Untouched op v
  | real {object : Operand} {rest : List Operand} {id : ValueId} : op.args = object :: rest →
      v.index.get? object = some id → (v.slot id).isVirtual = false → Untouched op v
  | otherKind {object : Operand} {rest : List Operand} {r : Box} {name : String}
      {id value : ValueId} : op.args = object :: rest → op.result = some r →
      op.descrName? = some name → v.index.get? object = some id →
      v.field? id name = some value → (v.slot value).operand.kind ≠ r.kind → Untouched op v

/-- One operation through allocation removal, from a state to a state. -/
inductive Virtualized (send : Operation → Optimizer → Optimizer → Prop) (op : Operation)
    (o : Optimizer) : Optimizer → Prop
  | passed {o₁ o' : Optimizer} : Met op.args o o₁ → Untouched op o₁.values → send op o₁ o' →
      Virtualized send op o o'
  | held {r : Box} : op.opcode = .new → op.result = some r →
      Virtualized send op o
        {o with
          values := (o.values.makeVirtual op).2
          stats := {o.stats with virtualsCreated := o.stats.virtualsCreated + 1}
          events := o.events.push (.madeVirtual (o.idOf (.box r)))}
  | written {object value : Operand} {rest : List Operand} {name : String} :
      op.opcode = .setfieldGc → op.args = object :: value :: rest →
      op.descrName? = some name → (o.slotOf object).isVirtual = true →
      Virtualized send op o
        {(o.met object).met value with
          values := ((o.met object).met value).values.setField (o.idOf object) name
            ((o.met object).idOf value)}
  | read {object : Operand} {rest : List Operand} {r : Box} {name : String} {value : ValueId} :
      op.opcode = .getfieldGc ∨ op.opcode = .getfieldGcPure → op.args = object :: rest →
      op.result = some r → op.descrName? = some name → (o.slotOf object).isVirtual = true →
      (o.met object).values.field? (o.idOf object) name = some value →
      ((o.met object).values.slot value).operand.kind = r.kind →
      Virtualized send op o {o.met object with values := (o.met object).values.forward r value}
  | readZero {object : Operand} {rest : List Operand} {r : Box} {name : String} :
      op.opcode = .getfieldGc ∨ op.opcode = .getfieldGcPure → op.args = object :: rest →
      op.result = some r → op.descrName? = some name → (o.slotOf object).isVirtual = true →
      (o.met object).values.field? (o.idOf object) name = none →
      Virtualized send op o
        {(o.met object).met (.box r) with
          values := ((o.met object).met (.box r)).values.makeConstant
            ((o.met object).idOf (.box r)) (.zero r.kind)}

/-! ### What allocation removal ends with -/

section Steps
variable {emit : Operation → Optimize Unit} {E : OptError → Prop}
  {send : Operation → Optimizer → Optimizer → Prop} {op : Operation} {o : Optimizer}
  (hemit : ∀ op o', o'.chain = o.chain → o'.values.InRange →
    Ends E (emit op) o' fun _ o'' => send op o' o'')
  (ho : o.values.InRange)
include hemit ho

theorem allocation_ends (hop : op.opcode = .new) :
    Ends E (allocation emit op) o fun _ o' => Virtualized send op o o' := by
  unfold allocation
  split
  next hr =>
    exact (hemit op o rfl ho).mono fun _ o' h =>
      .passed .refl (.shapeless (.inr (.inl ⟨hr, by simp [hop]⟩))) h
  next r hr =>
    rw [ends_bind, ends_modifyGet]
    have hid : (o.values.makeVirtual op).1 = some (o.idOf (.box r)) := by
      simp [Values.makeVirtual, hr, idOf]
    simp only [hid, ends_bind, ends_lift, yields_tell, yields_count]
    exact .held hop hr

theorem fieldWrite_ends (hop : op.opcode = .setfieldGc) :
    Ends E (fieldWrite emit op) o fun _ o' => Virtualized send op o o' := by
  unfold fieldWrite
  split
  next object value rest name ha hname =>
    simp only [ends_bind, ends_lift, yields_valueOf, yields_slot]
    split
    next hv =>
      simp only [ends_bind, ends_lift, yields_valueOf, yields_modifyValues]
      exact .written hop ha hname hv
    next hv =>
      have hmet : Met op.args o (o.met object) := .one (by simp [ha])
      exact (hemit op (o.met object) rfl (ho.valueOf object)).mono fun _ o' h =>
        .passed hmet (.real ha (o.index_met object) (Bool.eq_false_iff.2 hv)) h
  next hno =>
    refine (hemit op o rfl ho).mono fun _ o' h => .passed .refl (.shapeless ?_) h
    cases hname : op.descrName? with
    | none => simp
    | some name =>
      match ha : op.args with
      | [] | [_] => simp [hop]
      | object :: value :: rest => exact absurd hname (hno object value rest name ha)

theorem fieldRead_ends (hop : op.opcode = .getfieldGc ∨ op.opcode = .getfieldGcPure) :
    Ends E (fieldRead emit op) o fun _ o' => Virtualized send op o o' := by
  have hne : op.opcode ≠ .setfieldGc := by rcases hop with h | h <;> simp [h]
  unfold fieldRead
  split
  next object rest r name ha hr hname =>
    simp only [ends_bind, ends_lift, yields_valueOf, yields_slot]
    have hindex := o.index_met object
    have hmet : Met op.args o (o.met object) := .one (by simp [ha])
    have hsend := hemit op (o.met object) rfl (ho.valueOf object)
    split
    next hv =>
      rw [ends_bind, ends_get]
      split
      next value hvalue =>
        simp only [ends_bind, ends_lift, yields_slot]
        split
        next hk => exact .read hop ha hr hname hv hvalue hk
        next hk =>
          exact hsend.mono fun _ o' h =>
            .passed hmet (.otherKind ha hr hname hindex hvalue hk) h
      next hnone =>
        simp only [ends_bind, ends_lift, yields_valueOf, yields_modifyValues]
        exact .readZero hop ha hr hname hv hnone
    next hv =>
      exact hsend.mono fun _ o' h => .passed hmet (.real ha hindex (Bool.eq_false_iff.2 hv)) h
  next hno =>
    refine (hemit op o rfl ho).mono fun _ o' h => .passed .refl (.shapeless ?_) h
    cases hname : op.descrName? with
    | none => simp
    | some name =>
      cases hr : op.result with
      | none => simp [hne]
      | some r =>
        cases ha : op.args with
        | nil => simp
        | cons object rest => exact absurd hname (hno object rest r name ha hr)

theorem step_ends : Ends E (step emit op) o fun _ o' => Virtualized send op o o' := by
  unfold step
  split
  next h => exact allocation_ends hemit ho h
  next h => exact fieldWrite_ends hemit ho h
  next h => exact fieldRead_ends hemit ho (.inl h)
  next h => exact fieldRead_ends hemit ho (.inr h)
  next hNew hSet hGet hPure =>
    refine (hemit op o rfl ho).mono fun _ o' h => .passed .refl (.ordinary ?_) h
    unfold concerns
    split <;> simp_all

end Steps
end Virtualize
end TracePeel
