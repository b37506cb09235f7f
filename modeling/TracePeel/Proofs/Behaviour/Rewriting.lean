import TracePeel.Proofs.Behaviour.Honesty
import TracePeel.Proofs.Behaviour.Knowing

/-! Rewriting does what was recorded.

An operation that is folded, reused or dropped is one whose outcome is known, so leaving
it out changes nothing, and what an honest guard teaches is true behind it. -/
namespace TracePeel

namespace World
variable {w : World} {V : Env} {s : Course} {op : Operation}

theorem outcome_of_isGuard (h : op.isGuard = true) :
    w.outcome V op s =
      if w.passes op.opcode (op.args.map V.value) s.pending then .ok s else .error (leave V op s) := by
  simp [outcome, h]

theorem passes_of_outcome (h : op.isGuard = true) {s' : Course}
    (hs : w.outcome V op s = .ok s') :
    w.passes op.opcode (op.args.map V.value) s.pending = true ∧ s' = s := by
  rw [outcome_of_isGuard h] at hs
  split at hs
  next hp =>
    cases hs
    exact ⟨hp, rfl⟩
  next => cases hs

theorem outcome_of_isAlwaysPure (h : op.opcode.isAlwaysPure = true) :
    w.outcome V op s = .ok s := by
  have hguard : op.isGuard = false := Opcode.isGuard_eq_false_of_isAlwaysPure h
  have hfinal : op.opcode.isFinal = false := by
    by_contra hno
    simp [Opcode.isAlwaysPure_eq_false_of_isFinal (by simpa using hno)] at h
  simp [outcome, hguard, hfinal, advance, h]

/-- What a pure operation produces is what is computed. -/
theorem Explains.computed (he : w.Explains V [op] s) (h : op.opcode.isAlwaysPure = true) {r : Box}
    (hr : op.result = some r) :
    V r = w.computed op.opcode op.descrName? r.kind (op.args.map V.value) := by
  rw [(he s (outcome_of_isAlwaysPure h)).1 r hr, result, if_pos h]

end World

/-- After a call, what the optimizer takes to be impossible is not pending. -/
def Calm (called : Bool) (o : Optimizer) (s : Course) : Prop :=
  o.mayRaise = false → called = true → s.pending = false

namespace Rewrite
open Optimizer

variable {w : World} {V : Env} {known : Bindings PureKey ValueId} {v : Values} {op : Operation}
  {arg : Operand} {rest : List Operand} {slot : Slot} {id : ValueId}

/-- A guard that is implied passes. -/
theorem Implied.passes (h : Implied op slot) (hargs : op.args = arg :: rest)
    (hs : slot.Holds w V) (hvalue : V.value slot.operand = V.value arg) (pending : Bool) :
    w.passes op.opcode (op.args.map V.value) pending = true := by
  rw [hargs]
  cases h with
  | @truth c hop hc ht =>
    have hv : V.value arg = c := by rw [← hvalue, Values.Hold.constant?_eq hc]; rfl
    rcases hop with hop | hop <;> simp [World.passes, hop, hv, ht]
  | @value a c rest' hop hargs' hc =>
    rw [hargs] at hargs'
    cases hargs'
    have hv : V.value arg = c := by rw [← hvalue, Values.Hold.constant?_eq hc]; rfl
    simp [World.passes, hop, hv]
  | nonNull hop hn =>
    have hv := hs.isTrue hn
    rw [hvalue] at hv
    simp [World.passes, hop, hv]
  | null hop hn =>
    unfold Slot.isNull at hn
    cases hc : slot.constant? with
    | none => simp [hc] at hn
    | some c =>
      have hv : V.value arg = c := by rw [← hvalue, Values.Hold.constant?_eq hc]; rfl
      simp [hc] at hn
      simp [World.passes, hop, hv, hn]
  | @ofClass a c rest' hop hargs' hk =>
    rw [hargs] at hargs'
    cases hargs'
    obtain ⟨ht, hc⟩ := hs.ofClass c hk
    rw [hvalue] at ht hc
    simp [World.passes, hop, ht, hc]

/-- What a guard teaches is true once it has passed. -/
theorem Teaches.hold {f : Values → Values} (h : Teaches op arg slot id f)
    (hv : v.Hold w V known) (hargs : op.args = arg :: rest)
    (hvalue : V.value (v.slot id).operand = V.value arg) (hV : V.Kinds) {called : Bool} {s : Course}
    (hhonest : Honest called V op s)
    (hp : w.passes op.opcode (op.args.map V.value) s.pending = true) : (f v).Hold w V known := by
  rw [hargs] at hp
  cases h with
  | truth hop hc hkind =>
    refine hv.makeConstant (hvalue.trans ?_)
    rcases hop with hop | hop
    · simp only [hop, beq_self_eq_true]
      refine hhonest.truth hop arg rest hargs hkind ?_
      simpa [World.passes, hop] using hp
    · have hk := hV.value arg
      rw [hkind] at hk
      have hzero : (V.value arg).isTrue = false := by simpa [World.passes, hop] using hp
      rw [hop]
      generalize V.value arg = c at hk hzero
      cases c with
      | int value =>
        have : value = 0 := by simpa [Const.isTrue] using hzero
        rw [this]
        rfl
      | ref | float => cases hk
  | nothing => exact hv
  | @value a c rest' hop hargs' =>
    rw [hargs] at hargs'
    cases hargs'
    refine hv.makeConstant (hvalue.trans ?_)
    simpa [World.passes, hop] using hp
  | nonNull hop =>
    refine hv.makeNonNull ?_
    rw [hvalue]
    simpa [World.passes, hop] using hp
  | null hop =>
    refine hv.makeConstant (hvalue.trans ?_)
    exact hhonest.null hop arg rest hargs (by simpa [World.passes, hop] using hp)
  | @ofClass a c rest' hop hargs' =>
    rw [hargs] at hargs'
    cases hargs'
    have hpass : (V.value arg).isTrue = true ∧ w.classOf (V.value arg) = c := by
      simpa [World.passes, hop] using hp
    have hset : (v.setClass id c).Hold w V known :=
      hv.setClass (by rw [hvalue]; exact hpass.1) (by rw [hvalue]; exact hpass.2)
    refine hset.makeNonNull ?_
    have hsame : ((v.setClass id c).slot id).operand = (v.slot id).operand := by
      show ((v.modifySlot id _).slot id).operand = _
      rw [Values.slot_modifySlot]
      split <;> rfl
    rw [hsame, hvalue]
    exact hpass.1

/-! ### One operation -/

variable {T : FrameTable} {o o' : Optimizer} {called : Bool} {s : Course}

/-- What rewriting makes of an operation does the same, and all that is known behind it is
true. -/
structure Faithful (w : World) (V : Env) (T : FrameTable) (called : Bool) (s : Course)
    (op : Operation) (o o' : Optimizer) : Prop where
  mirrors : Mirrors w V T s (w.outcome V op s) o o'
  calm : ∀ s', w.outcome V op s = .ok s' → Calm (called || op.opcode.canRaise) o' s'

theorem mimics_nil (h : w.outcome V op s = .ok s) : Mimics w V s (w.outcome V op s) [] :=
  ⟨h.symm, trivial⟩

/-- An operation is left out that is known to do nothing. -/
theorem mirrors_nil (h : w.outcome V op s = .ok s) (hout : o'.out = o.out) (hk : Knows w V T o') :
    Mirrors w V T s (w.outcome V op s) o o' :=
  ⟨[], by simp [hout], mimics_nil h, fun _ _ => ⟨T, .refl T, hk⟩⟩

/-- Neither a pure operation nor a guard makes a difference to what is pending. -/
theorem calm_of_same (h : Calm called o s) (hraise : o'.mayRaise = o.mayRaise)
    (hop : op.opcode.canRaise = false) : Calm (called || op.opcode.canRaise) o' s := by
  rw [hop, Bool.or_false]
  intro hm
  exact h (hraise ▸ hm)

theorem canRaise_of_isGuard (h : op.isGuard = true) : op.opcode.canRaise = false := by
  unfold Operation.isGuard at h
  revert h
  cases op.opcode <;> simp [Opcode.isGuard, Opcode.canRaise]

theorem canRaise_of_isAlwaysPure (h : op.opcode.isAlwaysPure = true) :
    op.opcode.canRaise = false := by
  revert h
  cases op.opcode <;> simp [Opcode.isAlwaysPure, Opcode.canRaise]

/-- Only a call raises. -/
theorem pending_of_outcome {s' : Course} (hs : w.outcome V op s = .ok s')
    (hop : op.opcode.canRaise = false) : s'.pending = s.pending := by
  unfold World.outcome at hs
  split at hs
  next =>
    split at hs
    next => cases hs; rfl
    next => cases hs
  next =>
    split at hs
    next => cases hs
    next =>
      cases hs
      unfold World.advance
      split
      · rfl
      · simp [hop]

/-- An operation that is written as it comes. -/
theorem faithful_of_emitted {o₁ : Optimizer} (hk : Knows w V T o₁) (hop : op.Plain)
    (hframes : op.snapshot.In T) (hguard : op.isGuard = true → op.result = none)
    (he : w.Explains V [op] s) (hs : Handled [] op o₁ o') (hout : o₁.out = o.out)
    (hcalm : ∀ s', w.outcome V op s = .ok s' → Calm (called || op.opcode.canRaise) o₁ s') :
    Faithful w V T called s op o o' := by
  have hemitted := hk.handled hop hframes hs
  obtain ⟨new, hnew, hmimics, hknows⟩ := hemitted.mirrors hguard he
  refine ⟨⟨new, by rw [hnew, hout], hmimics, hknows⟩, fun s' hs' hm => ?_⟩
  exact hcalm s' hs' (hemitted.mayRaise ▸ hm)

section Step
variable {base start defined : List Box} {T' : FrameTable} {n m : Nat}

theorem map_value_of_constants {as : List Operand} {cs : List Const} (hv : v.Hold w V known)
    (h : List.Forall₂ v.ConstantIs as cs) : as.map V.value = cs := by
  induction h with
  | nil => rfl
  | cons hc _ ih => rw [List.map_cons, hv.constantIs hc, ih]

theorem map_value_of_emitted {as ks : List Operand} (hv : v.Hold w V known)
    (h : List.Forall₂ v.EmittedAs as ks) : ks.map V.value = as.map V.value :=
  map_value_eq (h.imp fun _ _ => hv.emittedAs)

/-- Behind a guard that passes, what is pending is what was. -/
theorem calm_of_guard (h : Calm called o s) (hg : op.isGuard = true)
    (hraise : o'.mayRaise = o.mayRaise) {s' : Course} (hs : w.outcome V op s = .ok s') :
    Calm (called || op.opcode.canRaise) o' s' := by
  rw [(World.passes_of_outcome hg hs).2]
  exact calm_of_same h hraise (canRaise_of_isGuard hg)

/-- A pure operation that is left out. -/
theorem faithful_of_pure (h : Calm called o s) (hpure : op.opcode.isAlwaysPure = true)
    (hout : o'.out = o.out) (hraise : o'.mayRaise = o.mayRaise) (hk : Knows w V T o') :
    Faithful w V T called s op o o' where
  mirrors := mirrors_nil (World.outcome_of_isAlwaysPure hpure) hout hk
  calm s' hs := by
    rw [World.outcome_of_isAlwaysPure hpure] at hs
    cases hs
    exact calm_of_same h hraise (canRaise_of_isAlwaysPure hpure)

/-- A guard that is dropped since it passes. -/
theorem faithful_of_dropped (h : Calm called o s) (hg : op.isGuard = true)
    (hp : w.passes op.opcode (op.args.map V.value) s.pending = true) (hout : o'.out = o.out)
    (hraise : o'.mayRaise = o.mayRaise) (hk : Knows w V T o') :
    Faithful w V T called s op o o' where
  mirrors := mirrors_nil (by rw [World.outcome_of_isGuard hg, if_pos hp]) hout hk
  calm _ hs := calm_of_guard h hg hraise hs

/-- A guard that stays and, once it has passed, teaches. -/
theorem faithful_of_kept {f : Values → Values} {o₁ : Optimizer} (hk : Knows w V T (o.met arg))
    (hop : op.Plain) (hframes : op.snapshot.In T) (hguard : op.isGuard = true → op.result = none)
    (he : w.Explains V [op] s) (hV : V.Kinds) (hcalm : Calm called o s)
    (hhonest : Honest called V op s) (hargs : op.args = arg :: rest)
    (ht : Teaches op arg (o.slotOf arg) (o.idOf arg) f) (hs : Handled [] op (o.met arg) o₁) :
    Faithful w V T called s op o {o₁ with values := f o₁.values} := by
  have hemitted := hk.handled hop hframes hs
  obtain ⟨new, hnew, hmimics⟩ := hemitted.mimics hguard he
  obtain ⟨T', hT, hk'⟩ := hemitted.knows
  refine ⟨⟨new, hnew, hmimics, fun s' hs' => ⟨T', hT, ⟨?_, hk'.sink⟩⟩⟩, fun s' hs' => ?_⟩
  · have hvalue : V.value ((o.met arg).values.slot (o.idOf arg)).operand = V.value arg :=
      hk.table.value arg _ (o.index_met arg)
    have ht' : Teaches op arg (o₁.values.slot (o.idOf arg)) (o.idOf arg) f := by
      rw [hemitted.values]
      exact ht
    exact ht'.hold hk'.table hargs (by rw [hemitted.values]; exact hvalue) hV hhonest
      (World.passes_of_outcome ht.isGuard hs').1
  · exact calm_of_guard hcalm ht.isGuard hemitted.mayRaise hs'

/-- One operation through rewriting. -/
theorem rewritten_faithful (hg : o.values.Grounded o.known) (hk : Knows w V T o)
    (hop : op.Comes T' defined n m) (hframes : op.snapshot.In T) (hV : V.Kinds)
    (he : w.Explains V [op] s) (hcalm : Calm called o s) (hhonest : Honest called V op s)
    (h : Rewritten (Handled []) op o o') : Faithful w V T called s op o o' := by
  have hplain := hop.neat.plain
  have hguard : op.isGuard = true → op.result = none := fun hg =>
    hop.no_result (Opcode.hasResult_eq_false_of_isGuard hg)
  have hmeets : ∀ {o₁ : Optimizer}, Met op.args o o₁ →
      Knows w V T o₁ ∧ o₁.out = o.out ∧ o₁.mayRaise = o.mayRaise := by
    intro o₁ hmet
    have heq := hmet.eq_values
    exact ⟨(hk.of_met hg hmet).1, by rw [heq], by rw [heq]⟩
  cases h with
  | @passed o₁ _ hmet huntouched hs =>
    obtain ⟨hk₁, hout, hraise⟩ := hmeets hmet
    have hquiet : op.opcode.canRaise = false := by
      cases huntouched with
      | ordinary _ hcall _ => simpa [Opcode.canRaise] using hcall
      | shapeless hguard => exact canRaise_of_isGuard hguard
      | noResult hpure | virtual hpure => exact canRaise_of_isAlwaysPure hpure
    refine faithful_of_emitted hk₁ hplain hframes hguard he hs hout fun s' hs' hm => ?_
    rw [hquiet, Bool.or_false, pending_of_outcome hs' hquiet]
    exact hcalm (hraise ▸ hm)
  | @dropped arg rest hargs himplied =>
    have hk₁ : Knows w V T (o.met arg) := hk.met hg arg
    have hvalue : V.value (o.slotOf arg).operand = V.value arg :=
      hk₁.table.value arg _ (o.index_met arg)
    have hp := himplied.passes hargs (hk₁.table.slots _) hvalue s.pending
    exact faithful_of_dropped hcalm himplied.isGuard hp rfl rfl ⟨hk₁.table, hk₁.sink⟩
  | @kept arg rest f o₁ hargs ht hs =>
    exact faithful_of_kept (hk.met hg arg) hplain hframes hguard he hV hcalm hhonest hargs ht hs
  | unraised hno hraise =>
    have hisGuard : op.isGuard = true := by simp [Operation.isGuard, hno, Opcode.isGuard]
    have hpending : s.pending = false := by
      cases hcalled : called with
      | true => exact hcalm hraise hcalled
      | false => exact hhonest.raise hno hcalled
    refine faithful_of_dropped hcalm hisGuard ?_ rfl rfl ⟨hk.table, hk.sink⟩
    simp [World.passes, hno, hpending]
  | @checked o₁ hno _ hs =>
    have hisGuard : op.isGuard = true := by simp [Operation.isGuard, hno, Opcode.isGuard]
    have hemitted := hk.handled hplain hframes hs
    obtain ⟨new, hnew, hmimics⟩ := hemitted.mimics hguard he
    obtain ⟨T₁, hT₁, hk₁⟩ := hemitted.knows
    refine ⟨⟨new, hnew, hmimics, fun _ _ => ⟨T₁, hT₁, hk₁.table, hk₁.sink⟩⟩, fun s' hs' _ _ => ?_⟩
    obtain ⟨hp, rfl⟩ := World.passes_of_outcome hisGuard hs'
    simpa [World.passes, hno] using hp
  | called hcall hs =>
    have hk₁ : Knows w V T {o with mayRaise := true} := ⟨hk.table, hk.sink⟩
    exact faithful_of_emitted hk₁ hplain hframes hguard he hs rfl fun _ _ hm => by cases hm
  | @aliased a rest r hsame hargs hr =>
    have hpure : op.opcode.isAlwaysPure = true := by rw [hsame]; rfl
    have hk₁ : Knows w V T (o.met a) := hk.met hg a
    have hvalue : V.value ((o.met a).values.slot (o.idOf a)).operand = V.value a :=
      hk₁.table.value a _ (o.index_met a)
    have hr' : V r = V.value a := by
      rw [he.computed hpure hr, World.computed, if_pos hsame, hargs]
      rfl
    exact faithful_of_pure hcalm hpure rfl rfl
      ⟨hk₁.table.forward (hr'.trans hvalue.symm), hk₁.sink⟩
  | @folded o₁ cs c r hpure hsame hr hmet hcs hfold =>
    obtain ⟨hk₁, hout, hraise⟩ := hmeets hmet
    have hr' : V r = c := by
      rw [he.computed hpure hr, World.computed, if_neg hsame,
        map_value_of_constants hk₁.table hcs, hfold]
      rfl
    exact faithful_of_pure hcalm hpure hout hraise
      ⟨hk₁.table.adoptConstant (hk.of_met hg hmet).2 hr', hk₁.sink⟩
  | @reused o₁ ks r id hpure hsame hr hmet hks hknown =>
    obtain ⟨hk₁, hout, hraise⟩ := hmeets hmet
    have hr' : V r = V.value (o₁.values.slot id).operand := by
      rw [he.computed hpure hr, hk₁.table.known _ id hknown]
      show _ = w.computed op.opcode op.descrName? r.kind (ks.map V.value)
      rw [map_value_of_emitted hk₁.table hks]
    exact faithful_of_pure hcalm hpure hout hraise ⟨hk₁.table.forward hr', hk₁.sink⟩
  | @computed o₁ _ ks r hpure hsame hr hmet hks _ _ hs =>
    obtain ⟨hk₁, hout, hraise⟩ := hmeets hmet
    have hg₁ := (hk.of_met hg hmet).2
    have hk₂ : Knows w V T (o₁.met (.box r)) := hk₁.met hg₁ (.box r)
    have hvalue : V.value ((o₁.met (.box r)).values.slot (o₁.idOf (.box r))).operand = V r :=
      hk₂.table.value (.box r) _ (o₁.index_met (.box r))
    have hk₃ : Knows w V T
        {o₁.met (.box r) with known := o₁.known.set (keyOf op ks r) (o₁.idOf (.box r))} := by
      refine ⟨hk₂.table.remember (hvalue.trans ?_), hk₂.sink⟩
      show _ = w.computed op.opcode op.descrName? r.kind (ks.map V.value)
      rw [he.computed hpure hr, map_value_of_emitted hk₁.table hks]
    refine faithful_of_emitted hk₃ hplain hframes hguard he hs hout fun s' hs' => ?_
    rw [World.outcome_of_isAlwaysPure hpure] at hs'
    cases hs'
    exact calm_of_same hcalm hraise (canRaise_of_isAlwaysPure hpure)

end Step
end Rewrite
end TracePeel
