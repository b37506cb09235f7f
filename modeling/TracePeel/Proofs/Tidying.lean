import TracePeel.Proofs.Coherent
import TracePeel.Proofs.History
import TracePeel.Proofs.Positions
import TracePeel.Proofs.Sealing

/-! The passes behind peeling keep the table in order.

Much of what is done in a pass is `Safe`: meeting operands, forcing their values and writing to
the list hand nothing on and keep every table in order. The rest writes down what an operation
says, and what it says is right only if the operation may come next. `Due` is what is asked of
an operation that is handed on, `serving` the contract with the passes in front of it, and each
pass keeps its own contract if the passes behind it keep theirs (`serves_behind`).

What is learned from a guard is written behind the guard, when the passes behind rewriting have
dealt with it. No constant is overwritten there, because a guard only forces values: its
operands are emitted as they were (`Handled.steady`). -/
namespace TracePeel

/-- The slots that are there are emitted as they were. -/
structure Values.Steady (v v' : Values) : Prop where
  size : v.slots.size ≤ v'.slots.size
  operand : ∀ id, id < v.slots.size → (v'.slot id).operand = (v.slot id).operand

theorem Values.Steady.trans {v v₁ v₂ : Values} (h₁ : v.Steady v₁) (h₂ : v₁.Steady v₂) :
    v.Steady v₂ := by
  refine ⟨Nat.le_trans h₁.size h₂.size, fun id hid => ?_⟩
  exact (h₂.operand id (Nat.lt_of_lt_of_le hid h₁.size)).trans (h₁.operand id hid)

/-- A value that may be null or not is not known to be a constant. -/
theorem Slot.constant?_eq_none_of_open {s : Slot} (hn : s.isNonNull = false)
    (hz : s.isNull = false) : s.constant? = none := by
  cases hc : s.constant? with
  | none => rfl
  | some c =>
    have hlevel : s.level = .constant := by
      by_contra hne
      simp [Slot.constant?, Slot.isConstant, hne] at hc
    simp only [Slot.isNonNull, hlevel, hc, Option.any_some] at hn
    simp only [Slot.isNull, hc, Option.any_some, hn] at hz
    cases hz

namespace Optimizer

/-! ### Steps -/

section
variable {α β : Type} {o o' : Optimizer}

theorem upholds_congr (hvalues : o'.values = o.values) (hknown : o'.known = o.known) :
    Upholds o o' := by
  intro h
  refine ⟨h.congr hvalues hknown, ?_⟩
  rw [hvalues]
  exact .refl _

theorem upholds_settles (hv : o.values.Settles o'.values) (hknown : o'.known = o.known) :
    Upholds o o' :=
  fun h => ⟨h.settles hv hknown, hv.toBecomes.lasts⟩

theorem upholds_met (o : Optimizer) (a : Operand) : Upholds o (o.met a) :=
  fun h => ⟨h.met a, (h.values.valueOf a).toBecomes.lasts⟩

/-- Nothing is handed on. -/
def Contract.nothing : Contract where
  asks _ _ := False
  grants _ _ _ := False

theorem assures_of_nothing {R : Optimizer → Optimizer → Prop} {C : Contract}
    {Q : α → Optimizer → Prop} {s : Script α} (h : s.Assures R .nothing Q o) :
    s.Assures R C Q o := by
  induction s generalizing o with
  | done a => exact h
  | own after next ih => exact ⟨h.1, ih o h.2⟩
  | fail e => trivial
  | hand op next ih => exact h.1.elim

/-- The script hands nothing on and keeps every table in order. -/
def Script.Safe (s : Script α) : Prop :=
  ∀ o : Optimizer, o.Tidy → s.Assures Upholds .nothing (fun _ o' => o'.Tidy) o

/-- The state stays in order, and what is known of the code holds. -/
theorem Script.Safe.ends {s : Script α} (hs : s.Safe)
    {m : (Operation → Optimize Unit) → Optimize α} (hm : Enacts m s) (ho : o.Tidy) {C : Contract}
    (emit : Operation → Optimize Unit) {E : OptError → Prop} {Q : α → Optimizer → Prop}
    (h : Ends E (m emit) o Q) : s.Assures Upholds C (fun a o' => o'.Tidy ∧ Q a o') o := by
  apply assures_of_nothing
  rw [hm.run] at h
  apply (hs o ho).and_ends _ h
  intro _ _ _ hgrants
  exact hgrants.elim

theorem Script.Safe.yields {s : Script α} (hs : s.Safe) {m : Step α} (hm : Spells m s)
    (ho : o.Tidy) {C : Contract} {Q : α → Optimizer → Prop} (h : Yields m o Q) :
    s.Assures Upholds C (fun a o' => o'.Tidy ∧ Q a o') o :=
  hs.ends (E := fun _ => False) hm ho (fun _ => pure ()) h

theorem safe_pure (a : α) : (pure a : Script α).Safe :=
  fun _ h => h

theorem safe_refuse (cause : OptCause) : (Script.refuse cause : Script α).Safe :=
  fun _ _ => trivial

theorem safe_get : (get : Script Optimizer).Safe :=
  fun o h => ⟨refl_of Upholds o, h⟩

theorem Script.Safe.bind {s : Script α} {f : α → Script β} (hs : s.Safe) (hf : ∀ a, (f a).Safe) :
    (s >>= f).Safe := by
  intro o h
  rw [assures_bind]
  exact (hs o h).mono fun a o' h' => hf a o' h'

theorem Script.Safe.ite {c : Prop} [Decidable c] {s t : Script α} (hs : s.Safe) (ht : t.Safe) :
    (if c then s else t).Safe :=
  fun o h => assures_ite (fun _ => hs o h) fun _ => ht o h

theorem Script.Safe.mapM {f : α → Script β} {l : List α} (hf : ∀ a, (f a).Safe) :
    (l.mapM f).Safe :=
  fun _ h => assures_mapM (fun a _ o ho => hf a o ho) h

theorem Script.Safe.forM {f : α → Script PUnit} {l : List α} (hf : ∀ a, (f a).Safe) :
    (l.forM f).Safe :=
  fun _ h => assures_forM (fun a _ o ho => hf a o ho) h

theorem safe_lift {m : Step α} (hv : ∀ o : Optimizer, o.Tidy → o.values.Settles (m.run o).2.values)
    (hknown : ∀ o, (m.run o).2.known = o.known) : (liftM m : Script α).Safe :=
  fun o h => ⟨upholds_settles (hv o h) (hknown o), h.settles (hv o h) (hknown o)⟩

/-- A step that leaves the table and what was computed as they are. -/
theorem safe_still {m : Step α} (hvalues : ∀ o, (m.run o).2.values = o.values)
    (hknown : ∀ o, (m.run o).2.known = o.known) : (liftM m : Script α).Safe := by
  refine safe_lift (fun o h => ?_) hknown
  rw [hvalues]
  exact h.values.settles

theorem safe_modify {f : Optimizer → Optimizer} (hvalues : ∀ o, (f o).values = o.values)
    (hknown : ∀ o, (f o).known = o.known) : (modify f : Script PUnit).Safe :=
  safe_still (m := modify f) hvalues hknown

theorem safe_tell (e : Event) : (liftM (tell e) : Script Unit).Safe :=
  safe_still (fun _ => rfl) fun _ => rfl

theorem safe_count (f : Stats → Stats) : (liftM (count f) : Script Unit).Safe :=
  safe_still (fun _ => rfl) fun _ => rfl

theorem safe_slot (id : ValueId) : (liftM (slot id) : Script Slot).Safe :=
  safe_still (fun _ => rfl) fun _ => rfl

theorem safe_valueOf (a : Operand) : (liftM (valueOf a) : Script ValueId).Safe :=
  safe_lift (fun _ h => h.values.valueOf a) fun _ => rfl

theorem safe_constant? (a : Operand) : (liftM (constant? a) : Script (Option Const)).Safe :=
  safe_lift (fun _ h => h.values.valueOf a) fun _ => rfl

theorem safe_force (id : ValueId) : (liftM (force id) : Script Operand).Safe :=
  safe_lift (fun o h => h.values.forced (o.values.force_performs id o.out).forced) fun _ => rfl

end

/-! ### Writing to the list -/

theorem forwardBox_safe (b : Box) : (forwardBoxScript b).Safe := by
  refine .bind safe_get fun o => ?_
  cases o.values.lookup b with
  | some id => exact safe_force id
  | none => exact safe_pure _

theorem forwardArg_safe (a : Operand) : (forwardArgScript a).Safe := by
  cases a with
  | box b => exact forwardBox_safe b
  | const c => exact safe_pure _

theorem relink_safe (s : Snapshot) (supply : Relinker.Supply) :
    (Relinker.relink forwardBoxScript s supply).Safe := by
  induction s generalizing supply with
  | nil => exact safe_pure _
  | cons frame rest ih =>
    unfold Relinker.relink
    cases supply.relinker.memo.get? frame.id with
    | some chain => exact safe_pure _
    | none =>
      have hentry : ∀ a, (Relinker.mapEntry forwardBoxScript a).Safe := forwardArg_safe
      exact .bind (ih supply) fun _ => .bind (.mapM hentry) fun _ => safe_pure _

theorem forwardDescr_safe (descr : Option Descr) : (forwardDescrScript descr).Safe := by
  cases descr with
  | none => exact safe_pure none
  | some d =>
    cases d with
    | guard number snapshot =>
      refine .bind ?_ fun _ => safe_pure _
      exact .bind safe_get fun o => .bind (relink_safe _ _) fun _ =>
        .bind (safe_modify (fun _ => rfl) fun _ => rfl) fun _ => safe_pure _
    | loop | field | size => exact safe_pure _

theorem emit_safe (op : Operation) : (emitScript op).Safe := by
  have hfailArgs : Script.Safe (op.failArgs.mapM (·.mapM forwardArgScript)) := by
    cases op.failArgs with
    | none => exact safe_pure none
    | some args => exact .bind (.mapM forwardArg_safe) fun args => safe_pure (some args)
  exact .bind (.mapM forwardArg_safe) fun _ => .bind hfailArgs fun _ =>
    .bind (forwardDescr_safe op.descr) fun _ => .bind (safe_tell _) fun _ =>
      safe_modify (fun _ => rfl) fun _ => rfl

/-! ### What is asked of an operation -/

/-- The operation comes next in a state that is in order, with some passes in front of it. What
it produces was not met before, except where it was found just now that it has to be
computed. -/
structure Due (ps : List Pass) (op : Operation) (o : Optimizer) : Prop where
  tidy : o.Tidy
  places : InPlace ps o.chain
  fits : ∃ defined, op.Fits defined
  produces : ∀ r, op.result = some r → o.values.index.get? (.box r) = none ∨
    op.opcode.isAlwaysPure = true ∧ ∀ a ∈ op.args, ∃ k, o.values.EmittedAs a k

namespace Due
variable {ps : List Pass} {op : Operation} {o o₁ : Optimizer}

theorem congr (h : Due ps op o) (o₁ : Optimizer) (hvalues : o₁.values = o.values)
    (hknown : o₁.known = o.known) {ps' : List Pass} (hplaces : InPlace ps' o₁.chain) :
    Due ps' op o₁ := by
  refine ⟨h.tidy.congr hvalues hknown, hplaces, h.fits, ?_⟩
  rw [hvalues]
  exact h.produces

/-- No operation reads what it produces. -/
theorem apart (h : Due ps op o) {r : Box} (hr : op.result = some r) : .box r ∉ op.args := by
  obtain ⟨defined, hfits⟩ := h.fits
  intro hmem
  exact (hfits.produced r hr).2.2 (hfits.reads r (by simp [Operation.usedArgs, hmem]))

theorem of_met (h : Due ps op o) (hmet : Met op.args o o₁) : Due ps op o₁ := by
  refine ⟨h.tidy.of_met hmet, hmet.chain ▸ h.places, h.fits, fun r hr => ?_⟩
  rcases h.produces r hr with hnone | ⟨hpure, hargs⟩
  · exact .inl (unmet_of_met (h.apart hr) hmet hnone)
  · refine .inr ⟨hpure, fun a ha => ?_⟩
    exact (hargs a ha).imp fun k hk => hmet.emittedAs h.tidy.values.inRange hk

/-- What reads from an object held back, or writes to one, produces what was not met. -/
theorem unmet_of_virtual (h : Due ps op o) {object : Operand} (hobject : object ∈ op.args)
    (hv : (o.slotOf object).isVirtual = true) : Unmet op o := by
  intro r hr
  refine (h.produces r hr).resolve_right fun ⟨_, hargs⟩ => ?_
  obtain ⟨k, hk⟩ := hargs object hobject
  rw [slotOf_isVirtual hk] at hv
  cases hv

end Due

/-- What is sent to some passes comes next, and was not met yet where rewriting is one of them. -/
def serving (ps : List Pass) : Contract where
  asks op o := Due ps op o ∧ (.rewrite ∈ ps → Unmet op o)
  grants op o o' := o'.Tidy ∧ Handled ps op o o'

section
variable {ps : List Pass} {op : Operation} {o : Optimizer}

/-- What fits behind the list and produces what was not met is asked for. -/
theorem serving_asks (ho : o.Tidy) {front : List (Option Pass)} {defined : List Box}
    (hchain : o.chain.toList.map (·.pass) = front ++ ps.map some) (hfits : op.Fits defined)
    (hunmet : Unmet op o) : (serving ps).asks op o :=
  ⟨⟨ho, inPlace_of_append hchain, ⟨defined, hfits⟩, fun r hr => .inl (hunmet r hr)⟩,
    fun _ => hunmet⟩

theorem Due.handed (h : Due ps op o) (hmissing : .rewrite ∉ ps) :
    (Script.handOn op).Assures Upholds (serving ps) (fun _ o' => o'.Tidy ∧ Handled ps op o o') o :=
  ⟨⟨h, fun hmem => absurd hmem hmissing⟩, fun _ hgranted => hgranted⟩

/-- Behind rewriting, a guard changes no value. -/
theorem Handled.steady {o' : Optimizer} (hmissing : .rewrite ∉ ps) (h : Handled ps op o o')
    (ho : o.Intact) (hguard : op.opcode.isGuard = true) : o.values.Steady o'.values := by
  induction ps generalizing op o o' with
  | nil =>
    obtain ⟨chain, cursor, _, rfl, rfl⟩ := h
    obtain ⟨o₁, events, hforces, he⟩ :=
      emit_forces (o := {o with chain, cursor}) ⟨ho.values, ho.known⟩ op
    rw [he]
    exact ⟨Nat.le_of_eq hforces.values.size.symm, fun id _ => hforces.values.operand id⟩
  | cons p ps ih =>
    obtain ⟨chain, cursor, o₂, hs, rfl⟩ := h
    cases p with
    | peel => exact hs.elim
    | rewrite => exact absurd (List.mem_cons_self ..) hmissing
    | virtualize =>
      have ho' : Optimizer.Intact {o with chain, cursor} := ⟨ho.values, ho.known⟩
      cases hs with
      | passed hmet _ hs =>
        have hsteady := ih (fun hmem => hmissing (.tail _ hmem)) hs (ho'.of_met hmet) hguard
        have hfirst : o.values.Steady _ := ⟨hmet.size_le, fun id hid => by rw [hmet.slot_of_lt hid]⟩
        exact hfirst.trans hsteady
      | held hop | written hop =>
        rw [hop] at hguard
        cases hguard
      | read hop | readZero hop =>
        rcases hop with hop | hop <;>
        · rw [hop] at hguard
          cases hguard

/-- A value that was no constant when it was met may become one behind the guard that looked at
it. -/
theorem Tidy.learn {o' : Optimizer} (h : o.Tidy) {arg : Operand}
    (hnone : (o.slotOf arg).constant? = none) (h' : o'.Tidy)
    (hsteady : (o.met arg).values.Steady o'.values) {c : Const} (hkind : c.kind = arg.kind) :
    o'.values.Settles (o'.values.makeConstant (o.idOf arg) c) := by
  have hid := h.idOf_lt arg
  have hslot : (o.slotOf arg).Tidy _ := (h.met arg).values.slots _ hid
  have hsame : (o'.values.slot (o.idOf arg)).operand = (o.slotOf arg).operand :=
    hsteady.operand _ hid
  apply h'.values.makeConstant
  · rw [Ne, (h'.values.slots _ (Nat.lt_of_lt_of_le hid hsteady.size)).constant, hsame,
      ← hslot.constant]
    exact hslot.constant?_eq_none.1 hnone
  · rw [hsame, h.kind_slotOf, hkind]

/-- What is computed is a constant of the kind of its result. -/
theorem Tidy.compute (h : o.Tidy) {r : Box} (hnone : o.values.index.get? (.box r) = none)
    {c : Const} (hkind : c.kind = r.kind) :
    (o.met (.box r)).values.Settles
      ((o.met (.box r)).values.makeConstant (o.idOf (.box r)) c) := by
  apply (h.met _).values.makeConstant
  · have hslot : (o.met (.box r)).values.slot (o.idOf (.box r)) = Values.fresh (.box r) := by
      unfold Optimizer.met idOf
      rw [Values.valueOf_new hnone]
      exact Values.slot_push_self ..
    rw [hslot]
    exact nofun
  · exact hkind.trans (h.kind_slotOf (.box r)).symm

/-! ### Looking and meeting -/

section
variable {α β : Type} {C : Contract} {Q : β → Optimizer → Prop}

/-- A step that is known to end somewhere ends there. -/
theorem assures_step {m : Step α} {a : α} {o' : Optimizer} {f : α → Script β}
    (hrun : m.run o = (a, o')) (hupholds : Upholds o o') :
    (liftM m >>= f).Assures Upholds C Q o ↔ (f a).Assures Upholds C Q o' := by
  rw [assures_bind, assures_lift, hrun]
  exact and_iff_right hupholds

theorem assures_meet {a : Operand} {f : ValueId → Script β} :
    (liftM (valueOf a) >>= f).Assures Upholds C Q o ↔
      (f (o.idOf a)).Assures Upholds C Q (o.met a) :=
  assures_step rfl (upholds_met o a)

theorem assures_look {id : ValueId} {f : Slot → Script β} :
    (liftM (slot id) >>= f).Assures Upholds C Q o ↔
      (f (o.values.slot id)).Assures Upholds C Q o :=
  assures_step rfl (refl_of Upholds o)

theorem assures_see {f : Optimizer → Script β} :
    (get >>= f : Script β).Assures Upholds C Q o ↔ (f o).Assures Upholds C Q o :=
  assures_step (m := get) rfl (refl_of Upholds o)

theorem assures_told {e : Event} {f : Unit → Script β} :
    (liftM (tell e) >>= f).Assures Upholds C Q o ↔
      (f ()).Assures Upholds C Q {o with events := o.events.push e} :=
  assures_step rfl (upholds_congr rfl rfl)

/-- The table is changed as it may be. -/
theorem assures_write {f : Values → Values} (hv : o.values.Settles (f o.values)) :
    (liftM (modifyValues f) : Script Unit).Assures Upholds C (fun _ _ => True) o :=
  ⟨upholds_settles hv rfl, trivial⟩

end
end
end Optimizer

/-! ### Rewriting -/

namespace Rewrite
open Optimizer
variable {ps : List Pass} {op : Operation} {o : Optimizer}

theorem constants_safe (as : List Operand) : (constantsScript as).Safe := by
  induction as with
  | nil => exact safe_pure _
  | cons a as ih =>
    refine .bind (safe_constant? a) fun c? => ?_
    cases c? with
    | none => exact safe_pure _
    | some c => exact .bind ih fun cs => safe_pure _

theorem representatives_safe (as : List Operand) : (representativesScript as).Safe := by
  induction as with
  | nil => exact safe_pure _
  | cons a as ih =>
    exact .bind (safe_valueOf a) fun _ => .bind (safe_slot _) fun _ =>
      .ite (safe_pure _) (.bind ih fun _ => safe_pure _)

section
variable (hmissing : Pass.rewrite ∉ ps) (h : Due ps op o)
include hmissing h

/-- The operation is handed on, and nothing is made of it. -/
theorem handOn_assures :
    (Script.handOn op).Assures Upholds (serving ps) (fun _ _ => True) o :=
  (h.handed hmissing).mono fun _ _ _ => trivial

/-- Behind a guard, the table is changed as it may be where the guard changed no value. -/
theorem guard_assures (hguard : op.opcode.isGuard = true) {s : Script Unit}
    (hs : ∀ o' : Optimizer, o'.Tidy → o.values.Steady o'.values →
      s.Assures Upholds (serving ps) (fun _ _ => True) o') :
    (Script.handOn op >>= fun _ => s).Assures Upholds (serving ps) (fun _ _ => True) o := by
  rw [assures_bind]
  apply (h.handed hmissing).mono
  intro _ o' hgranted
  exact hs o' hgranted.1 (hgranted.2.steady hmissing h.tidy.intact hguard)

theorem guardTruth_assures (hop : op.opcode = .guardTrue ∨ op.opcode = .guardFalse) :
    (guardTruthScript op).Assures Upholds (serving ps) (fun _ _ => True) o := by
  have hguard : op.opcode.isGuard = true := by rcases hop with hop | hop <;> rw [hop] <;> rfl
  unfold guardTruthScript
  split
  next => exact handOn_assures hmissing h
  next arg rest hargs =>
    rw [assures_meet, assures_look]
    split
    next c hc => exact assures_ite (fun _ => ⟨upholds_congr rfl rfl, trivial⟩) fun _ => trivial
    next hnone =>
      have hdue := h.of_met (.one (a := arg) (by simp [hargs]))
      apply guard_assures hmissing hdue hguard
      intro o' ho' hsteady
      refine assures_ite (fun hint => ?_) fun _ => trivial
      exact assures_write (h.tidy.learn hnone ho' hsteady hint.symm)

theorem guardValue_assures (hop : op.opcode = .guardValue) :
    (guardValueScript op).Assures Upholds (serving ps) (fun _ _ => True) o := by
  unfold guardValueScript
  split
  next arg wanted rest hargs =>
    rw [assures_meet, assures_look]
    split
    next c hc => exact assures_ite (fun _ => ⟨upholds_congr rfl rfl, trivial⟩) fun _ => trivial
    next hnone =>
      have hdue := h.of_met (.one (a := arg) (by simp [hargs]))
      apply guard_assures hmissing hdue (by rw [hop]; rfl)
      intro o' ho' hsteady
      have hkind : wanted.kind = arg.kind := by
        obtain ⟨defined, hfits⟩ := h.fits
        have hlen := hfits.arity 2 (by rw [hop]; rfl)
        rw [hargs] at hlen
        obtain rfl : rest = [] := List.length_eq_zero_iff.1 (by simpa using hlen)
        exact ((Verify.kindsAgree_iff.1 hfits.kinds).1 hop _ _ hargs).symm
      exact assures_write (h.tidy.learn hnone ho' hsteady hkind)
  next => exact handOn_assures hmissing h

theorem guardNull_assures (hop : op.opcode = .guardNonnull ∨ op.opcode = .guardIsnull) :
    (guardNullScript op).Assures Upholds (serving ps) (fun _ _ => True) o := by
  have hguard : op.opcode.isGuard = true := by rcases hop with hop | hop <;> rw [hop] <;> rfl
  unfold guardNullScript
  split
  next => exact handOn_assures hmissing h
  next arg rest hargs =>
    rw [assures_meet, assures_look]
    refine assures_ite (fun _ => ⟨upholds_congr rfl rfl, trivial⟩) fun _ => ?_
    refine assures_ite (fun _ => trivial) fun hopen => ?_
    obtain ⟨hn, hz⟩ := Bool.or_eq_false_iff.1 (Bool.eq_false_iff.2 hopen)
    have hnone : (o.slotOf arg).constant? = none := Slot.constant?_eq_none_of_open hn hz
    have hdue := h.of_met (.one (a := arg) (by simp [hargs]))
    apply guard_assures hmissing hdue hguard
    intro o' ho' hsteady
    refine assures_ite (fun _ => ?_) fun _ => ?_
    · exact assures_write
        (ho'.values.makeNonNull (Nat.lt_of_lt_of_le (h.tidy.idOf_lt arg) hsteady.size))
    · exact assures_write (h.tidy.learn hnone ho' hsteady (Const.kind_zero _))

theorem guardClass_assures (hop : op.opcode = .guardClass) :
    (guardClassScript op).Assures Upholds (serving ps) (fun _ _ => True) o := by
  unfold guardClassScript
  split
  next arg wanted rest hargs =>
    rw [assures_meet, assures_look]
    split
    next c hc => exact assures_ite (fun _ => ⟨upholds_congr rfl rfl, trivial⟩) fun _ => trivial
    next =>
      have hdue := h.of_met (.one (a := arg) (by simp [hargs]))
      apply guard_assures hmissing hdue (by rw [hop]; rfl)
      intro o' ho' hsteady
      have hid := Nat.lt_of_lt_of_le (h.tidy.idOf_lt arg) hsteady.size
      have hclass := ho'.values.setClass hid wanted
      have hnonNull := hclass.tidy.makeNonNull (Nat.lt_of_lt_of_le hid hclass.size)
      rw [assures_bind, assures_lift, assures_lift]
      exact ⟨upholds_settles hclass rfl, upholds_settles hnonNull rfl, trivial⟩
  next => exact handOn_assures hmissing h

theorem guardNoException_assures :
    (guardNoExceptionScript op).Assures Upholds (serving ps) (fun _ _ => True) o := by
  unfold guardNoExceptionScript
  rw [assures_see]
  refine assures_ite (fun _ => ?_) fun _ => ⟨upholds_congr rfl rfl, trivial⟩
  rw [assures_bind]
  exact (h.handed hmissing).mono fun _ _ _ => ⟨upholds_congr rfl rfl, trivial⟩

theorem call_assures : (callScript op).Assures Upholds (serving ps) (fun _ _ => True) o := by
  unfold callScript
  rw [assures_bind, assures_modify]
  have hdue := h.congr {o with mayRaise := true} rfl rfl h.places
  exact ⟨upholds_congr rfl rfl, handOn_assures hmissing hdue⟩

/-- What is an alias was not met before, so it does not leave another value. -/
theorem sameAs_assures (hop : op.opcode = .sameAs) (hunmet : Unmet op o) :
    (sameAsScript op).Assures Upholds (serving ps) (fun _ _ => True) o := by
  unfold sameAsScript
  split
  next r a rest hr hargs =>
    rw [assures_meet]
    have hmet : Met op.args o (o.met a) := .one (by simp [hargs])
    have hkind : a.kind = r.kind := by
      obtain ⟨defined, hfits⟩ := h.fits
      have hlen := hfits.arity 1 (by rw [hop]; rfl)
      rw [hargs] at hlen
      obtain rfl : rest = [] := List.length_eq_zero_iff.1 (by simpa using hlen)
      exact (Verify.kindsAgree_iff.1 hfits.kinds).2 hop _ _ hargs hr
    apply assures_write
    apply (h.tidy.met a).values.forward (unmet_of_met (h.apart hr) hmet (hunmet r hr))
      (h.tidy.idOf_lt a)
    exact (h.tidy.kind_slotOf a).trans hkind
  next => exact handOn_assures hmissing h

/-- A computation is known by the kind of its result, and is kept where that was not met. -/
theorem reuse_assures (hpure : op.opcode.isAlwaysPure = true) {r : Box} (hr : op.result = some r)
    (hunmet : Unmet op o) :
    (reuseScript op r).Assures Upholds (serving ps) (fun _ _ => True) o := by
  unfold reuseScript
  rw [assures_bind]
  apply ((representatives_safe op.args).yields (representatives_spells op.args) h.tidy
    (representatives_yields h.tidy.values.inRange op.args)).mono
  intro ks? o₁ hfound
  obtain ⟨ho₁, hmet, hks⟩ := hfound
  have hdue := h.of_met hmet
  have hnone := unmet_of_met (h.apart hr) hmet (hunmet r hr)
  cases ks? with
  | none => exact handOn_assures hmissing hdue
  | some ks =>
    dsimp only
    rw [assures_see]
    split
    next id hid =>
      obtain ⟨hlt, hkind, -⟩ := ho₁.known _ id hid
      have hforward := ho₁.values.forward hnone hlt hkind
      rw [assures_told, assures_bind, assures_lift, assures_lift]
      exact ⟨upholds_settles hforward rfl, upholds_congr rfl rfl, trivial⟩
    next =>
      have hremember := ho₁.remember hnone (show (keyOf op ks r).kind = r.kind from rfl)
      rw [assures_meet, assures_bind, assures_modify]
      refine ⟨fun _ => ⟨hremember, .refl _⟩, handOn_assures hmissing ⟨hremember, ?_, h.fits, ?_⟩⟩
      · exact hdue.places
      · intro _ _
        refine .inr ⟨hpure, fun a ha => ?_⟩
        obtain ⟨k, -, hk⟩ := exists_right_of_mem hks ha
        exact ⟨k, (Met.one (List.mem_singleton_self _)).emittedAs ho₁.values.inRange hk⟩

theorem pureOp_assures (hpure : op.opcode.isAlwaysPure = true) (hunmet : Unmet op o) :
    (pureOpScript op).Assures Upholds (serving ps) (fun _ _ => True) o := by
  unfold pureOpScript
  split
  next => exact handOn_assures hmissing h
  next r hr =>
    rw [assures_bind]
    apply ((constants_safe op.args).yields (constants_spells op.args) h.tidy
      (constants_yields h.tidy.values.inRange op.args)).mono
    intro cs? o₁ hfound
    obtain ⟨ho₁, hmet, -⟩ := hfound
    have hnone := unmet_of_met (h.apart hr) hmet (hunmet r hr)
    split
    next c hc =>
      obtain ⟨cs, -, hfold⟩ := Option.bind_eq_some_iff.1 hc
      have hkind : c.kind = r.kind := by
        obtain ⟨defined, hfits⟩ := h.fits
        exact (hfits.produced r hr).2.1 _ (kind_fold hfold)
      rw [assures_told, assures_meet, assures_bind, assures_lift, assures_lift]
      have hconstant := ho₁.compute hnone hkind
      exact ⟨upholds_settles hconstant rfl, upholds_congr rfl rfl, trivial⟩
    next =>
      apply reuse_assures hmissing (h.of_met hmet) hpure hr
      intro r' hr'
      rw [hr] at hr'
      cases hr'
      exact hnone

theorem step_assures (hunmet : Unmet op o) :
    (stepScript op).Assures Upholds (serving ps) (fun _ _ => True) o := by
  unfold stepScript
  split
  next hop => exact guardTruth_assures hmissing h (.inl hop)
  next hop => exact guardTruth_assures hmissing h (.inr hop)
  next hop => exact guardValue_assures hmissing h hop
  next hop => exact guardNull_assures hmissing h (.inl hop)
  next hop => exact guardNull_assures hmissing h (.inr hop)
  next hop => exact guardClass_assures hmissing h hop
  next => exact guardNoException_assures hmissing h
  next hop => exact sameAs_assures hmissing h hop hunmet
  next => exact call_assures hmissing h
  next =>
    exact assures_ite (fun hpure => pureOp_assures hmissing h hpure hunmet) fun _ =>
      handOn_assures hmissing h

end
end Rewrite

/-! ### Allocation removal -/

namespace Virtualize
open Optimizer
variable {ps : List Pass} {op : Operation} {o : Optimizer}

section
variable (hmissing : Pass.rewrite ∉ ps) (h : Due ps op o)
include hmissing h

theorem allocation_assures (hop : op.opcode = .new) :
    (allocationScript op).Assures Upholds (serving ps) (fun _ _ => True) o := by
  unfold allocationScript
  split
  next => exact Rewrite.handOn_assures hmissing h
  next r hr =>
    have hnone : o.values.index.get? (.box r) = none :=
      (h.produces r hr).resolve_right fun ⟨hpure, _⟩ => by
        rw [hop] at hpure
        cases hpure
    rw [assures_bind, assures_modifyGet]
    refine ⟨upholds_settles (h.tidy.values.makeVirtual hop hr hnone) rfl, ?_⟩
    split
    next => trivial
    next =>
      rw [assures_told, assures_lift]
      exact ⟨upholds_congr rfl rfl, trivial⟩

theorem fieldWrite_assures :
    (fieldWriteScript op).Assures Upholds (serving ps) (fun _ _ => True) o := by
  unfold fieldWriteScript
  split
  next object value rest name hargs hname =>
    rw [assures_meet, assures_look]
    have hdue := h.of_met (.one (a := object) (by simp [hargs]))
    refine assures_ite (fun _ => ?_) fun _ => Rewrite.handOn_assures hmissing hdue
    rw [assures_meet]
    have hobject := Nat.lt_of_lt_of_le (h.tidy.idOf_lt object)
      (Values.size_le_valueOf (o.met object).values value)
    exact assures_write ((hdue.tidy.met value).values.setField hobject name
      (hdue.tidy.idOf_lt value))
  next => exact Rewrite.handOn_assures hmissing h

/-- What reads a field stands for its value, or is zero where the field was not written. -/
theorem fieldRead_assures :
    (fieldReadScript op).Assures Upholds (serving ps) (fun _ _ => True) o := by
  unfold fieldReadScript
  split
  next object rest r name hargs hr hname =>
    rw [assures_meet, assures_look]
    have hobject : object ∈ op.args := by simp [hargs]
    have hdue := h.of_met (.one hobject)
    refine assures_ite (fun hv => ?_) fun _ => Rewrite.handOn_assures hmissing hdue
    have hnone := unmet_of_met (h.apart hr) (.one hobject) (h.unmet_of_virtual hobject hv r hr)
    rw [assures_see]
    split
    next value hvalue =>
      rw [assures_look]
      refine assures_ite (fun hkind => ?_) fun _ => Rewrite.handOn_assures hmissing hdue
      have hlt := hdue.tidy.intact.values.field?_lt hvalue
      exact assures_write (hdue.tidy.values.forward hnone hlt hkind)
    next =>
      rw [assures_meet]
      exact assures_write (hdue.tidy.compute hnone (Const.kind_zero r.kind))
  next => exact Rewrite.handOn_assures hmissing h

theorem step_assures :
    (stepScript op).Assures Upholds (serving ps) (fun _ _ => True) o := by
  unfold stepScript
  split
  next hop => exact allocation_assures hmissing h hop
  next => exact fieldWrite_assures hmissing h
  next => exact fieldRead_assures hmissing h
  next => exact fieldRead_assures hmissing h
  next => exact Rewrite.handOn_assures hmissing h

end
end Virtualize

/-! ### The passes behind peeling -/

namespace Optimizer
variable {ps : List Pass} {op : Operation} {o : Optimizer}

/-- The passes keep their contract. -/
def Serves (ps : List Pass) : Prop :=
  ∀ op o, (serving ps).asks op o →
    (sendWalk ps.length op o).Along Upholds o fun _ o' => (serving ps).grants op o o'

/-- A walk that leads on from a state that is in order keeps it so. -/
theorem Walk.Along.tidy {α : Type} {w : Walk α} {Q : α → Optimizer → Prop}
    (h : w.Along Upholds o Q) (ho : o.Tidy) : w.last.Tidy :=
  (h.to_last o (List.mem_cons_self ..) ho).1

/-- It is enough that each state of the walk follows. -/
theorem serves_of_along (hpeel : .peel ∉ ps) (h : ∀ op o, (serving ps).asks op o →
    (sendWalk ps.length op o).Along Upholds o fun _ _ => True) : Serves ps := by
  intro op o hasks
  have hwalk := h op o hasks
  refine ⟨hwalk.pairwise, hwalk.last, fun _ hend => ⟨hwalk.tidy hasks.1.tidy, ?_⟩⟩
  exact (send_ends (C := fun _ => True) (fun _ _ _ => trivial) hpeel hasks.1.places
    hasks.1.tidy.values.inRange).of_run (send_run hend)

theorem serves_nil : Serves [] := by
  refine serves_of_along (by simp) fun op o hasks => ?_
  refine Script.Assures.along (C := .nothing) (fun _ _ hno => hno.elim) ?_
  exact (emit_safe op o hasks.1.tidy).mono fun _ _ _ => trivial

/-- A pass that runs out of its place and is put back. -/
theorem stageWalk_along {C : Contract} {behind : Operation → Optimizer → Walk Unit}
    (hbehind : ∀ op o, C.asks op o → (behind op o).Along Upholds o fun _ o' => C.grants op o o')
    {pass : Pass} {stage : Nat}
    (h : (passScript pass stage op).Assures Upholds C (fun _ _ => True) (o.running stage)) :
    (stageWalk behind pass stage op o).Along Upholds o fun _ _ => True := by
  have hrun : ((Walk.single (o.running stage)).bind fun _ o' =>
      (passScript pass stage op).walk behind o').Along Upholds o fun _ _ => True := by
    have hupholds : Upholds o (o.running stage) := upholds_congr rfl rfl
    refine (Walk.along_single hupholds).bind fun _ o' ho' => ?_
    rw [ho']
    exact h.along hbehind
  refine hrun.closing (fun r => upholds_congr rfl rfl) (fun r hok => ?_) fun _ _ => trivial
  obtain ⟨outcome, o'⟩ := r
  cases outcome with
  | ok => rfl
  | error e => cases hok

theorem serves_cons {p : Pass} (hpeel : .peel ∉ p :: ps) (hmissing : .rewrite ∉ ps)
    (h : Serves ps) : Serves (p :: ps) := by
  refine serves_of_along hpeel fun op o hasks => ?_
  obtain ⟨hdue, hunmet⟩ := hasks
  have hpass : o.chain[o.chain.size - (ps.length + 1)]?.bind (·.pass) = some p := by
    simpa using hdue.places.pass 0 p rfl
  show (sendWalk (ps.length + 1) op o).Along Upholds o _
  unfold sendWalk
  simp only [hpass]
  have hrunning := hdue.congr (o.running (o.chain.size - (ps.length + 1))) rfl rfl
    hdue.places.tail
  apply stageWalk_along h
  cases p with
  | peel => exact absurd (List.mem_cons_self ..) hpeel
  | rewrite =>
    have hunmet' : Unmet op o := hunmet (List.mem_cons_self ..)
    exact Rewrite.step_assures hmissing hrunning hunmet'
  | virtualize => exact Virtualize.step_assures hmissing hrunning

theorem serves_behind (c : Config) : Serves c.behind := by
  have hvirtualize : Serves [.virtualize] := serves_cons (by decide) (by decide) serves_nil
  unfold Config.behind
  cases c.rewrite <;> cases c.virtualize
  · exact serves_nil
  · exact hvirtualize
  · exact serves_cons (by decide) (by decide) serves_nil
  · exact serves_cons (by decide) (by decide) hvirtualize

end Optimizer
end TracePeel
