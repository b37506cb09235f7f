import TracePeel.Proofs.Forcing
import TracePeel.Proofs.Sending

/-! What every state keeps.

Nothing here asks anything of the operations that are sent. Every slot that is named
exists and only allocations are held back, so forcing writes allocations and field writes
and nothing else. `settled_handled` says what becomes of an operation behind peeling: it
is written, and up to then every box stood for what it stood for when the operation was
sent, or it is not written, and then nothing is. -/
namespace TracePeel

/-- Whether the operation is one of those that make a virtual object an ordinary one. -/
def Operation.isForcing (op : Operation) : Bool :=
  op.opcode == .new || op.opcode == .setfieldGc

/-- What is held back is an allocation, with values in its fields that exist. -/
def Virtual.Intact (n : Nat) (object : Virtual) : Prop :=
  object.allocation.opcode = .new ∧ ∀ name id, (name, id) ∈ object.fields.entries → id < n

theorem Virtual.Intact.mono {n m : Nat} (hnm : n ≤ m) {object : Virtual}
    (h : Virtual.Intact n object) : Virtual.Intact m object :=
  ⟨h.1, fun name id hid => Nat.lt_of_lt_of_le (h.2 name id hid) hnm⟩

namespace Values

/-- Every slot that is named exists, and only allocations are held back. -/
structure Intact (v : Values) : Prop where
  inRange : v.InRange
  held : ∀ id object, (v.slot id).virtual = some object → Virtual.Intact v.slots.size object

namespace Intact
variable {v v' : Values}

theorem valueOf (h : v.Intact) (a : Operand) : (v.valueOf a).2.Intact where
  inRange := h.inRange.valueOf a
  held id object hv := by
    have hlt : id < (v.valueOf a).2.slots.size := by
      by_contra hn
      rw [slot_of_not_lt hn] at hv
      cases hv
    rcases slot_valueOf_cases v a hlt with ⟨_, hs⟩ | ⟨_, _, hs⟩
    · exact (h.held id object (hs ▸ hv)).mono (v.size_le_valueOf a)
    · rw [hs] at hv
      cases hv

theorem modifySlot (h : v.Intact) {id : ValueId} {f : Slot → Slot}
    (hf : ∀ object, (f (v.slot id)).virtual = some object → Virtual.Intact v.slots.size object) :
    (v.modifySlot id f).Intact where
  inRange a j hj := by
    rw [size_modifySlot]
    exact h.inRange a j hj
  held j object hv := by
    rw [size_modifySlot]
    rw [slot_modifySlot] at hv
    split at hv
    next he => exact hf object (he.1 ▸ hv)
    next => exact h.held j object hv

theorem makeConstant (h : v.Intact) (id : ValueId) (c : Const) : (v.makeConstant id c).Intact :=
  h.modifySlot (by rintro _ ⟨⟩)

theorem makeNonNull (h : v.Intact) (id : ValueId) : (v.makeNonNull id).Intact := by
  refine h.modifySlot fun object hv => h.held id object ?_
  split at hv <;> exact hv

theorem setClass (h : v.Intact) (id : ValueId) (c : Const) : (v.setClass id c).Intact :=
  h.modifySlot fun object hv => h.held id object hv

theorem setField (h : v.Intact) {id value : ValueId} (hvalue : value < v.slots.size)
    (name : String) : (v.setField id name value).Intact := by
  refine h.modifySlot fun object hv => ?_
  obtain ⟨old, hold, rfl⟩ := Option.map_eq_some_iff.1 hv
  obtain ⟨hnew, hfields⟩ := h.held id old hold
  refine ⟨hnew, fun name' id' hmem => ?_⟩
  rcases Bindings.mem_put hmem with hmem | he
  · exact hfields name' id' hmem
  · cases he
    exact hvalue

theorem makeVirtual (h : v.Intact) {op : Operation} (hop : op.opcode = .new) :
    (v.makeVirtual op).2.Intact := by
  unfold Values.makeVirtual
  split
  · exact h
  · refine (h.valueOf _).modifySlot fun object hv => ?_
    cases hv
    exact ⟨hop, by rintro _ _ ⟨⟩⟩

theorem forward (h : v.Intact) {id : ValueId} (hid : id < v.slots.size) (b : Box) :
    (v.forward b id).Intact where
  inRange a j hj := by
    have hj' : (v.index.set (.box b) id).get? a = some j := hj
    rw [Bindings.get?_set] at hj'
    split at hj'
    next =>
      cases hj'
      exact hid
    next => exact h.inRange a j hj'
  held := h.held

theorem forced (h : v.Intact) (hf : v.Forced v') : v'.Intact where
  inRange a id hid := by
    rw [hf.size]
    exact h.inRange a id (hf.index ▸ hid)
  held id object hv := by
    rw [hf.size]
    rcases hf.slot id with e | e
    · exact h.held id object (e ▸ hv)
    · rw [e] at hv
      cases hv

/-- A field of a virtual object holds a value that exists. -/
theorem field?_lt (h : v.Intact) {id value : ValueId} {name : String}
    (hv : v.field? id name = some value) : value < v.slots.size := by
  obtain ⟨object, hobject, hget⟩ := Option.bind_eq_some_iff.1 hv
  exact (h.held id object hobject).2 name value (Bindings.mem_of_get? hget)

end Intact

/-- Forcing writes allocations and field writes only. -/
theorem Performs.forcing {t : Task} {s s' : Values × Array Operation} (hp : Performs t s s')
    (h : s.1.Intact) :
    ∃ ops, s'.2.toList = s.2.toList ++ ops ∧ ∀ op ∈ ops, op.isForcing = true := by
  induction hp with
  | real | written => exact ⟨[], by simp, List.forall_mem_nil _⟩
  | @object id v out object s hv _ ih =>
    obtain ⟨ops, hout, hops⟩ := ih (h.forced (.materialize v id))
    refine ⟨object.allocation :: ops, by simpa using hout, fun op hop => ?_⟩
    rcases List.mem_cons.1 hop with rfl | hop
    · simp [Operation.isForcing, (h.held id object hv).1]
    · exact hops op hop
  | @field object name value rest s s' v out hvalue _ ih₁ ih₂ =>
    obtain ⟨ops₁, hout₁, hops₁⟩ := ih₁ h
    obtain ⟨ops₂, hout₂, hops₂⟩ := ih₂ (h.forced hvalue.forced)
    refine ⟨ops₁ ++ .setField object name (v.slot value).operand :: ops₂, ?_, fun op hop => ?_⟩
    · rw [hout₂]
      simp [show out.toList = _ from hout₁]
    · rcases List.mem_append.1 hop with hop | hop
      · exact hops₁ op hop
      rcases List.mem_cons.1 hop with rfl | hop
      · rfl
      · exact hops₂ op hop

end Values

namespace Optimizer

/-- What is emitted for a box: the operand of its slot, or the box if it has none. -/
def standsFor (o : Optimizer) (b : Box) : Operand :=
  match o.values.lookup b with
  | some id => (o.values.slot id).operand
  | none => .box b

/-- Every slot that is named exists, and only allocations are held back. -/
structure Intact (o : Optimizer) : Prop where
  values : o.values.Intact
  known : ∀ key id, o.known.get? key = some id → id < o.values.slots.size

theorem Intact.met {o : Optimizer} (h : o.Intact) (a : Operand) : (o.met a).Intact :=
  ⟨h.values.valueOf a, fun key id hid =>
    Nat.lt_of_lt_of_le (h.known key id hid) (Values.size_le_valueOf ..)⟩

theorem Intact.of_met {as : List Operand} {o o₁ : Optimizer} (h : o.Intact) (hmet : Met as o o₁) :
    o₁.Intact := by
  induction hmet with
  | refl => exact h
  | more _ _ ih => exact ih.met _

theorem Intact.idOf_lt {o : Optimizer} (h : o.Intact) (a : Operand) :
    o.idOf a < (o.met a).values.slots.size :=
  h.values.inRange.valueOf_lt a

/-- A computation is remembered under the slot of its result. -/
theorem Intact.remember {o : Optimizer} (h : o.Intact) (key : PureKey) (r : Box) :
    Intact {o.met (.box r) with known := o.known.set key (o.idOf (.box r))} := by
  refine ⟨(h.met _).values, fun key' id hid => ?_⟩
  rw [Bindings.get?_set] at hid
  split at hid
  next =>
    cases hid
    exact h.idOf_lt _
  next => exact (h.met _).known key' id hid

/-- The table changed to one of as many slots. -/
theorem Intact.setValues {o : Optimizer} (h : o.Intact) {v : Values} (hv : v.Intact)
    (hsize : v.slots.size = o.values.slots.size) : Intact {o with values := v} :=
  ⟨hv, fun key id hid => hsize ▸ h.known key id hid⟩

/-- A box that is met for the first time stands for itself, as it did. -/
theorem standsFor_met {o : Optimizer} (h : o.Intact) (a : Operand) (b : Box) :
    (o.met a).standsFor b = o.standsFor b := by
  unfold standsFor Values.lookup
  cases hb : o.values.index.get? (.box b) with
  | some id =>
    have hmet : (o.met a).values.index.get? (.box b) = some id := Values.index_valueOf_of_some hb
    rw [hmet]
    exact congrArg Slot.operand (Values.slot_valueOf a (h.values.inRange _ id hb))
  | none =>
    by_cases he : a = .box b
    · subst he
      rw [o.index_met (.box b)]
      show (((o.values.valueOf (.box b)).2).slot (o.values.valueOf (.box b)).1).operand = _
      rw [Values.valueOf_new hb, Values.slot_push_self]
      rfl
    · have hmet : (o.met a).values.index.get? (.box b) = none :=
        (Values.index_valueOf_of_ne he).trans hb
      rw [hmet]

theorem standsFor_of_met {as : List Operand} {o o₁ : Optimizer} (h : o.Intact)
    (hmet : Met as o o₁) (b : Box) : o₁.standsFor b = o.standsFor b := by
  induction hmet with
  | refl => rfl
  | more hm _ ih => rw [standsFor_met (h.of_met hm), ih]

/-- The list, the snapshots in it and the numbers that are free are the same. -/
structure SameList (o o' : Optimizer) : Prop where
  out : o'.out = o.out
  sink : o'.sink = o.sink
  pool : o'.pool = o.pool

theorem SameList.refl (o : Optimizer) : SameList o o :=
  ⟨rfl, rfl, rfl⟩

theorem SameList.trans {o o₁ o₂ : Optimizer} (h₁ : SameList o o₁) (h₂ : SameList o₁ o₂) :
    SameList o o₂ :=
  ⟨h₂.out.trans h₁.out, h₂.sink.trans h₁.sink, h₂.pool.trans h₁.pool⟩

theorem Met.sameList {as : List Operand} {o o₁ : Optimizer} (h : Met as o o₁) : SameList o o₁ := by
  rw [h.eq_values]
  exact ⟨rfl, rfl, rfl⟩

theorem Met.widens {as : List Operand} {o o₁ : Optimizer} (h : Met as o o₁) :
    o.values.Widens o₁.values := by
  induction h with
  | refl => exact .refl _
  | more _ _ ih => exact ih.trans (.valueOf _ _)

/-- A state in which an operation is written: nothing was since it was sent, every box stands
for what it stood for, and values were only added. -/
structure Prepared (o o₁ : Optimizer) : Prop where
  list : SameList o o₁
  standsFor : ∀ b, o₁.standsFor b = o.standsFor b
  table : o.values.Widens o₁.values
  intact : o₁.Intact

theorem Prepared.trans {o o₁ o₂ : Optimizer} (h₁ : Prepared o o₁) (h₂ : Prepared o₁ o₂) :
    Prepared o o₂ :=
  ⟨h₁.list.trans h₂.list, fun b => (h₂.standsFor b).trans (h₁.standsFor b),
    h₁.table.trans h₂.table, h₂.intact⟩

theorem Intact.prepared_met {as : List Operand} {o o₁ : Optimizer} (h : o.Intact)
    (hmet : Met as o o₁) : Prepared o o₁ :=
  ⟨hmet.sameList, standsFor_of_met h hmet, hmet.widens, h.of_met hmet⟩

/-- What the passes keep besides the table may change. -/
theorem Intact.prepared {o : Optimizer} (h : o.Intact) {o₁ : Optimizer} (hlist : SameList o o₁)
    (hvalues : o₁.values = o.values) (hknown : o₁.known = o.known) : Prepared o o₁ := by
  refine ⟨hlist, fun b => ?_, hvalues ▸ .refl _, ⟨hvalues ▸ h.values, ?_⟩⟩
  · unfold Optimizer.standsFor
    rw [hvalues]
  · rw [hvalues, hknown]
    exact h.known

/-! ### Writing an operation -/

/-- The state after a value was forced. -/
def forcing (o : Optimizer) (id : ValueId) : Optimizer :=
  {o with values := (o.values.force id o.out).2.1, out := (o.values.force id o.out).2.2}

/-- Some values were forced, and nothing else happened. -/
structure Forces (o o' : Optimizer) : Prop where
  steps : ∃ ids : List ValueId, o' = ids.foldl forcing o
  same : o' = {o with values := o'.values, out := o'.out}
  values : o.values.Forced o'.values
  out : ∃ ops, o'.out.toList = o.out.toList ++ ops ∧ ∀ op ∈ ops, op.isForcing = true
  idle : (∀ id, (o.values.slot id).virtual = none) → o' = o

namespace Forces
variable {o o₁ o₂ : Optimizer}

theorem refl (o : Optimizer) : Forces o o :=
  ⟨⟨[], rfl⟩, rfl, .refl _, ⟨[], by simp, List.forall_mem_nil _⟩, fun _ => rfl⟩

theorem trans (h₁ : Forces o o₁) (h₂ : Forces o₁ o₂) : Forces o o₂ := by
  refine ⟨?_, by rw [h₂.same, h₁.same], h₁.values.trans h₂.values, ?_, fun hreal => ?_⟩
  · obtain ⟨ids₁, hids₁⟩ := h₁.steps
    obtain ⟨ids₂, hids₂⟩ := h₂.steps
    exact ⟨ids₁ ++ ids₂, by rw [List.foldl_append, ← hids₁, hids₂]⟩
  · obtain ⟨ops₁, hout₁, hops₁⟩ := h₁.out
    obtain ⟨ops₂, hout₂, hops₂⟩ := h₂.out
    refine ⟨ops₁ ++ ops₂, by rw [hout₂, hout₁, List.append_assoc], fun op hop => ?_⟩
    exact (List.mem_append.1 hop).elim (hops₁ op) (hops₂ op)
  · have he := h₁.idle hreal
    subst he
    exact h₂.idle hreal

theorem intact (h : Forces o o₁) (ho : o.Intact) : o₁.Intact := by
  refine ⟨ho.values.forced h.values, fun key id hid => ?_⟩
  rw [h.same] at hid
  rw [h.values.size]
  exact ho.known key id hid

theorem standsFor (h : Forces o o₁) (b : Box) : o₁.standsFor b = o.standsFor b := by
  unfold Optimizer.standsFor Values.lookup
  rw [h.values.index]
  split
  · exact h.values.operand _
  · rfl

end Forces

theorem force_yields {o : Optimizer} (h : o.Intact) (id : ValueId) :
    Yields (force id) o fun a o' => Forces o o' ∧ a = (o.values.slot id).operand := by
  have hp := o.values.force_performs id o.out
  obtain ⟨ops, hout, hops⟩ := hp.forcing h.values
  refine ⟨⟨⟨[id], rfl⟩, rfl, hp.forced, ⟨ops, hout, hops⟩, fun hreal => ?_⟩,
    o.values.force_operand id o.out⟩
  show o.forcing id = o
  rw [forcing, Values.force_of_real (hreal id)]

/-- Looking up a box forces its value and gives what is emitted for it. -/
theorem forwardBox_forces {o : Optimizer} (h : o.Intact) (b : Box) :
    Yields (forwardBox b) o fun a o' => Forces o o' ∧ a = o.standsFor b := by
  unfold forwardBox standsFor
  rw [yields_bind, yields_get]
  cases o.values.lookup b with
  | some id => exact force_yields h id
  | none => exact ⟨.refl o, rfl⟩

theorem Forces.mapBox {o o₁ : Optimizer} (h : Forces o o₁) (a : Operand) :
    a.mapBox o₁.standsFor = a.mapBox o.standsFor := by
  cases a with
  | box b => exact h.standsFor b
  | const c => rfl

theorem Forces.map_mapBox {o o₁ : Optimizer} (h : Forces o o₁) (as : List Operand) :
    as.map (·.mapBox o₁.standsFor) = as.map (·.mapBox o.standsFor) :=
  List.map_congr_left fun a _ => h.mapBox a

/-- Each operand becomes what it stands for. -/
theorem forwardArgs_forces {o : Optimizer} (h : o.Intact) (as : List Operand) :
    Yields (as.mapM forwardArg) o fun as' o' =>
      Forces o o' ∧ as' = as.map (·.mapBox o.standsFor) := by
  induction as generalizing o with
  | nil => exact ⟨.refl o, rfl⟩
  | cons a as ih =>
    have ha : Yields (forwardArg a) o fun a' o' => Forces o o' ∧ a' = a.mapBox o.standsFor := by
      cases a with
      | box b => exact forwardBox_forces h b
      | const c => exact ⟨.refl o, rfl⟩
    rw [List.mapM_cons, yields_bind]
    refine ha.mono fun a' o₁ ⟨h₁, ha'⟩ => ?_
    rw [yields_bind]
    refine (ih (h₁.intact h)).mono fun as' o₂ ⟨h₂, has'⟩ => ⟨h₁.trans h₂, ?_⟩
    rw [List.map_cons, ha', has', h₁.map_mapBox]
    rfl

/-- A chain is rebuilt from what its entries stand for. -/
theorem relink_forces {o : Optimizer} (h : o.Intact) (s : Snapshot) (supply : Relinker.Supply) :
    Yields (Relinker.relink forwardBox s supply) o fun r o' =>
      Forces o o' ∧ r = Relinker.relink (m := Id) o.standsFor s supply := by
  induction s generalizing o supply with
  | nil => exact ⟨.refl o, rfl⟩
  | cons frame rest ih =>
    unfold Relinker.relink
    split
    · exact ⟨.refl o, rfl⟩
    · rw [yields_bind]
      refine (ih h supply).mono fun r o₁ ⟨h₁, hr⟩ => ?_
      rw [yields_bind]
      refine (forwardArgs_forces (h₁.intact h) frame.entries).mono
        fun entries o₂ ⟨h₂, hentries⟩ => ⟨h₁.trans h₂, ?_⟩
      rw [hr, hentries, h₁.map_mapBox, ← Relinker.mapM_mapEntry]
      rfl

/-- A descriptor with its chain rebuilt, and what rebuilding leaves. -/
def relinkDescr (map : Box → Operand) (s : Relinker.Supply) :
    Option Descr → Option Descr × Relinker.Supply
  | some (.guard n chain) =>
    let r := Relinker.relink (m := Id) map chain s
    (some (.guard n r.1), r.2)
  | descr => (descr, s)

theorem relinkDescr_of_plain (map : Box → Operand) (s : Relinker.Supply) {descr : Option Descr}
    (h : ∀ n chain, descr ≠ some (.guard n chain)) : relinkDescr map s descr = (descr, s) := by
  unfold relinkDescr
  split
  next n chain => exact absurd rfl (h n chain)
  next => rfl

/-- The relinker of the list that is written, and the next free frame number. -/
def supply (o : Optimizer) : Relinker.Supply :=
  ⟨o.sink, o.pool.nextFrame⟩

/-- An operation as it is written: each box that it reads is what it stands for. -/
def writes (o : Optimizer) (op : Operation) : Operation :=
  {op with
    args := op.args.map (·.mapBox o.standsFor)
    failArgs := op.failArgs.map (·.map (·.mapBox o.standsFor))
    descr := (relinkDescr o.standsFor o.supply op.descr).1}

theorem Prepared.supply_eq {o o₁ : Optimizer} (h : Prepared o o₁) : o₁.supply = o.supply := by
  rw [supply, supply, h.list.sink, h.list.pool]

/-- An operation is written in the same way in a state that was only prepared. -/
theorem Prepared.writes_eq {o o₁ : Optimizer} (h : Prepared o o₁) (op : Operation) :
    o₁.writes op = o.writes op := by
  rw [writes, writes, h.supply_eq, show o₁.standsFor = o.standsFor from funext h.standsFor]

/-- Writing an operation forces what it reads and puts it behind the list. -/
theorem emit_forces {o : Optimizer} (h : o.Intact) (op : Operation) :
    Yields (emit op) o fun _ o' => ∃ o₁ events, Forces o o₁ ∧ o' = {o₁ with
      sink := (relinkDescr o.standsFor o.supply op.descr).2.relinker
      pool := {o₁.pool with nextFrame := (relinkDescr o.standsFor o.supply op.descr).2.nextFrame}
      events
      out := o₁.out.push (o.writes op)} := by
  unfold emit
  rw [yields_bind]
  refine (forwardArgs_forces h op.args).mono ?_
  rintro args o₁ ⟨h₁, hargs⟩
  have hfail : Yields (op.failArgs.mapM (·.mapM forwardArg)) o₁ fun fs o' =>
      Forces o₁ o' ∧ fs = op.failArgs.map (·.map (·.mapBox o.standsFor)) := by
    cases op.failArgs with
    | none => exact ⟨.refl o₁, rfl⟩
    | some as =>
      show Yields (some <$> as.mapM forwardArg) o₁ _
      rw [yields_map]
      refine (forwardArgs_forces (h₁.intact h) as).mono ?_
      rintro fs o₂ ⟨h₂, hfs⟩
      refine ⟨h₂, ?_⟩
      rw [hfs, h₁.map_mapBox]
      rfl
  rw [yields_bind]
  refine hfail.mono ?_
  rintro failArgs o₂ ⟨h₂, hfs⟩
  have h₁₂ := h₁.trans h₂
  have hsupply : (⟨o₂.sink, o₂.pool.nextFrame⟩ : Relinker.Supply) = o.supply := by
    rw [h₁₂.same]
    rfl
  have hstands : o₂.standsFor = o.standsFor := funext h₁₂.standsFor
  rw [yields_bind]
  unfold forwardDescr
  split
  next n s hd =>
    simp only [yields_bind, yields_pure, forwardSnapshot, yields_get, yields_modify, yields_tell]
    refine (relink_forces (h₁₂.intact h) s _).mono ?_
    rintro r o₃ ⟨h₃, hr⟩
    rw [hsupply, hstands] at hr
    refine ⟨o₃, o₃.events.push (.emitted op.opcode), h₁₂.trans h₃, ?_⟩
    simp only [writes, relinkDescr, hd, hargs, hfs, hr]
  next hno =>
    have hsame := relinkDescr_of_plain o.standsFor o.supply hno
    refine ⟨o₂, o₂.events.push (.emitted op.opcode), h₁₂, ?_⟩
    simp only [writes, hsame, hargs, hfs]
    rw [← hsupply]
    rfl

theorem intact_emit {o : Optimizer} (h : o.Intact) (op : Operation) :
    ((emit op).run o).2.Intact := by
  obtain ⟨o₁, _, hf, he⟩ := emit_forces h op
  rw [he]
  exact ⟨(hf.intact h).values, (hf.intact h).known⟩

/-! ### Through the passes -/

/-- Whether an operation that is sent comes to be written, and in which state. The table is
changed behind it for a guard only. -/
def Written (op : Operation) (o o' : Optimizer) : Prop :=
  SameList o o' ∨ ∃ o₁, Prepared o o₁ ∧ SameList ((emit op).run o₁).2 o' ∧
    (op.isGuard = false → o'.values = ((emit op).run o₁).2.values)

namespace Written
variable {op : Operation} {o o₁ o₂ o' : Optimizer}

theorem of_prepared (h : Prepared o o₁) (hw : Written op o₁ o') : Written op o o' :=
  hw.imp h.list.trans fun ⟨o₂, h₂, hl⟩ => ⟨o₂, h.trans h₂, hl⟩

theorem trans (hw : Written op o o₁) (h : SameList o₁ o')
    (hvalues : op.isGuard = false → o'.values = o₁.values) : Written op o o' :=
  hw.imp (·.trans h) fun ⟨o₂, h₂, hl, hv⟩ =>
    ⟨o₂, h₂, hl.trans h, fun hop => (hvalues hop).trans (hv hop)⟩

/-- The operation is put behind the list and what was forced for it, as the state writes it
in which it was sent. -/
theorem list (h : Written op o o') : SameList o o' ∨ ∃ forced,
    (∀ op ∈ forced, op.isForcing = true) ∧
      o'.out.toList = o.out.toList ++ forced ++ [o.writes op] ∧
      o'.supply = (relinkDescr o.standsFor o.supply op.descr).2 := by
  refine h.imp_right fun ⟨o₁, hp, hl, _⟩ => ?_
  obtain ⟨o₂, events, hf, he⟩ := emit_forces hp.intact op
  obtain ⟨forced, hout, hforced⟩ := hf.out
  rw [hp.writes_eq op, show o₁.standsFor = o.standsFor from funext hp.standsFor, hp.supply_eq] at he
  refine ⟨forced, hforced, ?_, ?_⟩
  · rw [hl.out, he, Array.toList_push, hout, hp.list.out]
  · rw [supply, hl.sink, hl.pool, he]

end Written

/-- Whatever is sent, the state stays intact, and the operation is written or nothing is. -/
def Settled (send : Operation → Optimizer → Optimizer → Prop) : Prop :=
  ∀ op o o', o.Intact → send op o o' → o'.Intact ∧ Written op o o'

theorem settled_placed {send : Operation → Optimizer → Optimizer → Prop} (h : Settled send) :
    Settled (Placed send) := by
  rintro op o _ ho ⟨chain, cursor, o₂, hs, rfl⟩
  have hprepared : Prepared o {o with chain, cursor} := ho.prepared ⟨rfl, rfl, rfl⟩ rfl rfl
  obtain ⟨hi, hw⟩ := h op _ o₂ hprepared.intact hs
  exact ⟨⟨hi.values, hi.known⟩,
    (Written.of_prepared hprepared hw).trans ⟨rfl, rfl, rfl⟩ fun _ => rfl⟩

theorem settled_emit : Settled fun op o o' => o' = ((emit op).run o).2 := by
  rintro op o _ ho rfl
  exact ⟨intact_emit ho op, .inr ⟨o, ho.prepared (.refl o) rfl rfl, .refl _, fun _ => rfl⟩⟩

theorem size_teaches {op : Operation} {arg : Operand} {s : Slot} {id : ValueId}
    {f : Values → Values} (h : Rewrite.Teaches op arg s id f) (v : Values) :
    (f v).slots.size = v.slots.size := by
  cases h <;> simp [Values.makeConstant, Values.makeNonNull, Values.setClass]

theorem intact_teaches {op : Operation} {arg : Operand} {s : Slot} {id : ValueId}
    {f : Values → Values} (h : Rewrite.Teaches op arg s id f) {v : Values} (hv : v.Intact) :
    (f v).Intact := by
  cases h with
  | truth | value | null => exact hv.makeConstant ..
  | nothing => exact hv
  | nonNull => exact hv.makeNonNull _
  | ofClass => exact (hv.setClass ..).makeNonNull _

theorem settled_rewritten {send : Operation → Optimizer → Optimizer → Prop} (h : Settled send) :
    Settled (Rewrite.Rewritten send) := by
  intro op o o' ho hs
  cases hs with
  | passed hmet _ hs =>
    have hp := ho.prepared_met hmet
    exact (h op _ _ hp.intact hs).imp id (.of_prepared hp)
  | dropped => exact ⟨⟨(ho.met _).values, (ho.met _).known⟩, .inl ⟨rfl, rfl, rfl⟩⟩
  | @kept arg rest f o₁ hargs ht hs =>
    have hp := ho.prepared_met (.one (a := arg) (hargs ▸ List.mem_cons_self ..))
    obtain ⟨hi, hw⟩ := h op _ _ hp.intact hs
    exact ⟨hi.setValues (intact_teaches ht hi.values) (size_teaches ht _),
      (Written.of_prepared hp hw).trans ⟨rfl, rfl, rfl⟩ fun hop => by
        rw [ht.isGuard] at hop
        cases hop⟩
  | unraised => exact ⟨⟨ho.values, ho.known⟩, .inl ⟨rfl, rfl, rfl⟩⟩
  | checked _ _ hs =>
    obtain ⟨hi, hw⟩ := h op _ _ ho hs
    exact ⟨⟨hi.values, hi.known⟩, hw.trans ⟨rfl, rfl, rfl⟩ fun _ => rfl⟩
  | called _ hs =>
    have hp : Prepared o {o with mayRaise := true} := ho.prepared ⟨rfl, rfl, rfl⟩ rfl rfl
    exact (h op _ _ hp.intact hs).imp id (.of_prepared hp)
  | aliased =>
    exact ⟨(ho.met _).setValues ((ho.met _).values.forward (ho.idOf_lt _) _) rfl,
      .inl ⟨rfl, rfl, rfl⟩⟩
  | @folded o₁ cs c r _ _ _ hmet =>
    have hi := ((ho.of_met hmet).met (.box r))
    have hi' := hi.setValues (hi.values.makeConstant (o₁.idOf (.box r)) c)
      (by simp [Values.makeConstant])
    exact ⟨⟨hi'.values, hi'.known⟩, .inl (hmet.sameList.trans ⟨rfl, rfl, rfl⟩)⟩
  | @reused o₁ ks r id _ _ _ hmet _ hknown =>
    have hi := ho.of_met hmet
    have hi' := hi.setValues (hi.values.forward (hi.known _ id hknown) r) rfl
    exact ⟨⟨hi'.values, hi'.known⟩, .inl (hmet.sameList.trans ⟨rfl, rfl, rfl⟩)⟩
  | @computed o₁ _ ks r _ _ _ hmet _ _ _ hs =>
    have hp := ho.prepared_met hmet
    have hp' : Prepared o₁ {o₁.met (.box r) with
        known := o₁.known.set (Rewrite.keyOf op ks r) (o₁.idOf (.box r))} :=
      ⟨⟨rfl, rfl, rfl⟩, standsFor_met hp.intact (.box r), .valueOf _ _, hp.intact.remember _ r⟩
    exact (h op _ _ hp'.intact hs).imp id (.of_prepared (hp.trans hp'))

theorem settled_virtualized {send : Operation → Optimizer → Optimizer → Prop} (h : Settled send) :
    Settled (Virtualize.Virtualized send) := by
  intro op o o' ho hs
  cases hs with
  | passed hmet _ hs =>
    have hp := ho.prepared_met hmet
    exact (h op _ _ hp.intact hs).imp id (.of_prepared hp)
  | @held r hop hr =>
    have hi := ho.met (.box r)
    refine ⟨⟨ho.values.makeVirtual hop, fun key id hid => ?_⟩, .inl ⟨rfl, rfl, rfl⟩⟩
    have hsize : (o.values.makeVirtual op).2.slots.size = (o.met (.box r)).values.slots.size := by
      simp [Values.makeVirtual, hr, Optimizer.met]
    show id < (o.values.makeVirtual op).2.slots.size
    rw [hsize]
    exact hi.known key id hid
  | @written object value =>
    have hi := (ho.met object).met value
    have hvalue := (ho.met object).idOf_lt value
    exact ⟨hi.setValues (hi.values.setField hvalue _) (by simp [Values.setField]),
      .inl ⟨rfl, rfl, rfl⟩⟩
  | @read object _ _ _ _ _ _ _ _ _ hfield =>
    have hi := ho.met object
    exact ⟨hi.setValues (hi.values.forward (hi.values.field?_lt hfield) _) rfl,
      .inl ⟨rfl, rfl, rfl⟩⟩
  | @readZero object _ r =>
    have hi := (ho.met object).met (.box r)
    exact ⟨hi.setValues (hi.values.makeConstant ..) (by simp [Values.makeConstant]),
      .inl ⟨rfl, rfl, rfl⟩⟩

/-- What becomes of an operation behind peeling. -/
theorem settled_handled (ps : List Pass) : Settled (Handled ps) := by
  induction ps with
  | nil => exact settled_placed settled_emit
  | cons p ps ih =>
    refine settled_placed ?_
    cases p with
    | peel => exact fun _ _ _ _ h => h.elim
    | rewrite => exact settled_rewritten ih
    | virtualize => exact settled_virtualized ih

end Optimizer
end TracePeel
