import TracePeel.Optimize.Config
import TracePeel.Proofs.Writing

/-! Every pass keeps the list in order.

An operation that comes next, `Comes`, takes the optimizer from one working state to
the next, whatever the passes make of it. -/
namespace TracePeel

/-- The operation may come next behind the boxes that were defined, and the numbers it
bears were given out. -/
structure Operation.Comes (T : FrameTable) (defined : List Box) (nextGuard nextBox : Nat)
    (op : Operation) : Prop where
  fits : op.Fits defined
  ordinary : op.opcode.isFinal = false
  neat : op.Neat nextGuard T
  number : ∀ r, op.result = some r → r.id < nextBox

theorem Operation.Comes.reads_args {T : FrameTable} {defined : List Box} {n m : Nat}
    {op : Operation} (h : op.Comes T defined n m) : ∀ b, .box b ∈ op.args → b ∈ defined :=
  fun b hb => h.fits.reads b (by simp [Operation.usedArgs, hb])

theorem Operation.Comes.no_result {T : FrameTable} {defined : List Box} {n m : Nat}
    {op : Operation} (h : op.Comes T defined n m) (hno : op.opcode.hasResult = false) :
    op.result = none :=
  h.fits.no_result hno

/-- What an operation produces is new, and a guard produces nothing. -/
theorem Operation.Comes.fresh {T : FrameTable} {defined : List Box} {n m : Nat}
    {op : Operation} (h : op.Comes T defined n m) :
    ∀ r, op.result = some r → r ∉ defined ∧ op.guard? = none := by
  intro r hr
  obtain ⟨hhas, -, hnew⟩ := h.fits.produced r hr
  refine ⟨hnew, (h.neat.plain ?_).2⟩
  cases hg : op.isGuard with
  | false => rfl
  | true =>
    rw [Opcode.hasResult_eq_false_of_isGuard hg] at hhas
    cases hhas

/-- An allocation that comes next can be held back. -/
theorem Operation.Comes.holds {T : FrameTable} {defined : List Box} {n m : Nat}
    {op : Operation} {r : Box} (h : op.Comes T defined n m) (hop : op.opcode = .new)
    (hr : op.result = some r) : Virtual.Holds { allocation := op } r 0 := by
  obtain ⟨hfail, hguard⟩ := h.neat.plain (by simp [Operation.isGuard, hop, Opcode.isGuard])
  refine ⟨hop, ?_, hr, hfail, hguard, ?_, by simp⟩
  · exact List.length_eq_zero_iff.1 (h.fits.arity 0 (by simp [hop, Opcode.arity?]))
  · exact ((h.fits.produced r hr).2.1 .ref (by simp [hop, Opcode.resultKind?])).symm

theorem Operation.Renders.neat {R : Operand → Operand → Prop} {T T' : FrameTable} {n : Nat}
    {op op' : Operation} (h : op.Renders R T' op') (hop : op.Neat n T)
    (hguard : op'.guard?.map (·.1) = op.guard?.map (·.1)) : op'.Neat n T' := by
  refine ⟨h.plain hop.plain, fun p hp => ?_, h.snapshot_in⟩
  have hp' : op'.guard?.map (·.1) = some p.1 := by rw [hp]; rfl
  rw [hguard] at hp'
  obtain ⟨q, hq, hqp⟩ := Option.map_eq_some_iff.1 hp'
  rw [← hqp]
  exact hop.guard q hq

/-- The operation is written with operands that are ready. -/
theorem Built.rendered {n nextBox : Nat} {T T' : FrameTable} {base start defined : List Box}
    {v v' : Values} {out : List Operation} (h : Built n T' base start defined v out)
    {op op' : Operation} (hop : op.Comes T defined n nextBox)
    (hr : op.Renders (fun a a' => a'.kind = a.kind ∧ v.Ready (base ++ results out) start a')
      T' op') (hresult : op'.result = op.result)
    (hguard : op'.guard?.map (·.1) = op.guard?.map (·.1)) (hl : v.Later v')
    (ht : v'.Consistent (op.result.toList ++ defined)
      (op.result.toList ++ (base ++ results out)) start) :
    Built n T' base start (op.result.toList ++ defined) v' (out ++ [op']) := by
  have hfits : op'.Fits (base ++ results out) :=
    hr.fits (fun _ _ h => h.1) (fun a b h => (h.2 b rfl).1) (by rw [hresult])
      (fun r hr hm => (hop.fits.produced r (hresult ▸ hr)).2.2 (h.table.subset hm)) hop.fits
  refine h.append hl (by rwa [hresult]) hfits (by rw [hr.opcode]; exact hop.ordinary)
    (hr.neat hop.neat hguard) fun b hb hs => ?_
  obtain ⟨a, _, hR⟩ := exists_right_of_mem hr.usedArgs.flip hb
  exact hl.marked h.table.inRange ((hR.2 b rfl).2 hs)

/-- The passes behind peeling, in their order. -/
def Config.behind (c : Config) : List Pass :=
  (if c.rewrite then [.rewrite] else []) ++ if c.virtualize then [.virtualize] else []

namespace Optimizer

/-- A working state in which the operation was dealt with. -/
def Reaches (T : FrameTable) (base start defined : List Box) (op : Operation)
    (o o' : Optimizer) : Prop :=
  ∃ T', T.Extends T' ∧ Working T' base start (op.result.toList ++ defined) o' ∧ Extends o o'

/-- Whatever comes next is dealt with. -/
def Sends (base start : List Box) (send : Operation → Optimizer → Optimizer → Prop) : Prop :=
  ∀ ⦃T defined op o o'⦄, Working T base start defined o →
    op.Comes T defined o.pool.nextGuard o.pool.nextBox → send op o o' →
    Reaches T base start defined op o o'

/-- Behind rewriting, values stay what they are, and a computation whose operands are no
virtual objects is written just as it comes. -/
structure Settles (base start : List Box) (send : Operation → Optimizer → Optimizer → Prop) :
    Prop where
  operand : ∀ ⦃T defined op o o'⦄, Working T base start defined o →
    op.Comes T defined o.pool.nextGuard o.pool.nextBox → send op o o' →
    ∀ id < o.values.slots.size, (o'.values.slot id).operand = (o.values.slot id).operand
  computed : ∀ ⦃op o o' ks⦄, (∀ c id, o.values.index.get? (.const c) = some id →
      (o.values.slot id).operand = .const c) → op.opcode.isAlwaysPure = true → op.Plain →
    List.Forall₂ o.values.EmittedAs op.args ks → send op o o' →
    ∃ events, o' = {o with out := o.out.push {op with args := ks}, events}

namespace Working
variable {T : FrameTable} {base start defined : List Box} {o o' : Optimizer}

/-! ### Changing the table -/

/-- The table changes and the list stays. -/
theorem setTable {defined' : List Box} (h : Working T base start defined o)
    (ht : o'.values.Consistent defined' (base ++ results o.out.toList) start)
    (hl : o.values.Later o'.values) (hid : ∀ b ∈ defined', b.id < o.pool.nextBox)
    (hout : o'.out = o.out) (hpool : o'.pool = o.pool) (hsink : o'.sink = o.sink)
    (hknown : o'.known = o.known) : Working T base start defined' o' where
  built := by
    rw [hpool, hout]
    exact h.built.setTable ht hl
  known key id hk := by
    obtain ⟨hlt, hkind⟩ := h.known key id (hknown ▸ hk)
    exact ⟨Nat.lt_of_lt_of_le hlt hl.size, (hl.kind id hlt).trans hkind⟩
  ids := by
    rw [hpool]
    exact hid
  sink := by
    rw [hsink, hpool]
    refine h.sink.mono fun a a' ha => ⟨ha.1, ?_⟩
    rw [hout]
    exact ha.2.mono h.inRange (List.Subset.refl _) hl

theorem extends_of_later (hl : o.values.Later o'.values) (hout : o'.out = o.out) :
    Extends o o' :=
  ⟨hl, by rw [hout]⟩

theorem extends_met (o : Optimizer) (a : Operand) : Extends o (o.met a) :=
  extends_of_later (Values.later_valueOf ..) rfl

theorem met (h : Working T base start defined o) {a : Operand}
    (ha : ∀ b, a = .box b → b ∈ defined) : Working T base start defined (o.met a) :=
  h.setTable (h.built.table.valueOf ha) (Values.later_valueOf ..) h.ids rfl rfl rfl rfl

theorem met_head (h : Working T base start defined o) {op : Operation} {n m : Nat}
    (hop : op.Comes T defined n m) {a : Operand} {rest : List Operand}
    (hargs : op.args = a :: rest) : Working T base start defined (o.met a) := by
  refine h.met fun b hb => hop.reads_args b ?_
  rw [hargs, hb]
  exact List.mem_cons_self ..

theorem of_met (h : Working T base start defined o) {as : List Operand}
    (ha : ∀ b, .box b ∈ as → b ∈ defined) (hmet : Met as o o') :
    Working T base start defined o' ∧ Extends o o' := by
  induction hmet with
  | refl => exact ⟨h, .refl o⟩
  | more _ hmem ih =>
    exact ⟨ih.1.met fun b hb => ha b (hb ▸ hmem), ih.2.trans (extends_met ..)⟩

/-- A box that comes to be defined gets a number that was given out. -/
theorem ids_cons (h : Working T base start defined o) {r : Box} (hr : r.id < o.pool.nextBox) :
    ∀ b ∈ r :: defined, b.id < o.pool.nextBox := by
  intro b hb
  rcases List.mem_cons.1 hb with rfl | hb
  · exact hr
  · exact h.ids b hb

theorem ids_append (h : Working T base start defined o) {result : Option Box}
    (hr : ∀ r, result = some r → r.id < o.pool.nextBox) :
    ∀ b ∈ result.toList ++ defined, b.id < o.pool.nextBox := by
  intro b hb
  rcases List.mem_append.1 hb with hb | hb
  · exact hr b (by simpa using hb)
  · exact h.ids b hb

theorem idOf_lt (h : Working T base start defined o) (a : Operand) :
    o.idOf a < (o.met a).values.slots.size :=
  h.inRange.valueOf_lt a

/-- What a box stands for from now on is a value that exists and is of its kind. -/
theorem forward (h : Working T base start defined o) {r : Box} {id : ValueId}
    (hr : r ∉ defined) (hn : r.id < o.pool.nextBox) (hid : id < o.values.slots.size)
    (hkind : (o.values.slot id).operand.kind = r.kind) (hv : o'.values = o.values.forward r id)
    (hout : o'.out = o.out) (hpool : o'.pool = o.pool) (hsink : o'.sink = o.sink)
    (hknown : o'.known = o.known) :
    Working T base start (r :: defined) o' ∧ Extends o o' := by
  have hl := Values.later_forward (h.built.table.index_of_not_defined hr) id
  rw [← hv] at hl
  refine ⟨h.setTable ?_ hl (h.ids_cons hn) hout hpool hsink hknown, extends_of_later hl hout⟩
  rw [hv]
  exact h.built.table.forward hr hid hkind

/-- A box that comes to be defined is known to be a constant. -/
theorem adoptConstant (h : Working T base start defined o) {r : Box} {c : Const}
    (hr : r ∉ defined) (hn : r.id < o.pool.nextBox) (hc : c.kind = r.kind)
    (hv : o'.values = (o.met (.box r)).values.makeConstant (o.idOf (.box r)) c)
    (hout : o'.out = o.out) (hpool : o'.pool = o.pool) (hsink : o'.sink = o.sink)
    (hknown : o'.known = o.known) :
    Working T base start (r :: defined) o' ∧ Extends o o' := by
  have hl : o.values.Later o'.values := by
    rw [hv]
    exact Values.later_modifySlot_new (h.built.table.index_of_not_defined hr)
  refine ⟨h.setTable ?_ hl (h.ids_cons hn) hout hpool hsink hknown, extends_of_later hl hout⟩
  rw [hv]
  exact h.built.table.adoptConstant hr hc

/-! ### Writing -/

theorem wrote (h : Working T base start defined o) {op : Operation}
    (hop : op.Comes T defined o.pool.nextGuard o.pool.nextBox)
    (w : Wrote T base start defined op o o') :
    Reaches T base start defined op o o' ∧
      ∀ id, (o'.values.slot id).operand = (o.values.slot id).operand := by
  obtain ⟨o₁, op', T', supply, events, hbuilt, hforced, hT, hsink, hrenders, hresult, hguard,
    rfl⟩ := w.written
  have hpool : o₁.pool = o.pool := by rw [hforced.same]
  have hknown : o₁.known = o.known := by rw [hforced.same]
  have htable : o₁.values.Consistent (op.result.toList ++ defined)
      (op.result.toList ++ (base ++ results o₁.out.toList)) start := by
    cases hr : op.result with
    | none => exact hbuilt.table
    | some r => exact hbuilt.table.define (hop.fits.produced r hr).2.2
  have hwritten := hbuilt.rendered hop hrenders hresult hguard (.refl o₁.values) htable
  have hext : Extends o {o₁ with
      sink := supply.relinker
      pool := {o₁.pool with nextFrame := supply.nextFrame}
      events
      out := o₁.out.push op'} :=
    ⟨hforced.values.later, hforced.grows.trans (by simp)⟩
  refine ⟨⟨T', hT, ⟨?_, fun key id hk => ?_, fun b hb => ?_, ?_⟩, hext⟩,
    hforced.values.operand⟩
  · simpa [hpool] using hwritten
  · obtain ⟨hlt, hkind⟩ := h.known key id (hknown ▸ hk)
    exact ⟨by rwa [hforced.values.size], by rwa [hforced.values.operand]⟩
  · show b.id < o₁.pool.nextBox
    rw [hpool]
    exact h.ids_append hop.number b hb
  · refine hsink.mono fun a a' ha => ⟨ha.1, ha.2.mono hbuilt.table.inRange ?_ (.refl _)⟩
    simp only [Array.toList_push, results_append]
    exact List.append_subset.2 ⟨List.subset_append_left .., fun b hb =>
      List.mem_append_right _ (List.mem_append_left _ hb)⟩

theorem sends_emit : Sends base start fun op o o' => o' = ((emit op).run o).2 := by
  intro T defined op o o' h hop he
  subst he
  exact (h.wrote hop (h.emit_yields hop.fits.reads hop.neat.frames)).1

end Working

/-- An ordinary value is looked up without anything being written. -/
theorem forwardArg_run {o : Optimizer} {a k : Operand}
    (hkeeps : ∀ c id, o.values.index.get? (.const c) = some id →
      (o.values.slot id).operand = .const c)
    (h : o.values.EmittedAs a k) : (forwardArg a).run o = (k, o) := by
  obtain ⟨id, hid, hv, rfl⟩ := h
  cases a with
  | const c =>
    rw [hkeeps c id hid]
    rfl
  | box b =>
    have hnone : (o.values.slot id).virtual = none := by simpa [Slot.isVirtual] using hv
    have hlookup : o.values.lookup b = some id := hid
    simp only [forwardArg, forwardBox]
    rw [run_eq_iff, yields_bind, yields_get]
    simp only [hlookup, force, yields_modifyGet, Values.force_of_real hnone,
      and_self]

/-- A computation with ordinary operands is written just as it comes. -/
theorem emit_computed {o : Optimizer} {op : Operation} {ks : List Operand}
    (hkeeps : ∀ c id, o.values.index.get? (.const c) = some id →
      (o.values.slot id).operand = .const c)
    (hpure : op.opcode.isAlwaysPure = true) (hplain : op.Plain)
    (hks : List.Forall₂ o.values.EmittedAs op.args ks) :
    ∃ events, ((emit op).run o).2 =
      {o with out := o.out.push {op with args := ks}, events} := by
  have hguard : op.isGuard = false := Opcode.isGuard_eq_false_of_isAlwaysPure hpure
  obtain ⟨hfail, hdescr⟩ := hplain hguard
  have hargs : (op.args.mapM forwardArg).run o = (ks, o) :=
    run_mapM (hks.imp fun _ _ => forwardArg_run hkeeps)
  have hd : (forwardDescr op.descr).run o = (op.descr, o) := by
    unfold forwardDescr
    split
    next n s he => simp [Operation.guard?, he] at hdescr
    next => rfl
  refine ⟨o.events.push (.emitted op.opcode), ?_⟩
  show Yields (emit op) o fun _ o' => o' = _
  unfold emit
  rw [yields_bind, yields_of_run hargs, hfail, yields_bind, Option.mapM_none, yields_pure,
    yields_bind, yields_of_run hd]
  rfl

theorem settles_emit (base start : List Box) :
    Settles base start fun op o o' => o' = ((emit op).run o).2 where
  operand T defined op o o' h hop he := by
    subst he
    exact fun id _ => (h.wrote hop (h.emit_yields hop.fits.reads hop.neat.frames)).2 id
  computed op o o' ks hkeeps hpure hplain hks he := by
    subst he
    exact emit_computed hkeeps hpure hplain hks

/-! ### Allocation removal -/

section Passes
variable {base start : List Box} {send : Operation → Optimizer → Optimizer → Prop}

theorem Reaches.of_extends {T : FrameTable} {defined : List Box} {op : Operation}
    {o o₁ o' : Optimizer} (he : Extends o o₁) (h : Reaches T base start defined op o₁ o') :
    Reaches T base start defined op o o' :=
  let ⟨T', hT, hw, he'⟩ := h
  ⟨T', hT, hw, he.trans he'⟩

theorem Reaches.of_none {T : FrameTable} {defined : List Box} {op : Operation}
    {o o' : Optimizer} (hr : op.result = none) (hw : Working T base start defined o')
    (he : Extends o o') : Reaches T base start defined op o o' :=
  ⟨T, .refl T, by rwa [hr], he⟩

theorem Reaches.of_some {T : FrameTable} {defined : List Box} {op : Operation} {r : Box}
    {o o' : Optimizer} (hr : op.result = some r)
    (h : Working T base start (r :: defined) o' ∧ Extends o o') :
    Reaches T base start defined op o o' :=
  ⟨T, .refl T, by rw [hr]; exact h.1, h.2⟩

theorem sends_virtualized (hsend : Sends base start send) :
    Sends base start (Virtualize.Virtualized send) := by
  intro T defined op o o' h hop hthrough
  cases hthrough with
  | passed hmet _ hs =>
    obtain ⟨h₁, he⟩ := h.of_met hop.reads_args hmet
    have hk := hmet.keeps
    exact (hsend h₁ (by rwa [hk.nextGuard, hk.nextBox]) hs).of_extends he
  | held hnew hr =>
    have hfresh := (hop.fits.produced _ hr).2.2
    have ht := h.built.table.makeVirtual hfresh (hop.holds hnew hr)
    have hl : o.values.Later (o.values.makeVirtual op).2 := by
      simp only [Values.makeVirtual, hr]
      exact Values.later_modifySlot_new (h.built.table.index_of_not_defined hfresh)
    refine .of_some hr ⟨h.setTable ht hl (h.ids_cons (hop.number _ hr)) rfl rfl rfl rfl, ?_⟩
    exact Working.extends_of_later hl rfl
  | @written object value rest name hset hargs _ _ =>
    have hr : op.result = none := hop.no_result (by rw [hset]; rfl)
    have hmet : Met op.args o ((o.met object).met value) :=
      (Met.one (by simp [hargs])).more (by simp [hargs])
    obtain ⟨h₂, he⟩ := h.of_met hop.reads_args hmet
    have hl := Values.later_modifySlot ((o.met object).met value).values (o.idOf object)
      (fun s => {s with virtual := s.virtual.map fun ob =>
        {ob with fields := ob.fields.set name ((o.met object).idOf value)}}) rfl (fun _ h => h) rfl
      (fun hv => by simp [hv])
    refine .of_none hr (h₂.setTable ?_ hl h₂.ids rfl rfl rfl rfl)
      (he.trans (Working.extends_of_later hl rfl))
    exact h₂.built.table.setField _ name ((h.met_head hop hargs).idOf_lt value)
  | @read object rest r name value _ hargs hr _ hv hvalue hkind =>
    have h₁ := h.met_head hop hargs
    have hlt : value < (o.met object).values.slots.size := by
      cases hheld : ((o.met object).values.slot (o.idOf object)).virtual with
      | none => simp [Values.field?, hheld] at hvalue
      | some ob =>
        obtain ⟨_, _, hh, _⟩ := (h₁.built.table.slots _ (h.idOf_lt object)).held ob hheld
        simp only [Values.field?, hheld, Option.bind_some] at hvalue
        exact hh.fields name value (Bindings.mem_of_get? hvalue)
    exact .of_some hr (.imp_right (Working.extends_met o object).trans
      (h₁.forward (hop.fits.produced r hr).2.2 (hop.number r hr) hlt hkind rfl rfl rfl rfl rfl))
  | @readZero object rest r name _ hargs hr _ _ _ =>
    have h₁ := h.met_head hop hargs
    exact .of_some hr (.imp_right (Working.extends_met o object).trans
      (h₁.adoptConstant (hop.fits.produced r hr).2.2 (hop.number r hr) (Const.kind_zero _) rfl rfl
        rfl rfl rfl))

/-- Meeting operands that were met before changes nothing. -/
theorem Met.eq_of_known {as : List Operand} {o o' : Optimizer} (h : Met as o o')
    (hk : ∀ a ∈ as, ∃ id, o.values.index.get? a = some id) : o' = o := by
  induction h with
  | refl => rfl
  | more _ ha ih =>
    subst ih
    obtain ⟨id, hid⟩ := hk _ ha
    simp [met, Values.valueOf_known hid]

/-- A value that is emitted as it stands is no virtual object when it is met. -/
theorem slotOf_isVirtual {o : Optimizer} {a k : Operand} (h : o.values.EmittedAs a k) :
    (o.slotOf a).isVirtual = false := by
  obtain ⟨id, hid, hv, _⟩ := h
  simpa [slotOf, idOf, met, Values.valueOf_known hid] using hv

theorem settles_virtualized (hsettles : Settles base start send) :
    Settles base start (Virtualize.Virtualized send) where
  operand T defined op o o' h hop hthrough id hid := by
    have hslot : ∀ a, ((o.met a).values.slot id) = o.values.slot id :=
      fun a => Values.slot_valueOf a hid
    cases hthrough with
    | passed hm _ hs =>
      have hk := hm.keeps
      obtain ⟨h₁, _⟩ := h.of_met hop.reads_args hm
      rw [hsettles.operand h₁ (by rwa [hk.nextGuard, hk.nextBox]) hs id
        (Nat.lt_of_lt_of_le hid hm.size_le), hm.slot_of_lt hid]
    | held _ hr =>
      have hnew := h.built.table.index_of_not_defined (hop.fits.produced _ hr).2.2
      simp only [Values.makeVirtual, hr]
      rw [Values.slot_modifySlot_new _ hnew hid]
    | @written object value =>
      have hvalue : (((o.met object).met value).values.slot id) = o.values.slot id := by
        rw [← hslot object]
        exact Values.slot_valueOf value (Nat.lt_of_lt_of_le hid (Values.size_le_valueOf ..))
      rw [← hvalue]
      simp only [Values.setField, Values.slot_modifySlot]
      split <;> rfl
    | @read object => exact congrArg Slot.operand (hslot object)
    | @readZero object rest r _ _ hargs hr =>
      have hnew := (h.met_head hop hargs).built.table.index_of_not_defined
        (hop.fits.produced _ hr).2.2
      rw [← hslot object]
      exact congrArg Slot.operand (Values.slot_modifySlot_new _ hnew
        (Nat.lt_of_lt_of_le hid (Values.size_le_valueOf ..)))
  computed op o o' ks hkeeps hpure hplain hks hthrough := by
    cases hthrough with
    | passed hm _ hs =>
      have hknown : ∀ a ∈ op.args, ∃ id, o.values.index.get? a = some id := by
        intro a ha
        obtain ⟨_, _, id, hid, _⟩ := exists_right_of_mem hks ha
        exact ⟨id, hid⟩
      rw [hm.eq_of_known hknown] at hs
      exact hsettles.computed hkeeps hpure hplain hks hs
    | held hnew =>
      rw [hnew] at hpure
      cases hpure
    | written hset =>
      rw [hset] at hpure
      cases hpure
    | read _ hargs _ _ hv =>
      obtain ⟨k, _, hk⟩ := exists_right_of_mem hks (hargs ▸ List.mem_cons_self ..)
      rw [slotOf_isVirtual hk] at hv
      cases hv
    | readZero _ hargs _ _ hv =>
      obtain ⟨k, _, hk⟩ := exists_right_of_mem hks (hargs ▸ List.mem_cons_self ..)
      rw [slotOf_isVirtual hk] at hv
      cases hv

/-! ### Rewriting -/

/-- A computation that is remembered and written. Its result has a slot before it is
written, so this is not the same as remembering it after it was sent on. -/
theorem Working.computed {T : FrameTable} {defined : List Box} {o o' : Optimizer}
    {op : Operation} {ks : List Operand} {r : Box} (h : Working T base start defined o)
    (hsettles : Settles base start send)
    (hop : op.Comes T defined o.pool.nextGuard o.pool.nextBox)
    (hpure : op.opcode.isAlwaysPure = true) (hr : op.result = some r)
    (hks : List.Forall₂ o.values.EmittedAs op.args ks)
    (hs : send op
      {o.met (.box r) with known := o.known.set (Rewrite.keyOf op ks r) (o.idOf (.box r))} o') :
    Reaches T base start defined op o o' := by
  have hfresh := (hop.fits.produced r hr).2.2
  have hnew := h.built.table.index_of_not_defined hfresh
  have hmet : Met [.box r] o (o.met (.box r)) := .one (List.mem_cons_self ..)
  have hlater : o.values.Later (o.met (.box r)).values := Values.later_valueOf ..
  have hks' : List.Forall₂ (o.met (.box r)).values.EmittedAs op.args ks :=
    hks.imp fun _ _ => hmet.emittedAs h.inRange
  obtain ⟨events, rfl⟩ := hsettles.computed (o := {o.met (.box r) with
    known := o.known.set (Rewrite.keyOf op ks r) (o.idOf (.box r))})
    (h.built.table.keeps_valueOf r) hpure hop.neat.plain hks' hs
  have hguard : op.isGuard = false := Opcode.isGuard_eq_false_of_isAlwaysPure hpure
  obtain ⟨hfail, hdescr⟩ := hop.neat.plain hguard
  have hrenders : op.Renders (fun a a' => a'.kind = a.kind ∧
      o.values.Ready (base ++ results o.out.toList) start a') T {op with args := ks} := by
    refine ⟨rfl, hks.imp ?_, by rw [hfail]; exact .none, .same fun n s hd => ?_⟩
    · rintro a k ⟨id, hid, hv, rfl⟩
      exact ⟨h.built.table.kind a id hid, h.built.table.ready_slot (h.inRange a id hid)
        (by simpa [Slot.isVirtual] using hv)⟩
    · simp [Operation.guard?, hd] at hdescr
  have htable : (o.met (.box r)).values.Consistent (op.result.toList ++ defined)
      (op.result.toList ++ (base ++ results o.out.toList)) start := by
    rw [hr]
    exact (h.built.table.define hfresh).valueOf fun b hb => by cases hb; exact List.mem_cons_self ..
  have hwritten := h.built.rendered hop hrenders rfl rfl hlater htable
  refine ⟨T, .refl T, ⟨by simpa [Optimizer.met] using hwritten, fun key id hid => ?_, h.ids_append hop.number, ?_⟩,
    hlater, by simp [Optimizer.met]⟩
  · have hid' : (o.known.set (Rewrite.keyOf op ks r) (o.idOf (.box r))).get? key = some id := hid
    rw [Bindings.get?_set] at hid'
    split at hid'
    next he =>
      cases hid'
      exact ⟨h.idOf_lt _, he ▸ htable.kind _ _ (o.index_met _)⟩
    next =>
      obtain ⟨hlt, hkind⟩ := h.known key id hid'
      exact ⟨Nat.lt_of_lt_of_le hlt hlater.size, (hlater.kind id hlt).trans hkind⟩
  · refine h.sink.mono fun a a' ha => ⟨ha.1, ha.2.mono h.inRange ?_ hlater⟩
    simp only [Optimizer.met, Array.toList_push, results_append]
    exact List.append_subset.2 ⟨List.subset_append_left .., fun b hb =>
      List.mem_append_right _ (List.mem_append_left _ hb)⟩

/-- What a guard teaches about a value leaves the table consistent. -/
theorem Working.taught {T : FrameTable} {defined available : List Box} {o : Optimizer}
    {op : Operation} {arg : Operand} {rest : List Operand} {s : Slot} {id n : ValueId}
    {f : Values → Values} (h : Working T base start defined o) (hop : op.Fits defined)
    (hargs : op.args = arg :: rest) (hs : s.Sound available start n)
    (hkind : s.operand.kind = arg.kind)
    (hsame : (o.values.slot id).operand = s.operand) (ht : Rewrite.Teaches op arg s id f) :
    Working T base start defined {o with values := f o.values} ∧
      Extends o {o with values := f o.values} := by
  have hset : ∀ f : Values → Values,
      (f o.values).Consistent defined (base ++ results o.out.toList) start →
      o.values.Later (f o.values) → Working T base start defined {o with values := f o.values} ∧
        Extends o {o with values := f o.values} := fun f hc hl =>
    ⟨h.setTable hc hl h.ids rfl rfl rfl rfl, Working.extends_of_later hl rfl⟩
  have hconst : ∀ c : Const, s.operand.isConst = false → c.kind = arg.kind →
      Working T base start defined {o with values := o.values.makeConstant id c} ∧
        Extends o {o with values := o.values.makeConstant id c} := fun c hno hc => by
    have hck : c.kind = (o.values.slot id).operand.kind := by rw [hsame, hkind, hc]
    exact hset (·.makeConstant id c) (h.built.table.makeConstant hck (hsame ▸ hno))
      (Values.later_modifySlot _ _ _ hck nofun rfl fun _ => rfl)
  have hunknown : s.constant? = none → s.operand.isConst = false := fun hn => by
    rw [hs.constant?_eq] at hn
    simp [Operand.isConst, hn]
  cases ht with
  | truth _ hn hint => exact hconst _ (hunknown hn) hint.symm
  | nothing => exact hset (fun v => v) h.built.table (.refl _)
  | @value a c rest' hv hargs' hn =>
    have hk : a.kind = c.kind := by
      have hlen := hop.arity 2 (by simp [hv, Opcode.arity?])
      have hkinds := hop.kinds
      rw [hargs'] at hlen
      obtain rfl : rest' = [] := List.length_eq_zero_iff.1 (by simpa using hlen)
      simpa [Verify.kindsAgree, hv, hargs', Operand.kind] using hkinds
    rw [hargs] at hargs'
    cases hargs'
    exact hconst c (hunknown hn) hk.symm
  | nonNull =>
    exact hset (·.makeNonNull id) (h.built.table.makeNonNull id) (Values.later_makeNonNull ..)
  | null _ hn hz =>
    exact hconst _ (hs.not_const_of_unknown hn hz) (Const.kind_zero _)
  | @ofClass a c =>
    exact hset (fun v => (v.setClass id c).makeNonNull id)
      ((h.built.table.setClass id c).makeNonNull id)
      ((Values.later_modifySlot _ _ _ rfl (fun _ h => h) rfl fun hv => hv).trans
        (Values.later_makeNonNull ..))

theorem sends_rewritten (hsend : Sends base start send) (hsettles : Settles base start send) :
    Sends base start (Rewrite.Rewritten send) := by
  intro T defined op o o' h hop hthrough
  have hguard : op.isGuard = true → op.result = none := fun hg =>
    hop.no_result (Opcode.hasResult_eq_false_of_isGuard hg)
  cases hthrough with
  | passed hmet _ hs =>
    obtain ⟨h₁, he⟩ := h.of_met hop.reads_args hmet
    have hk := hmet.keeps
    exact (hsend h₁ (by rwa [hk.nextGuard, hk.nextBox]) hs).of_extends he
  | @dropped arg rest hargs himplied =>
    have h₁ := h.met_head hop hargs
    exact .of_none (hguard himplied.isGuard) { h₁ with } { Working.extends_met o arg with }
  | @kept arg rest f o₁ hargs ht hs =>
    have h₀ := h.met_head hop hargs
    have hr := hguard ht.isGuard
    obtain ⟨T', hT, h₁, he⟩ := hsend h₀ hop hs
    rw [hr] at h₁
    have hlt := h.idOf_lt arg
    have htaught := h₁.taught (hop.fits) hargs (h₀.built.table.slots _ hlt)
      (h₀.built.table.kind _ _ (o.index_met arg)) (hsettles.operand h₀ hop hs _ hlt) ht
    exact ⟨T', hT, by rw [hr]; exact htaught.1,
      (Working.extends_met o arg).trans (he.trans htaught.2)⟩
  | unraised hno =>
    exact .of_none (hguard (by simp [Operation.isGuard, hno, Opcode.isGuard])) { h with }
      { Extends.refl o with }
  | checked hno _ hs =>
    obtain ⟨T', hT, h₁, he⟩ := hsend h hop hs
    exact ⟨T', hT, { h₁ with }, { he with }⟩
  | called hcall hs =>
    have h₁ : Working T base start defined {o with mayRaise := true} := { h with }
    have he : Extends o {o with mayRaise := true} := { Extends.refl o with }
    exact (hsend h₁ hop hs).of_extends he
  | @aliased a rest r hsame hargs hr =>
    have h₁ := h.met_head hop hargs
    have hkind : a.kind = r.kind := by
      have hlen := hop.fits.arity 1 (by simp [hsame, Opcode.arity?])
      have hkinds := hop.fits.kinds
      rw [hargs] at hlen
      obtain rfl : rest = [] := List.length_eq_zero_iff.1 (by simpa using hlen)
      simpa [Verify.kindsAgree, hsame, hargs, hr] using hkinds
    exact .of_some hr (.imp_right (Working.extends_met o a).trans
      (h₁.forward (hop.fits.produced r hr).2.2 (hop.number r hr) (h.idOf_lt a)
        ((h₁.built.table.kind _ _ (o.index_met a)).trans hkind) rfl rfl rfl rfl rfl))
  | @folded o₁ cs c r _ _ hr hmet _ hfold =>
    obtain ⟨h₁, he⟩ := h.of_met hop.reads_args hmet
    have hk := hmet.keeps
    have hkind := (hop.fits.produced r hr).2.1 _ (kind_fold hfold)
    exact .of_some hr (.imp_right he.trans (h₁.adoptConstant (hop.fits.produced r hr).2.2
      (by rw [hk.nextBox]; exact hop.number r hr) hkind rfl rfl rfl rfl rfl))
  | @reused o₁ ks r id _ _ hr hmet _ hknown =>
    obtain ⟨h₁, he⟩ := h.of_met hop.reads_args hmet
    have hk := hmet.keeps
    obtain ⟨hlt, hkind⟩ := h₁.known _ _ hknown
    exact .of_some hr (.imp_right he.trans (h₁.forward (hop.fits.produced r hr).2.2
      (by rw [hk.nextBox]; exact hop.number r hr) hlt hkind rfl rfl rfl rfl rfl))
  | @computed o₁ _ ks r hpure _ hr hmet hks _ _ hs =>
    obtain ⟨h₁, he⟩ := h.of_met hop.reads_args hmet
    have hk := hmet.keeps
    have hop₁ : op.Comes T defined o₁.pool.nextGuard o₁.pool.nextBox := by
      rwa [hk.nextGuard, hk.nextBox]
    exact (h₁.computed hsettles hop₁ hpure hr hks hs).of_extends he

/-! ### All passes -/

theorem sends_placed (hsend : Sends base start send) : Sends base start (Placed send) := by
  rintro T defined op o o' h hop ⟨chain, cursor, o₂, hs, rfl⟩
  have h₁ : Working T base start defined {o with chain, cursor} := { h with }
  obtain ⟨T', hT, h₂, he⟩ := hsend h₁ hop hs
  exact ⟨T', hT, { h₂ with }, { he with }⟩

theorem settles_placed (hsettles : Settles base start send) :
    Settles base start (Placed send) where
  operand := by
    rintro T defined op o o' h hop ⟨chain, cursor, o₂, hs, rfl⟩
    have h₁ : Working T base start defined {o with chain, cursor} := { h with }
    have hsame := hsettles.operand h₁ hop hs
    exact hsame
  computed := by
    rintro op o o' ks hkeeps hpure hplain hks ⟨chain, cursor, o₂, hs, rfl⟩
    obtain ⟨events, rfl⟩ :=
      hsettles.computed (o := {o with chain, cursor}) hkeeps hpure hplain hks hs
    exact ⟨events, rfl⟩

theorem sends_nil : Sends base start (Handled []) :=
  sends_placed Working.sends_emit

theorem settles_nil : Settles base start (Handled []) :=
  settles_placed (settles_emit base start)

theorem handled_virtualize (base start : List Box) (c : Config) :
    Sends base start (Handled (if c.virtualize then [.virtualize] else [])) ∧
      Settles base start (Handled (if c.virtualize then [.virtualize] else [])) := by
  cases c.virtualize with
  | false => exact ⟨sends_nil, settles_nil⟩
  | true =>
    exact ⟨sends_placed (sends_virtualized sends_nil),
      settles_placed (settles_virtualized settles_nil)⟩

/-- Whatever comes next is dealt with by the passes behind peeling. -/
theorem sends_handled (c : Config) : Sends base start (Handled c.behind) := by
  obtain ⟨hsend, hsettles⟩ := handled_virtualize base start c
  unfold Config.behind
  cases c.rewrite with
  | false => exact hsend
  | true => exact sends_placed (sends_rewritten hsend hsettles)

/-! ### The operation that ends the list -/

/-- The operation that ends the list was written behind what was forced in front of it. -/
def Ended (T : FrameTable) (base start defined : List Box) (op : Operation)
    (o o' : Optimizer) : Prop :=
  ∃ (T' : FrameTable) (out : Array Operation) (op' : Operation), T.Extends T' ∧ Extends o o' ∧
    T'.Below o'.pool.nextFrame ∧
    Built o.pool.nextGuard T' base start defined o'.values out.toList ∧
    o'.out = out.push op' ∧
    op.Renders (fun a a' => a'.kind = a.kind ∧
      o'.values.Ready (base ++ results out.toList) start a') T' op' ∧
    op'.result = op.result ∧ op'.guard?.map (·.1) = op.guard?.map (·.1)

/-- Whatever comes last is written. -/
def Concludes (base start : List Box) (send : Operation → Optimizer → Optimizer → Prop) : Prop :=
  ∀ ⦃T defined op o o'⦄, Working T base start defined o → op.Fits defined →
    op.opcode.isFinal = true → op.snapshot.In T → send op o o' →
    Ended T base start defined op o o'

theorem concludes_emit :
    Concludes base start fun op o o' => o' = ((emit op).run o).2 := by
  rintro T defined op o _ h hop _ hframes rfl
  obtain ⟨o₁, op', T', supply, events, hbuilt, hforced, hT, hsink, hrenders, hresult, hguard,
    he⟩ := (h.emit_yields hop.reads hframes).written
  rw [he]
  exact ⟨T', o₁.out, op', hT,
    ⟨hforced.values.later, hforced.grows.trans (by simp)⟩, hsink.below, hbuilt, rfl,
    hrenders, hresult, hguard⟩

theorem Ended.of_met {T : FrameTable} {defined : List Box} {op : Operation} {o o₁ o' : Optimizer}
    (hmet : Met op.args o o₁) (he : Extends o o₁) (h : Ended T base start defined op o₁ o') :
    Ended T base start defined op o o' := by
  obtain ⟨T', out, op', hT, he', hbelow, hbuilt, hrest⟩ := h
  exact ⟨T', out, op', hT, he.trans he', hbelow, by rwa [← hmet.keeps.nextGuard], hrest⟩

theorem of_met_args {T : FrameTable} {defined : List Box} {op : Operation} {o o₁ : Optimizer}
    (h : Working T base start defined o) (hop : op.Fits defined) (hmet : Met op.args o o₁) :
    Working T base start defined o₁ ∧ Extends o o₁ :=
  h.of_met (fun b hb => hop.reads b (by simp [Operation.usedArgs, hb])) hmet

theorem concludes_virtualized (hsend : Concludes base start send) :
    Concludes base start (Virtualize.Virtualized send) := by
  intro T defined op o o' h hop hfinal hframes hthrough
  cases hthrough with
  | passed hmet _ hs =>
    obtain ⟨h₁, he⟩ := of_met_args h hop hmet
    exact (hsend h₁ hop hfinal hframes hs).of_met hmet he
  | held hnew =>
    rw [hnew] at hfinal
    cases hfinal
  | written hset =>
    rw [hset] at hfinal
    cases hfinal
  | read hget | readZero hget => rcases hget with hget | hget <;> rw [hget] at hfinal <;> cases hfinal

theorem concludes_rewritten (hsend : Concludes base start send) :
    Concludes base start (Rewrite.Rewritten send) := by
  intro T defined op o o' h hop hfinal hframes hthrough
  have hguard : op.isGuard = false := Opcode.isGuard_eq_false_of_isFinal hfinal
  have hpure : op.opcode.isAlwaysPure = false := Opcode.isAlwaysPure_eq_false_of_isFinal hfinal
  cases hthrough with
  | passed hmet _ hs =>
    obtain ⟨h₁, he⟩ := of_met_args h hop hmet
    exact (hsend h₁ hop hfinal hframes hs).of_met hmet he
  | dropped _ hi => rw [hi.isGuard] at hguard; cases hguard
  | kept _ ht => rw [ht.isGuard] at hguard; cases hguard
  | unraised hno | checked hno => rw [hno] at hfinal; cases hfinal
  | called hcall => rw [hcall] at hfinal; cases hfinal
  | aliased hsame => rw [hsame] at hfinal; cases hfinal
  | folded hp | reused hp | computed hp => rw [hp] at hpure; cases hpure

theorem concludes_placed (hsend : Concludes base start send) :
    Concludes base start (Placed send) := by
  rintro T defined op o o' h hop hfinal hframes ⟨chain, cursor, o₂, hs, rfl⟩
  have h₁ : Working T base start defined {o with chain, cursor} := { h with }
  obtain ⟨T', out, op', hT, he, hrest⟩ := hsend h₁ hop hfinal hframes hs
  exact ⟨T', out, op', hT, { he with }, hrest⟩

theorem concludes_handled (c : Config) : Concludes base start (Handled c.behind) := by
  unfold Config.behind
  have hnil : Concludes base start (Handled []) := concludes_placed concludes_emit
  have hvirtualize := concludes_placed (concludes_virtualized hnil)
  cases c.rewrite <;> cases c.virtualize
  · exact hnil
  · exact hvirtualize
  · exact concludes_placed (concludes_rewritten hnil)
  · exact concludes_placed (concludes_rewritten hvirtualize)

end Passes
end Optimizer
end TracePeel
