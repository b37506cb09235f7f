import TracePeel.Proofs.Completed
import TracePeel.Proofs.Heap.Settling

/-! Removing allocations keeps what a run shows.

The trace and the list written for it run side by side over two heaps. An operation that is
written does the same in both, since all that it can reach is the same in both; one that is
settled in the table changes the first run in a way that the table records. So both runs show
the same, to their ends. -/
namespace TracePeel
open Machine

namespace Optimizer
open Relinker

variable {σ : Type} {w : Outside σ} {s₀ s s₁ s' : State σ} {shown : List Observation}
  {base met : List Box} {source : List Operation} {T T' : FrameTable} {o o₁ o' : Optimizer}
  {op : Operation} {a a' : Operand}

/-- The boxes that the written list can read. -/
def written (base : List Box) (o : Optimizer) : List Box :=
  base ++ results o.out.toList

/-- The run of the written list is behind the run of the trace by what is held back. -/
structure Follows (w : Outside σ) (s₀ : State σ) (shown : List Observation) (base met : List Box)
    (source : List Operation) (s : State σ) (o : Optimizer) (s' : State σ) : Prop where
  run : w.run o.out.toList s₀ = (shown, some s')
  table : o.values.Sealed (fun _ => False) (· ∈ met) source
  tracks : o.values.Tracks s
  mirrors : o.values.Mirrors (fun _ => False) met (written base o) s s'

/-- An operand is written as one that holds the same and that the list can read. -/
structure Replaced (s : State σ) (base met : List Box) (o : Optimizer) (a a' : Operand) :
    Prop where
  same : s.value a' = s.value a
  met : ∀ b, a = .box b → b ∈ met
  written : ∀ b, a' = .box b → b ∈ o.written base

/-- The list grows, and its relinker stays. -/
structure Grows (o o' : Optimizer) : Prop where
  sink : o'.sink = o.sink
  pool : o'.pool = o.pool
  out : o.out.toList <+: o'.out.toList

theorem Grows.written (h : Grows o o') : o.written base ⊆ o'.written base := fun b hb => by
  rcases List.mem_append.1 hb with hb | hb
  · exact List.mem_append_left _ hb
  · exact List.mem_append_right _ (results_subset h.out hb)

theorem persists_replaced (s : State σ) (base met : List Box) :
    Persists Grows (Replaced s base met) where
  refl _ := ⟨rfl, rfl, List.prefix_refl _⟩
  trans h₁ h₂ := ⟨h₂.sink.trans h₁.sink, h₂.pool.trans h₁.pool, h₁.out.trans h₂.out⟩
  keep h hr := ⟨hr.same, hr.met, fun b hb => h.written (hr.written b hb)⟩

/-- What a box is written as holds what the box holds. -/
theorem forwardBox_follows (h : Follows w s₀ shown base met source s o s') {b : Box}
    (hb : b ∈ met) :
    Yields (forwardBox b) o fun a o' =>
      (∃ s'', Follows w s₀ shown base met source s o' s'') ∧ Grows o o' ∧
        Replaced s base met o' (.box b) a := by
  unfold forwardBox
  rw [yields_bind, yields_get]
  split
  next id hid =>
    unfold force
    rw [yields_modifyGet]
    have hp := o.values.force_performs id o.out
    obtain ⟨s'', hrun, hm, -, -⟩ := hp.mirrors h.table not_false h.tracks h.run h.mirrors trivial
    refine ⟨⟨s'', hrun, h.table.forced hp.forced, h.tracks.forced hp.forced, hm⟩,
      ⟨rfl, rfl, hp.out_grows⟩, ?_, by rintro _ ⟨⟩; exact hb, fun b' hb' => ?_⟩
    · show s.value (o.values.force id o.out).1 = _
      rw [o.values.force_operand]
      exact (h.tracks.same (.box b) id hid).symm
    · have hoperand : (o.values.force id o.out).1 = .box b' := hb'
      rw [o.values.force_operand, ← hp.forced.operand] at hoperand
      exact hm.real id b' hoperand hp.virtual_eq_none
  next hnone =>
    refine ⟨⟨s', h⟩, (persists_replaced s base met).refl o, rfl, by rintro _ ⟨⟩; exact hb, ?_⟩
    rintro _ ⟨⟩
    exact h.mirrors.unmet b hb hnone

/-! ### The trace goes on -/

theorem result_eq_none (hop : op.Fits met) (h : op.opcode = .setfieldGc ∨ op.isGuard = true) :
    op.result = none := by
  refine hop.no_result ?_
  rcases h with h | h
  · rw [h]
    rfl
  · exact Opcode.hasResult_eq_false_of_isGuard h

/-- An operation defines none of the boxes that were met. -/
theorem env_of_step (hop : op.Fits met) (hstep : (w.step op s).2 = some s₁) :
    ∀ b ∈ met, s₁.env b = s.env b := by
  have hwithin : Within (fun _ => True) s := ⟨fun _ => trivial, fun _ _ _ _ _ => trivial,
    fun _ _ => trivial⟩
  have hsteps := hwithin.step (fun _ _ => trivial) (fun _ _ _ => trivial) (result_eq_none hop) hstep
  exact fun b hb => hsteps.env b fun hr => (hop.produced b hr).2.2 hb

/-- What stood for an operand still does when the trace goes on. -/
theorem Replaced.go (h : Replaced s base met o a a') (hwritten : ∀ b ∈ o.written base, b ∈ met)
    (henv : ∀ b ∈ met, s₁.env b = s.env b) (hout : o.written base ⊆ o'.written base)
    (more : List Box) : Replaced s₁ base (more ++ met) o' a a' := by
  refine ⟨?_, fun b hb => List.mem_append_right _ (h.met b hb), fun b hb => hout (h.written b hb)⟩
  have hsame := h.same
  cases ha : a with
  | const c =>
    cases ha' : a' with
    | const c' => rwa [ha, ha'] at hsame
    | box b =>
      rw [ha, ha'] at hsame
      exact (henv b (hwritten b (h.written b ha'))).trans hsame
  | box b =>
    rw [ha] at hsame
    refine Eq.trans ?_ (hsame.trans (henv b (h.met b ha)).symm)
    cases ha' : a' with
    | const c' => rfl
    | box b' => exact henv b' (hwritten b' (h.written b' ha'))

/-- Both runs stand at a point of the trace, or both were left. -/
inductive Beside (w : Outside σ) (s₀ : State σ) (base met : List Box) (source : List Operation)
    (T : FrameTable) (p : Progress σ) (o : Optimizer) : Prop
  | left {shown : List Observation} : p = (shown, none) → w.run o.out.toList s₀ = (shown, none) →
      Beside w s₀ base met source T p o
  | on {shown : List Observation} {s s' : State σ} {T' : FrameTable} : p = (shown, some s) →
      Follows w s₀ shown base met source s o s' → Born met s → T.Extends T' →
      Sound (Replaced s base met o) T' o.supply → Beside w s₀ base met source T p o

/-- Both runs are at an operation that comes next. -/
structure Facing (w : Outside σ) (s₀ : State σ) (shown : List Observation) (base met : List Box)
    (source : List Operation) (T : FrameTable) (s : State σ) (o : Optimizer) (s' : State σ)
    (op : Operation) : Prop where
  follows : Follows w s₀ shown base met source s o s'
  born : Born met s
  sound : ∃ T', T.Extends T' ∧ Sound (Replaced s base met o) T' o.supply
  fits : op.Fits met
  plain : op.Plain
  frames : op.snapshot.In T
  source : op ∈ source
  intact : o.Intact

theorem map_eq_of_forall₂ {α β γ : Type} {f : α → γ} {g : β → γ} {as : List α} {bs : List β}
    (h : List.Forall₂ (fun a b => g b = f a) as bs) : bs.map g = as.map f := by
  induction h with
  | nil => rfl
  | cons hab _ ih => rw [List.map_cons, List.map_cons, hab, ih]

/-- An operation that is written reads in the second run what it reads in the first. -/
theorem readsAlike_of_renders (h : Follows w s₀ shown base met source s o s') {op' : Operation}
    (hplain : op.Plain) (hrend : op.Renders (Replaced s base met o) T op')
    (hresult : op'.result = op.result)
    (hnumber : op'.guard?.map (·.1) = op.guard?.map (·.1)) : ReadsAlike s s' op op' := by
  have hvalue : ∀ a a', Replaced s base met o a a' → s'.value a' = s.value a := by
    intro a a' ha
    refine Eq.trans ?_ ha.same
    cases a' with
    | const c => rfl
    | box b => exact h.mirrors.env b (ha.written b rfl)
  refine ⟨hrend.opcode, hresult, map_eq_of_forall₂ (hrend.args.imp hvalue), ?_,
    map_eq_of_forall₂ (hrend.snapshot.imp fun _ _ hf => map_eq_of_forall₂ (hf.imp hvalue)), hnumber,
    fun hguard => ?_⟩
  · have hfail := hrend.failArgs
    generalize op.failArgs = fs, op'.failArgs = fs' at hfail ⊢
    cases hfail with
    | none => rfl
    | some hf => exact congrArg some (map_eq_of_forall₂ (hf.imp hvalue))
  · have hno := (hplain hguard).2
    have hdescr := hrend.descr
    unfold Operation.guard? at hno
    generalize op.descr = d, op'.descr = d' at hno hdescr ⊢
    cases hdescr with
    | same _ => rfl
    | guard _ _ => cases hno

/-- An operation that is written does the same in both runs. -/
theorem Facing.emit (h : Facing w s₀ shown base met source T s o s' op) :
    Beside w s₀ base (op.result.toList ++ met) source T (Progress.andThen (shown, some s) (w.step op))
      ((emit op).run o).2 := by
  obtain ⟨T', hT, hsound⟩ := h.sound
  obtain ⟨o₁, op', T₁, supply, events, ⟨s₁', h₁⟩, hgrows, hT₁, hsound₁, hrend, hresult, hnumber,
      hwrote⟩ :=
    emit_yields (I := fun o => ∃ s', Follows w s₀ shown base met source s o s')
      (persists_replaced s base met) (fun _ c => ⟨rfl, by rintro _ ⟨⟩, by rintro _ ⟨⟩⟩)
      (fun hg => ⟨hg.sink, hg.pool⟩) (h.frames.mono hT)
      (fun b hb o ⟨_, ho⟩ => forwardBox_follows ho (h.fits.reads b hb)) ⟨s', h.follows⟩ hsound
  generalize ((Optimizer.emit op).run o).2 = o' at hwrote ⊢
  have hout : o'.out = o₁.out.push op' := by rw [hwrote]
  have hvalues : o'.values = o₁.values := by rw [hwrote]
  have hsupply : o'.supply = supply := by
    rw [hwrote]
    rfl
  have hrun : w.run o'.out.toList s₀ = Progress.andThen (shown, some s₁') (w.step op') := by
    rw [hout, Array.toList_push, run_snoc, h₁.run]
  have hwritten : o'.written base = o₁.written base ++ op.result.toList := by
    simp [written, hout, hresult]
  -- What is not held back is closed, and it is what both runs can read.
  have hwithin : Within (fun a => ¬ o₁.values.Holds a) s :=
    ⟨Values.not_holds_const, fun a name b ha hb => h₁.mirrors.shut a name b ha not_false hb,
      h₁.mirrors.hidden⟩
  have hagree : Agree (fun a => ¬ o₁.values.Holds a) s s₁' :=
    ⟨fun a ha => h₁.mirrors.heap a ha not_false, h₁.mirrors.exposed, h₁.mirrors.outside⟩
  have halike := readsAlike_of_renders h₁ h.plain hrend hresult hnumber
  have hused : ∀ a ∈ op.usedArgs, ¬ o₁.values.Holds (s.value a) := by
    intro a ha
    obtain ⟨a', -, hr⟩ := exists_right_of_mem hrend.usedArgs ha
    rw [← hr.same]
    cases a' with
    | const c => exact Values.not_holds_const c
    | box b => exact h₁.mirrors.reads b (hr.written b rfl)
  have hinStep := hagree.step (w := w) hwithin halike hused (result_eq_none h.fits)
  obtain ⟨hn, hn'⟩ | ⟨s₂, s₂', hn, hn', hagree₂, hres, henv'⟩ := hinStep.next
  · have hleft : Progress.andThen (shown, some s) (w.step op) = (shown ++ (w.step op s).1, none) := by
      simp [Progress.andThen, hn]
    refine .left hleft ?_
    rw [hrun]
    simp [Progress.andThen, hn', hinStep.shown]
  · have hsteps := hwithin.step (w := w) (fun a ha => hused a (by simp [Operation.usedArgs, ha]))
      (fun _ r hr => ?_) (result_eq_none h.fits) hn
    · have henv := env_of_step h.fits hn
      have hmirrors := h₁.mirrors.go (fun r hr => (h.fits.produced r hr).2.2) hsteps hagree₂ hres
        henv'
      have hon : Progress.andThen (shown, some s) (w.step op) =
          (shown ++ (w.step op s).1, some s₂) := by
        simp [Progress.andThen, hn]
      have hfollows : Follows w s₀ (shown ++ (w.step op s).1) base (op.result.toList ++ met) source
          s₂ o' s₂' := by
        refine ⟨?_, ?_, ?_, ?_⟩
        · rw [hrun]
          simp [Progress.andThen, hn', hinStep.shown]
        · rw [hvalues]
          exact h₁.table.mono (fun _ hb => List.mem_append_right _ hb) (List.Subset.refl _)
        · rw [hvalues]
          exact h₁.tracks.go h₁.table henv fun a ha => hsteps.heap a (not_not.2 ha)
        · rwa [hvalues, hwritten]
      refine .on hon hfollows (h.born.step (result_eq_none h.fits) hn) (hT.trans hT₁) ?_
      rw [hsupply]
      refine hsound₁.mono fun _ _ hr => hr.go h₁.mirrors.known henv ?_ _
      rw [hwritten]
      exact List.subset_append_left ..
    · rintro ⟨id, object, r', hv, ho, he⟩
      cases he
      exact (h.fits.produced r hr).2.2 (h₁.table.seen r id (h₁.table.home id r ho))

/-! ### One operation -/

theorem Follows.meet (h : Follows w s₀ shown base met source s o s') (hi : o.Intact) {a : Operand}
    (ha : ∀ b, a = .box b → b ∈ met) : Follows w s₀ shown base met source s (o.met a) s' :=
  ⟨h.run, (h.table.valueOf a ha).table, h.tracks.valueOf hi.values a, h.mirrors.valueOf ha⟩

theorem Facing.reads (h : Facing w s₀ shown base met source T s o s' op) {a : Operand}
    (ha : a ∈ op.args) : ∀ b, a = .box b → b ∈ met := by
  rintro b rfl
  exact h.fits.reads b (by simp [Operation.usedArgs, ha])

theorem Facing.meet (h : Facing w s₀ shown base met source T s o s' op) {a : Operand}
    (ha : a ∈ op.args) : Facing w s₀ shown base met source T s (o.met a) s' op :=
  {h with
    follows := h.follows.meet h.intact (h.reads ha)
    sound := by
      obtain ⟨T', hT, hsound⟩ := h.sound
      exact ⟨T', hT, hsound.mono fun _ _ hr => ⟨hr.same, hr.met, hr.written⟩⟩
    intact := h.intact.met a }

theorem Facing.of_met (h : Facing w s₀ shown base met source T s o s' op)
    (hmet : Met op.args o o₁) : Facing w s₀ shown base met source T s o₁ s' op := by
  induction hmet with
  | refl => exact h
  | more _ ha ih => exact ih.meet ha

/-- What an operation produces was not met. -/
theorem Facing.unmet (h : Facing w s₀ shown base met source T s o s' op) {r : Box}
    (hr : op.result = some r) : o.values.index.get? (.box r) = none ∧ r ∉ met := by
  have hnew := (h.fits.produced r hr).2.2
  refine ⟨?_, hnew⟩
  cases hid : o.values.index.get? (.box r) with
  | none => rfl
  | some id => exact absurd (h.follows.table.seen r id hid) hnew

/-- An operation that is settled in the table shows nothing. -/
theorem Facing.settle (h : Facing w s₀ shown base met source T s o s' op)
    (hstep : w.step op s = ([], some s₁)) (hlist : SameList o o')
    (hfollows : Follows w s₀ shown base (op.result.toList ++ met) source s₁ o' s') :
    Beside w s₀ base (op.result.toList ++ met) source T
      (Progress.andThen (shown, some s) (w.step op)) o' := by
  obtain ⟨T', hT, hsound⟩ := h.sound
  have hn : (w.step op s).2 = some s₁ := by rw [hstep]
  have hwritten : o'.written base = o.written base := by rw [written, written, hlist.out]
  have hsupply : o'.supply = o.supply := by rw [supply, supply, hlist.sink, hlist.pool]
  refine .on (by simp [hstep, Progress.andThen]) hfollows
    (h.born.step (result_eq_none h.fits) hn) hT ?_
  rw [hsupply]
  exact hsound.mono fun _ _ hr => hr.go h.follows.mirrors.known (env_of_step h.fits hn)
    (by rw [hwritten]; exact List.Subset.refl _) _

/-- An allocation is held back. -/
theorem Facing.hold (h : Facing w s₀ shown base met source T s o s' op) {r : Box}
    (hnew : op.opcode = .new) (hr : op.result = some r) {o' : Optimizer} (hlist : SameList o o')
    (hvalues : o'.values = (o.values.makeVirtual op).2) :
    Beside w s₀ base (op.result.toList ++ met) source T
      (Progress.andThen (shown, some s) (w.step op)) o' := by
  obtain ⟨hnone, hfresh⟩ := h.unmet hr
  have hf := h.follows
  have hmet : op.result.toList ++ met = r :: met := by simp [hr]
  have hstep : w.step op s = ([], some (s.make (some r))) := by rw [Values.step_make hnew, hr]
  refine h.settle hstep hlist ⟨?_, ?_, ?_, ?_⟩
  · rw [hlist.out]
    exact hf.run
  · rw [hvalues]
    exact ((hf.table.mono (fun _ hb => List.mem_append_right _ hb)
      (List.Subset.refl _)).makeVirtual hnew hr h.source hnone (by simp [hr])).table
  · rw [hvalues, Values.makeVirtual_new hr hnone]
    exact hf.tracks.hold h.intact.values hf.table hfresh rfl (by rintro _ ⟨⟩; rfl)
  · rw [hvalues, Values.makeVirtual_new hr hnone, hmet, written, hlist.out]
    exact hf.mirrors.hold h.born hfresh rfl (Option.some_ne_none _) fun _ => not_false

/-- What an operand stands for when it is met. -/
theorem Facing.same (h : Facing w s₀ shown base met source T s o s' op) {a : Operand}
    (ha : a ∈ op.args) : s.value a = (o.met a).values.means s (o.idOf a) :=
  (h.meet ha).follows.tracks.same a _ (index_met o a)

/-- A field of an object that is held back is written. -/
theorem Facing.write (h : Facing w s₀ shown base met source T s o s' op) {object value : Operand}
    {rest : List Operand} {name : String} (hset : op.opcode = .setfieldGc)
    (hargs : op.args = object :: value :: rest) (hname : op.descrName? = some name)
    (hv : (o.slotOf object).isVirtual = true) :
    Beside w s₀ base (op.result.toList ++ met) source T
      (Progress.andThen (shown, some s) (w.step op))
      {(o.met object).met value with
        values := ((o.met object).met value).values.setField (o.idOf object) name
          ((o.met object).idOf value)} := by
  have hobject : object ∈ op.args := by simp [hargs]
  have hvalue : value ∈ op.args := by simp [hargs]
  have h₁ := h.meet hobject
  have h₂ := h₁.meet hvalue
  obtain ⟨held, hheld⟩ := Option.isSome_iff_exists.1 hv
  obtain ⟨r, -, ho⟩ := (h₁.follows.table.held _ held not_false hheld).stands
  have hslot : ((o.met object).met value).values.slot (o.idOf object) = o.slotOf object :=
    Values.slot_valueOf value (h.intact.idOf_lt object)
  have hread : s.value object = .made r := by
    rw [h.same hobject, Values.means, ho]
    exact h₁.follows.tracks.made _ held r hheld ho
  have hstep : w.step op s = ([], some (s.write (some name)
      [.made r, ((o.met object).met value).values.means s ((o.met object).idOf value)])) := by
    rw [← hread, ← h₁.same hvalue]
    unfold Outside.step
    rw [hset, hargs, hname]
    rfl
  have hnone : op.result = none := result_eq_none h.fits (.inl hset)
  have hf := h₂.follows
  rw [← hslot] at hheld
  have ho' : (((o.met object).met value).values.slot (o.idOf object)).operand = .box r := hslot ▸ ho
  refine h₂.settle hstep ⟨rfl, rfl, rfl⟩ ⟨hf.run, ?_, ?_, ?_⟩
  · exact ((hf.table.mono (fun _ hb => List.mem_append_right _ hb) (List.Subset.refl _)).setField
      not_false not_false ⟨op, h.source, hset, hname⟩).table
  · exact hf.tracks.setField hf.table hheld ho' name
  · rw [hnone]
    exact hf.mirrors.setField hheld ho' name _

/-- What a field of an object that is held back reads as. -/
theorem Facing.field (h : Facing w s₀ shown base met source T s o s' op) {object : Operand}
    {rest : List Operand} (hargs : op.args = object :: rest)
    (hv : (o.slotOf object).isVirtual = true) (name : String) (kind : Kind) :
    s.read (some name) (op.args.map s.value) kind =
      match (o.met object).values.field? (o.idOf object) name with
      | some value => (o.met object).values.means s value
      | none => .const (.zero kind) := by
  have hobject : object ∈ op.args := by simp [hargs]
  have h₁ := h.meet hobject
  obtain ⟨held, hheld⟩ := Option.isSome_iff_exists.1 hv
  obtain ⟨r, -, ho⟩ := (h₁.follows.table.held _ held not_false hheld).stands
  have hread : s.value object = .made r := by
    rw [h.same hobject, Values.means, ho]
    exact h₁.follows.tracks.made _ held r hheld ho
  have hfields := h₁.follows.tracks.fields _ held r hheld ho
  have hfield : (o.met object).values.field? (o.idOf object) name = held.fields.get? name := by
    unfold Values.field?
    rw [show ((o.met object).values.slot (o.idOf object)).virtual = some held from hheld]
    rfl
  rw [hargs, hfield]
  show ((s.heap (s.value object) (some name))).getD _ = _
  rw [hread, hfields]
  show (((held.fields.get? name).map _)).getD _ = _
  cases held.fields.get? name <;> rfl

theorem step_read (hget : op.opcode = .getfieldGc ∨ op.opcode = .getfieldGcPure) (s : State σ) :
    w.step op s =
      ([], some (s.define op.result fun r => s.read op.descrName? (op.args.map s.value) r.kind)) := by
  unfold Outside.step
  rcases hget with hget | hget <;> rw [hget] <;> rfl

/-- A field of an object that is held back is read: the result stands for what was written. -/
theorem Facing.read (h : Facing w s₀ shown base met source T s o s' op) {object : Operand}
    {rest : List Operand} {r : Box} {name : String} {value : ValueId}
    (hget : op.opcode = .getfieldGc ∨ op.opcode = .getfieldGcPure)
    (hargs : op.args = object :: rest) (hr : op.result = some r) (hname : op.descrName? = some name)
    (hv : (o.slotOf object).isVirtual = true)
    (hfield : (o.met object).values.field? (o.idOf object) name = some value) :
    Beside w s₀ base (op.result.toList ++ met) source T
      (Progress.andThen (shown, some s) (w.step op))
      {o.met object with values := (o.met object).values.forward r value} := by
  have hobject : object ∈ op.args := by simp [hargs]
  have h₁ := h.meet hobject
  obtain ⟨hnone, hfresh⟩ := h₁.unmet hr
  have hmet : op.result.toList ++ met = r :: met := by simp [hr]
  have hread := h.field hargs hv name
  rw [hfield] at hread
  have hstep := step_read (w := w) hget s
  rw [hr, hname] at hstep
  have henv := env_of_step h.fits (by rw [hstep])
  have hf := h₁.follows
  have htracks := hf.tracks.go hf.table henv fun _ _ => rfl
  refine h₁.settle hstep ⟨rfl, rfl, rfl⟩ ⟨hf.run, ?_, ?_, ?_⟩
  · exact ((hf.table.mono (fun _ hb => List.mem_append_right _ hb) (List.Subset.refl _)).forward
      hnone not_false (h₁.intact.values.field?_lt hfield) (by simp [hr])).table
  · refine htracks.forward ?_
    rw [Values.means_eq hf.table henv]
    exact (if_pos rfl).trans (hread r.kind)
  · rw [hmet]
    refine ((hf.mirrors.define hfresh _).forward value).meet ?_
    rw [Values.index_forward, if_pos rfl]
    exact Option.some_ne_none _

/-- A field that was not written is read: the result is zero. -/
theorem Facing.readZero (h : Facing w s₀ shown base met source T s o s' op) {object : Operand}
    {rest : List Operand} {r : Box} {name : String}
    (hget : op.opcode = .getfieldGc ∨ op.opcode = .getfieldGcPure)
    (hargs : op.args = object :: rest) (hr : op.result = some r) (hname : op.descrName? = some name)
    (hv : (o.slotOf object).isVirtual = true)
    (hfield : (o.met object).values.field? (o.idOf object) name = none) :
    Beside w s₀ base (op.result.toList ++ met) source T
      (Progress.andThen (shown, some s) (w.step op))
      {(o.met object).met (.box r) with
        values := ((o.met object).met (.box r)).values.makeConstant ((o.met object).idOf (.box r))
          (.zero r.kind)} := by
  have hobject : object ∈ op.args := by simp [hargs]
  have h₁ := h.meet hobject
  obtain ⟨hnone, hfresh⟩ := h₁.unmet hr
  have hmet : op.result.toList ++ met = r :: met := by simp [hr]
  have hread := h.field hargs hv name
  rw [hfield] at hread
  have hstep := step_read (w := w) hget s
  rw [hr, hname] at hstep
  have henv := env_of_step h.fits (by rw [hstep])
  have hf := h₁.follows
  have htracks := hf.tracks.go hf.table henv fun _ _ => rfl
  have hvalues : ((o.met object).met (.box r)).values.makeConstant ((o.met object).idOf (.box r))
      (.zero r.kind) = (o.met object).values.push (.box r)
        {Values.fresh (.box r) with operand := .const (.zero r.kind), level := .constant} := by
    unfold Optimizer.met idOf
    exact Values.makeConstant_new hnone _
  refine h₁.settle hstep ⟨rfl, rfl, rfl⟩ ⟨hf.run, ?_, ?_, ?_⟩
  · have htable : (o.met object).values.Sealed (fun _ => False) (· ∈ op.result.toList ++ met)
        source := hf.table.mono (fun _ hb => List.mem_append_right _ hb) (List.Subset.refl _)
    exact ((htable.valueOf (.box r) (by rintro _ ⟨⟩; simp [hr])).table.makeConstant not_false _).table
  · rw [hvalues]
    refine htracks.push h₁.intact.values ?_ fun _ hv => absurd hv (Option.some_ne_none _).symm
    exact ((if_pos rfl).trans (hread r.kind)).symm
  · rw [hvalues, hmet]
    refine ((hf.mirrors.define hfresh _).push rfl (by rintro _ ⟨⟩)).meet ?_
    rw [Values.index_push, if_pos rfl]
    exact Option.some_ne_none _

/-! ### Through the pass -/

theorem Facing.placed (h : Facing w s₀ shown base met source T s o s' op) (chain : Array Stage)
    (cursor : Nat) : Facing w s₀ shown base met source T s {o with chain, cursor} s' op where
  follows := ⟨h.follows.run, h.follows.table, h.follows.tracks, h.follows.mirrors⟩
  born := h.born
  sound := by
    obtain ⟨T', hT, hsound⟩ := h.sound
    exact ⟨T', hT, hsound.mono fun _ _ hr => ⟨hr.same, hr.met, hr.written⟩⟩
  fits := h.fits
  plain := h.plain
  frames := h.frames
  source := h.source
  intact := ⟨h.intact.values, h.intact.known⟩

theorem Beside.placed {p : Progress σ} (h : Beside w s₀ base met source T p o)
    (chain : Array Stage) (cursor : Nat) :
    Beside w s₀ base met source T p {o with chain, cursor} := by
  cases h with
  | left hp hrun => exact .left hp hrun
  | on hp hf hborn hT hsound =>
    exact .on hp ⟨hf.run, hf.table, hf.tracks, hf.mirrors⟩ hborn hT
      (hsound.mono fun _ _ hr => ⟨hr.same, hr.met, hr.written⟩)

/-- One operation through allocation removal. -/
theorem Facing.handled (h : Facing w s₀ shown base met source T s o s' op)
    (hs : Handled [.virtualize] op o o') :
    Beside w s₀ base (op.result.toList ++ met) source T
      (Progress.andThen (shown, some s) (w.step op)) o' := by
  obtain ⟨chain, cursor, o₂, hs, rfl⟩ := hs
  refine .placed ?_ _ _
  have h := h.placed chain cursor
  generalize ({o with chain, cursor} : Optimizer) = o at h hs
  cases hs with
  | passed hmet _ hs =>
    obtain ⟨chain, cursor, o₃, rfl, rfl⟩ := hs
    exact ((h.of_met hmet).placed chain cursor).emit.placed _ _
  | held hnew hr => exact h.hold hnew hr ⟨rfl, rfl, rfl⟩ rfl
  | written hset hargs hname hv => exact h.write hset hargs hname hv
  | read hget hargs hr hname hv hfield _ => exact h.read hget hargs hr hname hv hfield
  | readZero hget hargs hr hname hv hfield => exact h.readZero hget hargs hr hname hv hfield

/-- Where the runs stand side by side, they do behind one more operation. -/
theorem Beside.handled {p : Progress σ} (h : Beside w s₀ base met source T p o) (hi : o.Intact)
    (hop : op.Fits met) (hplain : op.Plain) (hframes : op.snapshot.In T) (hsource : op ∈ source)
    (hs : Handled [.virtualize] op o o') :
    Beside w s₀ base (op.result.toList ++ met) source T (p.andThen (w.step op)) o' := by
  cases h with
  | left hp hrun =>
    refine .left (by rw [hp]; rfl) (run_of_left hrun ?_)
    rcases (settled_handled _ _ _ _ hi hs).2.list with hlist | ⟨forced, -, hout, -⟩
    · rw [hlist.out]
    · rw [hout, List.append_assoc]
      exact List.prefix_append ..
  | on hp hf hborn hT hsound =>
    rw [hp]
    exact Facing.handled ⟨hf, hborn, ⟨_, hT, hsound⟩, hop, hplain, hframes, hsource, hi⟩ hs

/-- Some operations, one behind the other. -/
theorem Processed.beside {ops : List Operation} (h : Processed [.virtualize] ops o o')
    {p : Progress σ} (hbeside : Beside w s₀ base met source T p o) (hi : o.Intact)
    (hfits : ∀ k (op : Operation), ops[k]? = some op → op.Fits (results (ops.take k) ++ met))
    (hplain : ∀ op ∈ ops, op.Plain) (hframes : ∀ op ∈ ops, op.snapshot.In T)
    (hsource : ops ⊆ source) :
    ∃ met', Beside w s₀ base met' source T (p.andThen (w.run ops)) o' := by
  induction h generalizing met p with
  | nil => exact ⟨met, by rwa [show w.run [] = fun s => ([], some s) from rfl, andThen_start]⟩
  | @cons op ops o o₁ o' hs _ ih =>
    have h₁ := hbeside.handled hi (by simpa using hfits 0 op rfl) (hplain op (List.mem_cons_self ..))
      (hframes op (List.mem_cons_self ..)) (hsource (List.mem_cons_self ..)) hs
    obtain ⟨met', h'⟩ := ih h₁ (settled_handled _ _ _ _ hi hs).1
      (fun k op' hop' => (hfits (k + 1) op' hop').congr fun b => by simp [or_left_comm])
      (fun op hop => hplain op (.tail _ hop)) (fun op hop => hframes op (.tail _ hop))
      fun op hop => hsource (.tail _ hop)
    exact ⟨met', andThen_assoc p _ _ ▸ h'⟩

/-- Both runs begin where nothing was sent and nothing written. -/
theorem beside_begin (c : Config) {t : Trace} (hframed : t.Framed) (env : Box → Const)
    (heap : Const → Option String → Option Const) (outside : σ) :
    Beside w (.start env heap outside) t.inputs t.inputs t.ops t.frameTable
      ([], some (.start env heap outside)) (c.begin t) := by
  have hslot : ∀ id, (c.begin t).values.slot id = .vacant := fun id =>
    Values.slot_of_not_lt (Nat.not_lt_zero id)
  have hholds : ∀ a, ¬ (c.begin t).values.Holds a := by
    rintro a ⟨id, object, r, hv, -, -⟩
    rw [hslot] at hv
    cases hv
  refine .on rfl ⟨rfl, ?_, ⟨nofun, ?_, ?_, ?_⟩, ?_⟩ ⟨nofun, ?_, ?_⟩ (.refl _)
    (.empty hframed.below true)
  · exact (sealed_begin c t _).values.mono (fun _ => id) (List.nil_subset _)
  · intro id object r hv
    rw [hslot] at hv
    cases hv
  · intro id object r hv
    rw [hslot] at hv
    cases hv
  · intro id object hv
    rw [hslot] at hv
    cases hv
  · refine ⟨fun _ _ => rfl, fun b _ => hholds _, fun b hb => (List.mem_append.1 hb).elim id nofun,
      fun id b hb => ?_, fun b hb _ => List.mem_append_left _ hb, fun _ _ _ => rfl,
      fun _ _ _ _ _ _ => hholds _, fun _ ha => ha.elim, fun _ _ => hholds _, rfl, rfl⟩
    rw [hslot] at hb
    cases hb
  · intro a name r hr
    cases a with
    | const c' => cases hc : heap c' name <;> simp [State.start, hc] at hr
    | made r' => cases hr
  · rintro r ⟨c', ⟨⟩⟩

end Optimizer

namespace Config
open Optimizer

/-- A well-formed trace goes through allocation removal alone to its end, and the list that is
written for it shows what the trace shows: the same calls, the same guards, passed or failed,
and the same end, each with the same values and the same heap in reach. -/
theorem runs_show_same {c : Config} (hpeel : c.peel = false) (hrewrite : c.rewrite = false)
    (hvirtual : c.virtualize = true) {t : Trace} (ht : t.verify = .ok ())
    (hplain : ∀ op ∈ t.ops, op.Plain) (hframed : t.Framed) {σ : Type} (w : Outside σ)
    (env : Box → Const) (heap : Const → Option String → Option Const) (outside : σ) :
    ∃ o, Optimizer.run.run.run (c.optimizer t) = (.ok (), o) ∧
      (∀ l, c.optimizeLoop t = .ok l → l.ops = o.out.toList) ∧
      w.shows o.out.toList (.start env heap outside) =
        w.shows t.ops (.start env heap outside) := by
  have hbehind : c.behind = [.virtualize] := by simp [Config.behind, hrewrite, hvirtual]
  have hends : Ends (fun _ => False) (t.ops.forM (sendTo 0)) (c.begin t) fun _ o =>
      Processed c.behind t.ops (c.begin t) o :=
    processed_of_open (C := fun _ => False) (by simp [hrewrite]) (ready_begin c t)
      (intact_begin c t) (by simp [hpeel])
  obtain ⟨_, o, hrun, hprocessed⟩ := exists_of_ends hends
  rw [← run_eq] at hrun
  rw [hbehind] at hprocessed
  obtain ⟨_, hbeside⟩ := hprocessed.beside (beside_begin (w := w) c hframed env heap outside)
    (intact_begin c t)
    (fun k op hop => (Trace.fits_at ht hop).congr fun b => by simp [or_comm])
    hplain (fun op hop => hframed.snapshot_in hop) (List.Subset.refl _)
  refine ⟨o, hrun, fun l hl => by rw [loop_of_run hrun hl]; rfl, ?_⟩
  have hstart : ∀ s : State σ, Progress.andThen ([], some s) (w.run t.ops) = w.run t.ops s :=
    fun s => by simp [Progress.andThen]
  rw [hstart] at hbeside
  unfold Outside.shows
  cases hbeside with
  | left hp hwritten => rw [hp, hwritten]
  | on hp hf => rw [hp, hf.run]

/-- Two objects that hold each other, one of which a guard keeps alive. -/
def linking : Trace :=
  let (i, t) := (Trace.start "linking").input .int
  let (first, t) := t.recordWithDescr .new [] (some .ref) (.size "Node")
  let (second, t) := t.recordWithDescr .new [] (some .ref) (.size "Node")
  let first : Operand := first.elim (.const (.ref 0)) .box
  let second : Operand := second.elim (.const (.ref 0)) .box
  let t := t.append (.setField first "next" second)
  let t := t.append (.setField second "next" first)
  let t := t.append (.setField first "value" (.box i))
  let (value, t) := t.recordWithDescr .getfieldGc [first] (some .int) (.field "value")
  let value : Operand := value.elim (.const (.int 0)) .box
  let (less, t) := t.record .intLt [value, .const (.int 100)] .int
  let t := t.recordGuard .guardTrue [.box less] [first]
  let t := t.append { opcode := .call, args := [second] }
  t.close [value]

/-- The objects are allocated in front of the guard, and the field is not read. -/
theorem linking_shows_same : ∃ o,
    Optimizer.run.run.run (optimizer { peel := false, rewrite := false } linking) = (.ok (), o) ∧
    o.out.toList.map (·.opcode) = [.intLt, .new, .new, .setfieldGc, .setfieldGc, .setfieldGc,
      .guardTrue, .call, .jump] ∧
    Outside.idle.shows o.out.toList (.start (fun b => .zero b.kind) (fun _ _ => none) ()) =
      Outside.idle.shows linking.ops (.start (fun b => .zero b.kind) (fun _ _ => none) ()) := by
  have hout : (Optimizer.run.run.run
      (optimizer { peel := false, rewrite := false } linking)).2.out.toList.map (·.opcode) =
      [.intLt, .new, .new, .setfieldGc, .setfieldGc, .setfieldGc, .guardTrue, .call, .jump] := by
    decide +kernel
  have hdrawn : linking.Drawn := by decide
  obtain ⟨o, hrun, -, hshows⟩ := runs_show_same (c := { peel := false, rewrite := false }) rfl rfl rfl
    hdrawn.verified hdrawn.plain hdrawn.framed Outside.idle (fun b => .zero b.kind)
    (fun _ _ => none) ()
  rw [hrun] at hout
  exact ⟨o, hrun, hout, hshows⟩

end Config
end TracePeel
