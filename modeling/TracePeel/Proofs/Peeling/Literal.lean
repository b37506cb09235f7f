import TracePeel.Proofs.Peeling.Recasting

/-! Peeling by itself.

Where no other pass runs, nothing is ever learned: every operand stands for itself, and
every frame in the list that is written is kept. `Literal` says so of a state. What is
sent is then written as it is, and no box of the preamble is missing in the loop but
those that the jump hands over. -/
namespace TracePeel

namespace Values
variable {v : Values}

/-- The boxes that were met have numbers below `n`. -/
def MetBelow (n : Nat) (v : Values) : Prop :=
  ∀ b, v.index.get? (.box b) ≠ none → b.id < n

/-- The boxes of the values that are marked have numbers below `n`. -/
def MarkedBelow (n : Nat) (v : Values) : Prop :=
  ∀ b id, v.index.get? (.box b) = some id → (v.slot id).fromStart = true → b.id < n

theorem MetBelow.valueOf {n : Nat} (h : v.MetBelow n) {a : Operand}
    (ha : ∀ b, a = .box b → b.id < n) : (v.valueOf a).2.MetBelow n := by
  intro b hb
  by_cases he : a = .box b
  · exact ha b he
  · rw [index_valueOf_of_ne he] at hb
    exact h b hb

theorem MetBelow.markFromStart {n : Nat} (h : v.MetBelow n) : v.markFromStart.MarkedBelow n :=
  fun b id hid _ => h b (by rw [show v.index.get? (.box b) = some id from hid]; nofun)

/-- An operand that is met later is not marked. -/
theorem MarkedBelow.valueOf {n : Nat} (h : v.MarkedBelow n) (hr : v.InRange) (a : Operand) :
    (v.valueOf a).2.MarkedBelow n := by
  intro b id hid hmarked
  rcases slot_valueOf_cases v a ((hr.valueOf a) _ id hid) with ⟨hlt, hslot⟩ | ⟨hnone, rfl, hslot⟩
  · by_cases he : a = .box b
    · subst he
      cases hold : v.index.get? (.box b) with
      | some id' =>
        rw [valueOf_known hold, hold] at hid
        cases hid
        exact h b id hold (hslot ▸ hmarked)
      | none =>
        rw [valueOf_new hold, index_push, if_pos rfl] at hid
        cases hid
        exact absurd hlt (Nat.lt_irrefl _)
    · rw [index_valueOf_of_ne he] at hid
      exact h b id hid (hslot ▸ hmarked)
  · rw [hslot] at hmarked
    cases hmarked

end Values

namespace Optimizer
open Peel Relinker

theorem Met.metBelow {n : Nat} {as : List Operand} {o o' : Optimizer} (hmet : Met as o o')
    (h : o.values.MetBelow n) (has : ∀ b, .box b ∈ as → b.id < n) : o'.values.MetBelow n := by
  induction hmet with
  | refl => exact h
  | more _ ha ih => exact ih.valueOf fun b hb => has b (hb ▸ ha)

theorem Met.markedBelow {n : Nat} {as : List Operand} {o o' : Optimizer} (hmet : Met as o o')
    (hr : o.values.InRange) (h : o.values.MarkedBelow n) : o'.values.MarkedBelow n := by
  induction hmet with
  | refl => exact h
  | more hm _ ih => exact ih.valueOf (hm.inRange hr) _

/-- Every operand stands for itself, and the frames in the list stay those of the table. -/
structure Literal (T : FrameTable) (o : Optimizer) : Prop where
  intact : o.Intact
  real : ∀ id, (o.values.slot id).virtual = none
  self : ∀ a id, o.values.index.get? a = some id → (o.values.slot id).operand = a
  sharing : o.sink.sharing = true
  kept : ∀ k chain, o.sink.memo.get? k = some chain → T k = some chain

namespace Literal
variable {T : FrameTable} {o o' : Optimizer}

theorem standsFor (h : Literal T o) : o.standsFor = Operand.box := by
  funext b
  unfold Optimizer.standsFor
  split
  next id hid => exact h.self _ id hid
  next => rfl

theorem mono {T' : FrameTable} (hT : T.Extends T') (h : Literal T o) : Literal T' o :=
  {h with kept := fun k chain hk => hT _ _ (h.kept k chain hk)}

theorem congr (h : Literal T o) (hvalues : o'.values = o.values) (hknown : o'.known = o.known)
    (hsink : o'.sink = o.sink) : Literal T o' where
  intact := ⟨hvalues ▸ h.intact.values, by rw [hvalues, hknown]; exact h.intact.known⟩
  real := hvalues ▸ h.real
  self := hvalues ▸ h.self
  sharing := hsink ▸ h.sharing
  kept := hsink ▸ h.kept

/-- A new list begins. -/
theorem again (h : Literal T o) (hvalues : o'.values = o.values) (hknown : o'.known = o.known)
    (hsink : o'.sink = .keeping) : Literal T o' where
  intact := ⟨hvalues ▸ h.intact.values, by rw [hvalues, hknown]; exact h.intact.known⟩
  real := hvalues ▸ h.real
  self := hvalues ▸ h.self
  sharing := by rw [hsink]; rfl
  kept := by
    rw [hsink]
    rintro _ _ ⟨⟩

theorem met (h : Literal T o) (a : Operand) : Literal T (o.met a) where
  intact := h.intact.met a
  real id := by
    by_cases hid : id < (o.met a).values.slots.size
    · rcases Values.slot_valueOf_cases o.values a hid with ⟨_, hslot⟩ | ⟨_, _, hslot⟩
      · exact (congrArg Slot.virtual hslot).trans (h.real id)
      · exact congrArg Slot.virtual hslot
    · rw [Values.slot_of_not_lt hid]
      rfl
  self b id hid := by
    have hid' : (o.values.valueOf a).2.index.get? b = some id := hid
    have hr := h.intact.values.inRange
    rcases Values.slot_valueOf_cases o.values a ((hr.valueOf a) b id hid') with
      ⟨hlt, hslot⟩ | ⟨hnone, rfl, hslot⟩
    · refine (congrArg Slot.operand hslot).trans ?_
      cases hold : o.values.index.get? b with
      | some id' =>
        rw [Values.index_valueOf_of_some hold] at hid'
        cases hid'
        exact h.self b id hold
      | none =>
        by_cases he : a = b
        · subst he
          rw [Values.valueOf_new hold, Values.index_push, if_pos rfl] at hid'
          cases hid'
          exact absurd hlt (Nat.lt_irrefl _)
        · rw [Values.index_valueOf_of_ne he, hold] at hid'
          cases hid'
    · refine (congrArg Slot.operand hslot).trans ?_
      by_contra hne
      rw [Values.index_valueOf_of_ne (a := a) hne] at hid'
      exact Nat.lt_irrefl _ (hr b _ hid')
  sharing := h.sharing
  kept := h.kept

theorem of_met {as : List Operand} (h : Literal T o) (hmet : Met as o o') : Literal T o' := by
  induction hmet with
  | refl => exact h
  | more _ _ ih => exact ih.met _

theorem markFromStart (h : Literal T o) :
    Literal T {o with values := o.values.markFromStart} where
  intact := h.intact.markFromStart
  real id := by
    by_cases hlt : id < o.values.slots.size
    · have hslot := Values.Consistent.slot_markFromStart o.values id hlt
      exact (congrArg Slot.virtual hslot).trans (h.real id)
    · have hlt' : ¬ id < o.values.markFromStart.slots.size := by
        simpa [Values.markFromStart] using hlt
      rw [Values.slot_of_not_lt hlt']
      rfl
  self a id hid := by
    have hlt := h.intact.values.inRange a id hid
    exact (congrArg Slot.operand (Values.Consistent.slot_markFromStart _ id hlt)).trans
      (h.self a id hid)
  sharing := h.sharing
  kept := h.kept

/-! ### What is written -/

theorem map_box (as : List Operand) : as.map (·.mapBox Operand.box) = as :=
  List.map_id'' (fun a => by cases a <;> rfl) as

/-- An operation is written as it is. -/
theorem emit (h : Literal T o) {op : Operation} (hop : op.snapshot.In T) :
    Yields (Optimizer.emit op) o fun _ o' => Literal T o' ∧ ∃ sink events,
      o' = {o with sink, events, out := o.out.push op} := by
  obtain ⟨o₁, events, hforces, he⟩ := emit_forces h.intact op
  rw [hforces.idle h.real, h.standsFor] at he
  have hsame : ∃ r, relinkDescr Operand.box o.supply op.descr = (op.descr, ⟨r, o.pool.nextFrame⟩) ∧
      r.sharing = true ∧ ∀ k chain, r.memo.get? k = some chain → T k = some chain := by
    by_cases hguard : ∃ number chain, op.descr = some (.guard number chain)
    · obtain ⟨number, chain, hd⟩ := hguard
      have hchain : op.snapshot = chain := by simp [Operation.snapshot, hd]
      obtain ⟨r, hr, hsharing, hkept⟩ :=
        @relink_kept T o.supply h.sharing h.kept chain (hchain ▸ hop)
      exact ⟨r, by simp only [relinkDescr, hd, hr]; rfl, hsharing, hkept⟩
    · refine ⟨o.sink, relinkDescr_of_plain _ _ fun number chain hd => ?_, h.sharing, h.kept⟩
      exact hguard ⟨number, chain, hd⟩
  obtain ⟨r, hr, hsharing, hkept⟩ := hsame
  have hwrites : o.writes op = op := by
    rw [writes, h.standsFor, hr, map_box]
    cases op with
    | mk opcode args result descr failArgs => cases failArgs <;> simp [map_box]
  rw [hr, hwrites] at he
  show Literal T _ ∧ _
  rw [he]
  exact ⟨⟨⟨h.intact.values, h.intact.known⟩, h.real, h.self, hsharing, hkept⟩, r, events, rfl⟩

/-- A value is there already. -/
theorem force (h : Literal T o) (a : Operand) :
    Yields (do Optimizer.force (← valueOf a)) o fun a' o' => a' = a ∧ o' = o.met a := by
  have hid := o.index_met a
  have hm := h.met a
  rw [yields_bind, yields_valueOf]
  unfold Optimizer.force
  rw [yields_modifyGet, Values.force_of_real (hm.real _)]
  exact ⟨hm.self a _ hid, rfl⟩

theorem forceAll (h : Literal T o) (as : List Operand) :
    Yields (Peel.forceAll as) o fun as' o' => as' = as ∧ Met as o o' := by
  unfold Peel.forceAll
  induction as generalizing o with
  | nil => exact ⟨rfl, .refl⟩
  | cons a as ih =>
    rw [List.mapM_cons, yields_bind]
    refine (h.force a).mono fun a' o₁ ⟨ha, ho₁⟩ => ?_
    rw [yields_bind, ho₁]
    refine (ih (h.met a)).mono fun as' o₂ ⟨has, hmet⟩ => ⟨by rw [ha, has]; rfl, ?_⟩
    exact (Met.one (List.mem_cons_self ..)).trans (hmet.mono (List.subset_cons_self ..))

/-! ### At the end of the preamble -/

theorem capture (h : Literal T o) (args : List Operand) :
    Yields (Peel.capture args) o fun preamble o' => preamble = o.out.toList ∧
      ∃ o₁ events, Met args o o₁ ∧ Literal T o₁ ∧
        o' = {o₁ with out := #[], sink := .keeping, mayRaise := false, events} := by
  unfold Peel.capture
  rw [yields_bind, yields_discard]
  refine (h.forceAll args).mono fun _ o₁ ⟨_, hmet⟩ => ⟨?_, o₁, _, hmet, h.of_met hmet, rfl⟩
  show o₁.out.toList = _
  rw [hmet.eq_values]

/-- The second way begins, and only what was met by then is marked. -/
theorem enter {E : OptError → Prop} {rest : List Stage} {n : Peeling} {k : Nat}
    (h : Literal T o) (hat : At rest n o) {inputs : List Box} {args : List Operand}
    {preamble : List Operation} (hlen : inputs.length = args.length)
    (hmet : o.values.MetBelow k) (hbase : ∀ b ∈ inputs ++ results preamble, b.id < k) :
    Ends E (Peel.enter 0 inputs args preamble) o fun loopInputs o' =>
      loopInputs = distinctBoxes args ∧ Literal T o' ∧ o'.values.MarkedBelow k ∧
        ∃ events, o' = {o with
          values := o'.values
          chain := (⟨none, {n with next := .ofList (inputs.zip args), relinker := .copying}⟩ ::
            rest).toArray
          events} := by
  unfold Peel.enter
  rw [if_neg (not_not.2 hlen)]
  show Ends E (modifyNotes 0 _ >>= _) o _
  rw [ends_bind, ends_lift, yields_modifyNotes hat, ends_bind, ends_lift]
  unfold Peel.markFromStart
  set chain : Array Stage := (⟨none, {n with
    next := .ofList (inputs.zip args), relinker := .copying}⟩ :: rest).toArray
  rw [yields_bind, show preamble.filterMap (·.result) = results preamble from rfl]
  refine (meetAll_yields (inputs ++ results preamble) {o with chain}).mono
    fun _ o₁ ⟨hmet₁, _⟩ => ?_
  rw [yields_bind, yields_modifyValues, yields_bind, yields_get, yields_pure, ends_bind, ends_lift]
  have h₀ : Literal T {o with chain} := h.congr rfl rfl rfl
  have h₁ : Literal T o₁ := h₀.of_met hmet₁
  have hmarked : o₁.values.markFromStart.MarkedBelow k := by
    refine (hmet₁.metBelow hmet fun b hb => ?_).markFromStart
    obtain ⟨_, hc, hcb⟩ := List.mem_map.1 hb
    cases hcb
    exact hbase b hc
  refine (h₁.markFromStart.forceAll args).mono fun as o₂ ⟨hargs, hmet₂⟩ => ?_
  rw [hargs]
  set fromStart := o₁.values.markFromStart.fromStartCount
  refine ⟨rfl, (h₁.markFromStart.of_met hmet₂).congr rfl rfl rfl,
    hmet₂.markedBelow h₁.markFromStart.intact.values.inRange hmarked,
    o₂.events.push (.peeling fromStart (distinctBoxes args).length), ?_⟩
  show {o₂ with events := _} = _
  rw [hmet₂.eq_values, hmet₁.eq_values]

/-! ### At the end of the loop -/

section
variable {E : OptError → Prop} {rest : List Stage} {n : Peeling} {k : Nat} {inputs : List Box}

/-- The inputs are handed over under their names. -/
theorem jumpArgs (h : Literal T o) (hat : At rest n o)
    (hnamed : ∀ b ∈ inputs, n.next.get? b ≠ none) :
    Ends E (Peel.jumpArgs 0 inputs) o fun as o' =>
      as = inputs.map n.rename ∧ Met (inputs.map n.rename) o o' := by
  unfold Peel.jumpArgs
  induction inputs generalizing o with
  | nil => exact ⟨rfl, .refl⟩
  | cons b inputs ih =>
    have hb : n.next.get? b = some (n.rename b) :=
      Peeling.next_rename (hnamed b (List.mem_cons_self ..))
    rw [List.mapM_cons, ends_bind, ends_bind, ends_nextOf hat hb, ends_forceValue]
    refine (h.force (n.rename b)).mono fun a o₁ ⟨ha, ho₁⟩ => ?_
    rw [ends_bind, ho₁]
    refine (ih (h.met _) hat fun c hc => hnamed c (.tail _ hc)).mono
      fun as o₂ ⟨has, hmet⟩ => ⟨by rw [ha, has]; rfl, ?_⟩
    exact (Met.one (List.mem_cons_self ..)).trans (hmet.mono (List.subset_cons_self ..))

/-- Nothing is missing where all that is read is an input or came later than the marks. -/
theorem nextInput (h : Literal T o) (hmarked : o.values.MarkedBelow k) {work : List Box}
    (hwork : ∀ b ∈ work, b ∈ inputs ∨ k ≤ b.id) :
    Yields (Peel.nextInput inputs work) o fun found o' => found = none ∧ o' = o := by
  induction work with
  | nil => exact ⟨rfl, rfl⟩
  | cons b work ih =>
    have hrest := ih fun c hc => hwork c (.tail _ hc)
    unfold Peel.nextInput
    rw [yields_bind, yields_get]
    split
    next => exact hrest
    next id hid =>
      simp only [yields_bind, yields_slot]
      split
      next hfrom =>
        have hlt : b.id < k := hmarked b id hid hfrom
        have hin : b ∈ inputs := (hwork b (List.mem_cons_self ..)).resolve_right (Nat.not_le.2 hlt)
        have hself : (o.values.slot id).operand = .box b := h.self _ id hid
        simp only [Optimizer.force, yields_bind, yields_modifyGet, Values.force_of_real (h.real id),
          hself, Operand.box?, Option.getD_some, if_pos hin]
        exact hrest
      next => exact hrest

theorem fixUp {out : Array Operation} {jump : Operation} (h : Literal T o)
    (hmarked : o.values.MarkedBelow k) (hout : o.out = out.push jump)
    (hjump : jump.opcode = .jump)
    (hreads : ∀ b ∈ boxesRead out.toList ++ jump.args.filterMap Operand.box?,
      b ∈ inputs ∨ k ≤ b.id) :
    Ends E (Peel.fixUp 0 inputs) o fun inputs' o' => inputs' = inputs ∧ ∃ stats,
      o' = {o with stats} := by
  unfold Peel.fixUp
  rw [ends_bind, ends_takeJump hout hjump, ends_bind, ends_get, ends_bind]
  unfold addInputs
  rw [ends_bind, ends_lift]
  have h₀ : Literal T {o with out} := h.congr rfl rfl rfl
  refine (h₀.nextInput hmarked hreads).mono ?_
  rintro found o' ⟨hfound, ho'⟩
  subst hfound
  subst ho'
  exact ⟨rfl, _, by rw [hout]⟩

end

end Literal
end Optimizer
end TracePeel
