import TracePeel.Proofs.Peeling.Retracing
import TracePeel.Proofs.Sealing

/-! What peeling forces.

At the turn all that the jump hands over is forced, so what the next iteration begins with
leads to no object that is held back. From there on peeling forces what boxes of the next
iteration lead to, and values that were marked, which are no objects. -/
namespace TracePeel

namespace Values

/-- The slots that hold an object. -/
def Holding (v : Values) (id : ValueId) : Prop :=
  (v.slot id).virtual ≠ none

/-- Where the loop begins, the objects still held back are stale. -/
theorem Sealed.markFromStart {v : Values} {seen : Box → Prop} {source : List Operation}
    (h : v.Sealed (fun _ => False) seen source) :
    v.markFromStart.Sealed v.markFromStart.Holding seen [] := by
  have hsize : v.markFromStart.slots.size = v.slots.size := by simp [Values.markFromStart]
  have hslot : ∀ id, v.markFromStart.slot id = {v.slot id with
      fromStart := (v.slot id).isSafeToForce && decide (id < v.slots.size)} := by
    intro id
    by_cases hid : id < v.slots.size
    · simp [Consistent.slot_markFromStart v id hid, hid]
    · rw [slot_of_not_lt hid, slot_of_not_lt (by rwa [hsize])]
      simp [hid, Slot.vacant]
  have hsolid : ∀ id, v.Solid (fun _ => False) id → v.markFromStart.Solid v.markFromStart.Holding id := by
    rintro id ⟨-, hv⟩
    have hv' : (v.markFromStart.slot id).virtual = none := by
      rw [hslot]
      exact hv
    exact ⟨fun hs => hs hv', hv'⟩
  refine ⟨fun a id hid => hsize ▸ h.inRange a id hid, fun id hid => ?_,
    fun c id hid => hsolid id (h.constant c id hid), fun id hid hs => ?_,
    fun id object hs hv => absurd (by rw [Holding, hv]; exact Option.some_ne_none _) hs, fun id b hb => ?_, h.seen⟩
  · obtain ⟨object, hv⟩ := Option.ne_none_iff_exists'.1 hid
    exact lt_of_virtual hv
  · rw [hslot] at hid
    rw [Holding, hslot] at hs
    simp only [Slot.isSafeToForce, Slot.isVirtual, Bool.and_eq_true, Bool.not_eq_true',
      Option.isSome_eq_false_iff, Option.isNone_iff_eq_none] at hid
    exact hs hid.1.2
  · rw [hslot] at hb
    exact h.home id b hb

end Values

namespace Optimizer
open Peel
variable {stale : ValueId → Prop} {seen : Box → Prop} {source : List Operation} {o : Optimizer}

/-- The operand leads to nothing stale, and is known if it is a box. -/
def Usable (stale : ValueId → Prop) (seen : Box → Prop) (o : Optimizer) (a : Operand) : Prop :=
  o.values.Live stale a ∧ ∀ b, a = .box b → seen b

theorem Stays.usable {o' : Optimizer} (h : Stays stale seen source o o') {a : Operand}
    (ha : o.Usable stale seen a) : o'.Usable stale seen a :=
  ⟨h.live a ha.1, ha.2⟩

/-- Forcing the value of an operand gives an operand that is usable as well. -/
theorem forceValue_draws (h : o.Sealed stale seen source) {a : Operand}
    (ha : o.Usable stale seen a) :
    Yields (do force (← valueOf a)) o fun a' o' =>
      Draws stale seen source o o' ∧ o'.Usable stale seen a' := by
  have hmet := h.met a ha.2
  have hid := h.values.live_valueOf ha.1
  rw [yields_bind, yields_valueOf]
  refine (force_draws hmet.sealed hid).mono fun a' o' ⟨hd, ha'⟩ => ?_
  refine ⟨⟨hmet.trans hd.toStays, hd.chain, hd.out⟩, ?_⟩
  rw [ha']
  exact hd.usable (hmet.sealed.values.live_operand hid)

/-! ### At the turn -/

/-- All that is forced is emitted as it stands. -/
theorem forceAll_draws {as : List Operand} (h : o.Sealed stale seen source) (hi : o.Intact)
    (has : ∀ a ∈ as, o.Usable stale seen a) :
    Yields (forceAll as) o fun _ o' => Draws stale seen source o o' ∧ Grown o o' ∧
      ∀ a ∈ as, ∃ k, o'.values.EmittedAs a k := by
  induction as generalizing o with
  | nil => exact ⟨h.draws, .refl, List.forall_mem_nil _⟩
  | cons a as ih =>
    unfold forceAll at ih ⊢
    rw [List.mapM_cons, yields_bind]
    have hmet := h.met a (has a (List.mem_cons_self ..)).2
    have hhead : Yields (do force (← valueOf a)) o fun _ o' =>
        Grown o o' ∧ ∃ k, o'.values.EmittedAs a k := by
      rw [yields_bind, yields_valueOf]
      refine ⟨(Grown.refl.met a).forced _, _, o.idOf a, ?_, ?_, rfl⟩
      · have hf := (values_forcing (o.met a) (o.idOf a)).index
        exact (congrArg (·.get? a) hf).trans (o.index_met a)
      · have hp := (o.met a).values.force_performs (o.idOf a) (o.met a).out
        exact Option.isSome_eq_false_iff.2 (Option.isNone_iff_eq_none.2 hp.virtual_eq_none)
    refine Yields.mono (Q := fun _ o' => Draws stale seen source o o' ∧ Grown o o' ∧
      ∃ k, o'.values.EmittedAs a k) ?_ ?_
    · exact ⟨(forceValue_draws h (has a (List.mem_cons_self ..))).1, hhead⟩
    rintro _ o₁ ⟨hd₁, hg₁, k, hk⟩
    rw [yields_bind]
    refine (ih hd₁.sealed (hg₁.intact hi) fun a ha => hd₁.usable (has a (.tail _ ha))).mono ?_
    rintro _ o₂ ⟨hd₂, hg₂, hall⟩
    refine ⟨hd₁.trans hd₂, hg₁.trans hg₂, fun a' ha' => ?_⟩
    rcases List.mem_cons.1 ha' with rfl | ha'
    · exact ⟨k, hg₂.emittedAs (hg₁.intact hi).values.inRange hk⟩
    · exact hall a' ha'

/-- The preamble ends behind what was forced for the jump. -/
structure Turning (seen : Box → Prop) (source : List Operation) (args : List Operand)
    (o : Optimizer) (preamble : List Operation) (o' : Optimizer) : Prop where
  preamble : ∃ forced, preamble = o.out.toList ++ forced ∧ ∀ f ∈ forced, f.SuppliedBy source
  intact : o'.Intact
  sealed : o'.Sealed (fun _ => False) seen source
  emitted : ∀ a ∈ args, ∃ k, o'.values.EmittedAs a k
  out : o'.out = #[]
  pool : o'.pool = o.pool
  chain : o'.chain = o.chain

theorem capture_turning {args : List Operand} (h : o.Sealed (fun _ => False) seen source)
    (hi : o.Intact) (hargs : ∀ b, .box b ∈ args → seen b) :
    Yields (capture args) o fun preamble o' => Turning seen source args o preamble o' := by
  unfold capture
  rw [yields_bind, yields_discard]
  refine (forceAll_draws h hi fun a ha => ⟨fun _ _ => id, fun b hb => hargs b (hb ▸ ha)⟩).mono ?_
  rintro _ o₁ ⟨hd, hg, hemitted⟩
  have hi₁ := hg.intact hi
  have hpool : o₁.pool = o.pool := by rw [hg.same]
  exact ⟨hd.out, ⟨hi₁.values, hi₁.known⟩, ⟨hd.sealed.values, hd.sealed.known⟩, hemitted, rfl,
    hpool, hd.chain⟩

/-- The second way begins: what the jump handed over leads to no object. -/
structure Begun (seen : Box → Prop) (args : List Operand) (o o' : Optimizer) : Prop where
  sealed : o'.Sealed o'.values.Holding seen []
  usable : ∀ a ∈ args, o'.Usable o'.values.Holding seen a
  out : o'.out = o.out
  pool : o'.pool = o.pool

theorem enter_begun {rest : List Stage} {n : Peeling} (hat : At rest n o) {inputs : List Box}
    {args : List Operand} {preamble : List Operation}
    (h : o.Sealed (fun _ => False) seen source) (hargs : ∀ b, .box b ∈ args → seen b)
    (hemitted : ∀ a ∈ args, ∃ k, o.values.EmittedAs a k)
    (hseen : ∀ b ∈ inputs ++ results preamble, seen b) :
    Ends (fun _ => True) (enter 0 inputs args preamble) o fun _ o' => Begun seen args o o' := by
  unfold enter
  split
  next => exact ends_refuse.2 trivial
  next hlen =>
    show Ends _ (modifyNotes 0 _ >>= _) o _
    rw [ends_bind, ends_lift, yields_modifyNotes hat, ends_bind, ends_lift]
    unfold Peel.markFromStart
    rw [yields_bind, show preamble.filterMap (·.result) = results preamble from rfl]
    refine (meetAll_yields _ _).mono fun _ o₁ ⟨hmet, _⟩ => ?_
    have hboxes : ∀ b, .box b ∈ (inputs ++ results preamble).map Operand.box → seen b := by
      intro b hb
      obtain ⟨c, hc, ⟨⟩⟩ := List.mem_map.1 hb
      exact hseen b hc
    have hsealed : o₁.Sealed (fun _ => False) seen source :=
      (Sealed.of_met (o := {o with chain := (⟨none, {n with
          next := .ofList (inputs.zip args), relinker := .copying}⟩ :: rest).toArray})
        ⟨h.values, h.known⟩ hmet hboxes).sealed
    rw [yields_bind, yields_modifyValues, yields_bind, yields_get, yields_pure, ends_bind, ends_lift]
    -- What is handed over was forced before, so nothing more is.
    have hagain : ∀ a ∈ args, ∃ k, o₁.values.markFromStart.EmittedAs a k := fun a ha =>
      (hemitted a ha).imp fun k hk => emittedAs_markFromStart hsealed.values.inRange
        (hmet.emittedAs h.values.inRange hk)
    obtain ⟨ks, hks⟩ := exists_forall₂ hagain
    rw [Peel.forceAll, yields_of_run (run_mapM (hks.imp fun a k hk =>
      forceValue_run (o := {o₁ with values := o₁.values.markFromStart}) hk))]
    have hmarked := hsealed.values.markFromStart
    refine ⟨⟨hmarked, fun key id hid => ?_⟩, fun a ha => ⟨?_, fun b hb => hargs b (hb ▸ ha)⟩, ?_, ?_⟩
    · obtain ⟨hlt, -, hv⟩ := hsealed.known key id hid
      have hv' : (o₁.values.markFromStart.slot id).virtual = none := by
        rw [Values.Consistent.slot_markFromStart _ _ hlt]
        exact hv
      exact ⟨by simpa [Values.markFromStart] using hlt, fun hs => hs hv', hv'⟩
    · obtain ⟨k, id, hid, hreal, -⟩ := hagain a ha
      intro id' hid' hs
      rw [hid] at hid'
      cases hid'
      exact hs (Option.isNone_iff_eq_none.1 (Option.isSome_eq_false_iff.1 hreal))
    · show o₁.out = o.out
      rw [hmet.eq_values]
    · show o₁.pool = o.pool
      rw [hmet.eq_values]

/-- The preamble ends and the second way begins. -/
theorem turn_begun {rest : List Stage} {n : Peeling} (hat : At rest n o) {inputs : List Box}
    {args : List Operand} (h : o.Sealed (fun _ => False) seen source) (hi : o.Intact)
    (hargs : ∀ b, .box b ∈ args → seen b)
    (hseen : ∀ b ∈ inputs ++ results ((capture args).run o).1, seen b) :
    Ends (fun _ => True) (turn 0 inputs args) o fun _ o' =>
      Begun seen args {o with out := #[]} o' := by
  unfold turn
  rw [ends_bind, ends_lift]
  refine (capture_turning h hi hargs).and_run.mono ?_
  rintro preamble o₁ ⟨hturning, hrun⟩
  rw [hrun] at hseen
  have hat₁ : At rest n o₁ := hturning.chain.trans hat
  rw [ends_bind, ends_lift, yields_modifyNotes hat₁]
  have hsealed : Sealed (fun _ => False) seen source
      {o₁ with chain := (⟨none, {n with recorded := []}⟩ :: rest).toArray} :=
    ⟨hturning.sealed.values, hturning.sealed.known⟩
  refine (enter_begun (o := {o₁ with chain := (⟨none, {n with recorded := []}⟩ :: rest).toArray})
    (n := {n with recorded := []}) rfl hsealed hargs hturning.emitted hseen).mono ?_
  exact fun _ _ hb => ⟨hb.sealed, hb.usable, hb.out.trans hturning.out,
    hb.pool.trans hturning.pool⟩

/-! ### At the end -/

section
variable {rest : List Stage} {n : Peeling}

/-- What a box is in the next iteration is usable. -/
def Naming (stale : ValueId → Prop) (seen : Box → Prop) (n : Peeling) (o : Optimizer) : Prop :=
  ∀ b a, n.next.get? b = some a → o.Usable stale seen a

theorem Naming.stays {o' : Optimizer} (h : Naming stale seen n o)
    (hs : Stays stale seen source o o') : Naming stale seen n o' :=
  fun b a ha => hs.usable (h b a ha)

theorem nextOf_usable (hat : At rest n o) (hn : Naming stale seen n o) (b : Box) :
    Ends (fun _ => True) (nextOf 0 b) o fun a o' => o' = o ∧ o.Usable stale seen a := by
  unfold nextOf
  rw [ends_bind, ends_lift, yields_notes hat]
  split
  next a ha => exact ⟨rfl, hn b a ha⟩
  next => exact ends_refuse.2 trivial

theorem hand_draws (hat : At rest n o) (h : o.Sealed stale seen source)
    (hn : Naming stale seen n o) (b : Box) :
    Ends (fun _ => True) (do force (← valueOf (← nextOf 0 b))) o fun a o' =>
      Draws stale seen source o o' ∧ o'.Usable stale seen a := by
  rw [ends_bind]
  refine (nextOf_usable hat hn b).mono ?_
  rintro a _ ⟨rfl, ha⟩
  exact ends_lift.2 (forceValue_draws h ha)

theorem jumpArgs_draws (inputs : List Box) (hat : At rest n o) (h : o.Sealed stale seen source)
    (hn : Naming stale seen n o) :
    Ends (fun _ => True) (jumpArgs 0 inputs) o fun args o' =>
      Draws stale seen source o o' ∧ ∀ a ∈ args, o'.Usable stale seen a := by
  unfold jumpArgs
  induction inputs generalizing o with
  | nil => exact ⟨h.draws, List.forall_mem_nil _⟩
  | cons b bs ih =>
    rw [List.mapM_cons, ends_bind]
    refine (hand_draws hat h hn b).mono fun a o₁ ⟨hd₁, ha⟩ => ?_
    rw [ends_bind]
    refine (ih (hd₁.chain.trans hat) hd₁.sealed (hn.stays hd₁.toStays)).mono ?_
    rintro as o₂ ⟨hd₂, has⟩
    refine ⟨hd₁.trans hd₂, fun a' ha' => ?_⟩
    rcases List.mem_cons.1 ha' with rfl | ha'
    · exact hd₂.usable ha
    · exact has a' ha'

/-- Values that are marked are no objects that are held back. -/
theorem nextInput_draws (inputs work : List Box) (h : o.Sealed stale seen source) :
    Yields (nextInput inputs work) o fun _ o' => Draws stale seen source o o' := by
  induction work generalizing o with
  | nil => exact h.draws
  | cons b work ih =>
    unfold nextInput
    rw [yields_bind, yields_get]
    split
    · exact ih h
    next id _ =>
      simp only [yields_bind, yields_slot]
      split
      next hmarked =>
        rw [yields_bind]
        refine (force_draws h (h.values.marked id hmarked)).mono fun a o₁ ⟨hd₁, _⟩ => ?_
        split
        · exact (ih hd₁.sealed).mono fun _ _ hd₂ => hd₁.trans hd₂
        · exact hd₁
      · exact ih h

theorem addInputs_draws (fuel : Nat) (inputs : List Box) (args : List Operand) (work : List Box)
    (scanned : Nat) (hat : At rest n o) (h : o.Sealed stale seen source)
    (hn : Naming stale seen n o) :
    Ends (fun _ => True) (addInputs 0 fuel inputs args work scanned) o fun _ o' =>
      Draws stale seen source o o' := by
  induction fuel generalizing inputs args work scanned o with
  | zero => exact h.draws
  | succ fuel ih =>
    unfold addInputs
    rw [ends_bind, ends_lift]
    refine (nextInput_draws inputs work h).mono fun found o₁ hd₁ => ?_
    cases found with
    | none => exact hd₁
    | some found =>
      obtain ⟨b, later⟩ := found
      have hat₁ : At rest n o₁ := hd₁.chain.trans hat
      have hhand := hand_draws hat₁ hd₁.sealed (hn.stays hd₁.toStays) b
      rw [ends_bind] at hhand
      show Ends _ (nextOf 0 b >>= _) _ _
      rw [ends_bind]
      refine hhand.mono fun a o₂ hhand => ?_
      rw [ends_bind] at hhand ⊢
      refine hhand.mono fun id o₃ hhand => ?_
      rw [ends_bind]
      refine hhand.mono ?_
      rintro next o₄ ⟨hd₄, -⟩
      rw [ends_bind, ends_lift, yields_tell, ends_bind, ends_get]
      have hd : Draws stale seen source o
          {o₄ with events := o₄.events.push (.inputAdded b next)} :=
        hd₁.trans ⟨hd₄.toStays.congr rfl rfl, hd₄.chain, hd₄.out⟩
      exact (ih _ _ _ _ (hd.chain.trans hat) hd.sealed (hn.stays hd.toStays)).mono
        fun _ _ hd' => hd.trans hd'

/-- The jump that ends the list is written again behind what was forced. -/
theorem fixUp_draws (inputs : List Box) (hat : At rest n o) (h : o.Sealed stale seen source)
    (hn : Naming stale seen n o) :
    Ends (fun _ => True) (fixUp 0 inputs) o fun _ o' => Stays stale seen source o o' ∧
      ∃ (out : Array Operation) (jump : Operation) (forced : List Operation) (args : List Operand),
      o.out = out.push jump ∧ jump.opcode = .jump ∧ (∀ f ∈ forced, f.SuppliedBy source) ∧
      o'.out.toList = out.toList ++ forced ++ [{jump with args}] := by
  unfold fixUp takeJump
  rw [ends_bind, ends_bind, ends_get]
  split
  next => exact ends_refuse.2 trivial
  next jump hback =>
    obtain ⟨out, hout⟩ := Array.back?_eq_some_iff.1 hback
    rw [ends_bind, ends_modify]
    split
    next hjump =>
      rw [ends_pure, ends_bind, ends_get, ends_bind]
      refine (addInputs_draws (o := {o with out := o.out.pop}) _ _ _ _ _ hat
        ⟨h.values, h.known⟩ hn).mono fun r o₁ hd => ?_
      obtain ⟨forced, hforced, hsupplied⟩ := hd.out
      refine ⟨⟨⟨hd.sealed.values, hd.sealed.known⟩, hd.live, hd.kept⟩, out, jump, forced, r.2, hout,
        hjump, hsupplied, ?_⟩
      show (o₁.out.push _).toList = _
      rw [Array.toList_push, hforced]
      show o.out.pop.toList ++ _ ++ _ = _
      rw [hout, Array.pop_push]
    next => exact ends_refuse.2 trivial

end

end Optimizer
end TracePeel
