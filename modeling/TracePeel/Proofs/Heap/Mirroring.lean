import TracePeel.Proofs.Heap.Machine
import TracePeel.Proofs.Sealing

/-! What is held back and what is written.

Beside the run of a trace goes the run of the list that was written so far. The table says
what the first run holds in the boxes that were met and in the objects that are held back;
apart from these objects both heaps are the same, and nothing leads to one of them that the
written list could read. Forcing makes the second run catch up: an object that it allocates is
pending until all its fields are written, and then it is what it is in the first run. -/
namespace TracePeel
open Machine

variable {σ : Type}

/-- What the first run holds in the fields of an object that is held back. -/
def Virtual.stored (object : Virtual) (f : ValueId → Value) (name : Option String) : Option Value :=
  name.bind fun n => (object.fields.get? n).map f

namespace Values

/-- What a slot stands for. -/
def means (v : Values) (s : State σ) (id : ValueId) : Value :=
  s.value (v.slot id).operand

/-- The value is an object that the table holds back. -/
def Holds (v : Values) (a : Value) : Prop :=
  ∃ id object r, (v.slot id).virtual = some object ∧ (v.slot id).operand = .box r ∧ a = .made r

/-- The table says what a run holds. -/
structure Tracks (v : Values) (s : State σ) : Prop where
  same : ∀ a id, v.index.get? a = some id → s.value a = v.means s id
  made : ∀ id object r, (v.slot id).virtual = some object → (v.slot id).operand = .box r →
    s.env r = .made r
  fields : ∀ id object r, (v.slot id).virtual = some object → (v.slot id).operand = .box r →
    s.heap (.made r) = object.stored (v.means s)
  keys : ∀ id object, (v.slot id).virtual = some object → (object.fields.entries.map (·.1)).Nodup

/-- The second run holds what the first holds, except in objects that are held back or still
pending. What it can read is the same in both and none of these objects, unless a pending
object holds it. -/
structure Mirrors (pending : Value → Prop) (met written : List Box) (v : Values) (s s' : State σ) :
    Prop where
  env : ∀ b ∈ written, s'.env b = s.env b
  reads : ∀ b ∈ written, ¬ v.Holds (s.env b)
  known : ∀ b ∈ written, b ∈ met
  real : ∀ id b, (v.slot id).operand = .box b → (v.slot id).virtual = none → b ∈ written
  unmet : ∀ b ∈ met, v.index.get? (.box b) = none → b ∈ written
  heap : ∀ a, ¬ v.Holds a → ¬ pending a → s'.heap a = s.heap a
  shut : ∀ a name b, ¬ v.Holds a → ¬ pending a → s.heap a name = some b → ¬ v.Holds b
  pending : ∀ a, pending a → ¬ v.Holds a
  hidden : ∀ a, s.exposed a → ¬ v.Holds a
  exposed : s'.exposed = s.exposed
  outside : s'.outside = s.outside

section
variable {v v' : Values} {s s' : State σ} {P : Value → Prop} {met written : List Box}

theorem not_holds_const (c : Const) : ¬ v.Holds (.const c) := by
  rintro ⟨_, _, _, _, _, ⟨⟩⟩

theorem Forced.means (h : v.Forced v') (s : State σ) : v'.means s = v.means s :=
  funext fun id => congrArg s.value (h.operand id)

theorem Forced.holds (h : v.Forced v') {a : Value} (ha : v'.Holds a) : v.Holds a := by
  obtain ⟨id, object, r, hv, ho, rfl⟩ := ha
  rcases h.slot id with e | e
  · exact ⟨id, object, r, e ▸ hv, e ▸ ho, rfl⟩
  · rw [e] at hv
    cases hv

theorem Tracks.forced (h : v.Tracks s) (hf : v.Forced v') : v'.Tracks s := by
  have hslot : ∀ id object, (v'.slot id).virtual = some object → v'.slot id = v.slot id := by
    intro id object hv
    refine (hf.slot id).resolve_right fun e => ?_
    rw [e] at hv
    cases hv
  refine ⟨fun a id hid => ?_, fun id object r hv ho => ?_, fun id object r hv ho => ?_,
    fun id object hv => h.keys id object (hslot id object hv ▸ hv)⟩
  · rw [hf.means]
    exact h.same a id (hf.index ▸ hid)
  · have hsame := hslot id object hv
    rw [hsame] at hv ho
    exact h.made id object r hv ho
  · have hsame := hslot id object hv
    rw [hsame] at hv ho
    rw [hf.means]
    exact h.fields id object r hv ho

/-- A slot that holds no object means the same in both runs, and no object that is held back. -/
theorem Mirrors.means (h : Mirrors P met written v s s') {id : ValueId}
    (hv : (v.slot id).virtual = none) :
    s'.value (v.slot id).operand = v.means s id ∧ ¬ v.Holds (v.means s id) := by
  unfold Values.means
  cases ho : (v.slot id).operand with
  | const c => exact ⟨rfl, not_holds_const c⟩
  | box b =>
    have hb := h.real id b ho hv
    exact ⟨h.env b hb, h.reads b hb⟩

/-- An object that was held back and is allocated now is held back no more. -/
theorem holds_materialize {stale : ValueId → Prop} {seen : Box → Prop} {source : List Operation}
    (h : v.Sealed stale seen source) {id : ValueId} {r : Box} (ho : (v.slot id).operand = .box r)
    (a : Value) : (v.materialize id).Holds a → v.Holds a ∧ a ≠ .made r := by
  rintro ⟨id', object, r', hv, ho', rfl⟩
  refine ⟨(Forced.materialize v id).holds ⟨id', object, r', hv, ho', rfl⟩, ?_⟩
  rintro ⟨⟩
  have hhome := h.home id' r ((Forced.materialize v id).operand id' ▸ ho')
  rw [h.home id r ho] at hhome
  cases hhome
  rw [virtual_materialize] at hv
  cases hv

/-- An object that is held back is not held back any more, or it still is. -/
theorem holds_of_materialize {id : ValueId} {r : Box} (ho : (v.slot id).operand = .box r)
    {a : Value} (ha : v.Holds a) : (v.materialize id).Holds a ∨ a = .made r := by
  obtain ⟨id', object, r', hv, ho', rfl⟩ := ha
  by_cases he : id' = id
  · rw [he, ho] at ho'
    cases ho'
    exact .inr rfl
  · refine .inl ⟨id', object, r', ?_, ?_, rfl⟩
    · show ((v.modifySlot id _).slot id').virtual = _
      rw [slot_modifySlot_of_ne _ he]
      exact hv
    · exact ((Forced.materialize v id).operand id').trans ho'

/-- The object is allocated: until its fields are written, it is pending. -/
theorem Mirrors.materialize (h : Mirrors P met written v s s') {stale : ValueId → Prop}
    {seen : Box → Prop} {source : List Operation} (hsealed : v.Sealed stale seen source)
    (htracks : v.Tracks s) {id : ValueId} {object : Virtual} {r : Box}
    (hv : (v.slot id).virtual = some object) (ho : (v.slot id).operand = .box r) (hmet : r ∈ met) :
    Mirrors (fun a => P a ∨ a = .made r) met (written ++ [r]) (v.materialize id) s
      (s'.make (some r)) := by
  have hfree : ∀ {a}, ¬ v.Holds a → ¬ (v.materialize id).Holds a :=
    fun ha hh => ha (holds_materialize hsealed ho _ hh).1
  have hfree' : ∀ {a}, ¬ (v.materialize id).Holds a → a ≠ .made r → ¬ v.Holds a :=
    fun ha hne hh => (holds_of_materialize ho hh).elim ha hne
  have hmade := htracks.made id object r hv ho
  have hself : ¬ (v.materialize id).Holds (.made r) :=
    fun hh => (holds_materialize hsealed ho _ hh).2 rfl
  refine ⟨fun b hb => ?_, fun b hb => ?_, fun b hb => ?_, fun id' b hb hv' => ?_,
    fun b hb hnone => List.mem_append_left _ (h.unmet b hb hnone), fun a ha hp => ?_,
    fun a name b ha hp hb => ?_, fun a ha => ?_, fun a ha => hfree (h.hidden a ha), h.exposed,
    h.outside⟩
  · show (if some r = some b then Value.made b else s'.env b) = s.env b
    split
    next he =>
      cases he
      exact hmade.symm
    next hne =>
      rcases List.mem_append.1 hb with hb | hb
      · exact h.env b hb
      · cases List.mem_singleton.1 hb
        exact absurd rfl hne
  · rcases List.mem_append.1 hb with hb | hb
    · exact hfree (h.reads b hb)
    · cases List.mem_singleton.1 hb
      exact hmade ▸ hself
  · rcases List.mem_append.1 hb with hb | hb
    · exact h.known b hb
    · cases List.mem_singleton.1 hb
      exact hmet
  · rw [(Forced.materialize v id).operand] at hb
    by_cases he : id' = id
    · rw [he, ho] at hb
      cases hb
      simp
    · refine List.mem_append_left _ (h.real id' b hb ?_)
      have hslot : ((v.modifySlot id _).slot id').virtual = none := hv'
      rwa [slot_modifySlot_of_ne _ he] at hslot
  · rw [not_or] at hp
    exact (Function.update_of_ne hp.2 ..).trans (h.heap a (hfree' ha hp.2) hp.1)
  · rw [not_or] at hp
    exact hfree (h.shut a name b (hfree' ha hp.2) hp.1 hb)
  · rcases ha with ha | rfl
    · exact hfree (h.pending a ha)
    · exact hself

/-- A field of a pending object is written. -/
theorem Mirrors.write (h : Mirrors P met written v s s') {a b : Value} (ha : P a)
    (name : Option String) : Mirrors P met written v s (s'.write name [a, b]) :=
  ⟨h.env, h.reads, h.known, h.real, h.unmet, fun a' ha' hp =>
    (Function.update_of_ne (fun (he : a' = a) => hp (he ▸ ha)) ..).trans (h.heap a' ha' hp),
    h.shut, h.pending, h.hidden, h.exposed, h.outside⟩

end

/-! ### Forcing -/

/-- Fields after some were written, one after the other. -/
def overlay (f : ValueId → Value) : List (String × ValueId) → (Option String → Option Value) →
    Option String → Option Value
  | [], old => old
  | (name, id) :: rest, old => overlay f rest (Function.update old (some name) (some (f id)))

/-- Fields with names of their own, written one after the other, hold what was written. -/
theorem overlay_eq {f : ValueId → Value} {entries : List (String × ValueId)}
    (h : (entries.map (·.1)).Nodup) (old : Option String → Option Value) (name : Option String) :
    overlay f entries old name =
      match name.bind fun n => Bindings.find n entries with
      | some id => some (f id)
      | none => old name := by
  induction entries generalizing old with
  | nil => cases name <;> rfl
  | cons e rest ih =>
    obtain ⟨n, id⟩ := e
    obtain ⟨hn, hrest⟩ := List.nodup_cons.1 h
    rw [overlay, ih hrest]
    cases name with
    | none => rfl
    | some n' =>
      by_cases he : n = n'
      · subst he
        have hfind : Bindings.find n rest = none := by
          cases hf : Bindings.find n rest with
          | none => rfl
          | some id' =>
            exact absurd (List.mem_map_of_mem (f := (·.1))
              (Bindings.mem_of_get? (m := ⟨rest⟩) hf)) hn
        simp [Bindings.find, hfind]
      · have hold : Function.update old (some n) (some (f id)) (some n') = old (some n') :=
          Function.update_of_ne (fun h => he (Option.some.inj h).symm) ..
        simp [Bindings.find, he, hold]

theorem overlay_stored {f : ValueId → Value} {object : Virtual}
    (h : (object.fields.entries.map (·.1)).Nodup) :
    overlay f object.fields.entries (fun _ => none) = object.stored f := by
  funext name
  rw [overlay_eq h]
  cases name with
  | none => rfl
  | some n =>
    show _ = (Bindings.find n object.fields.entries).map f
    cases hf : Bindings.find n object.fields.entries <;> simp [hf]

/-- Fields are written to an object that is allocated. -/
def Task.Ready (P : Value → Prop) (written : List Box) (s : State σ) : Task → Prop
  | .value _ => True
  | .fields operand _ => ∃ r, operand = .box r ∧ r ∈ written ∧ P (s.env r)

/-- What a task leaves in an object that was pending before it. -/
def Task.leaves (v : Values) (s : State σ) (task : Task) (heap : Heap) (a : Value) :
    Option String → Option Value :=
  match task with
  | .value _ => heap a
  | .fields operand entries =>
    if a = s.value operand then overlay (v.means s) entries (heap a) else heap a

theorem leaves_self {v : Values} {s : State σ} {operand : Operand}
    {entries : List (String × ValueId)} {heap : Heap} {a : Value} (h : a = s.value operand) :
    (Task.fields operand entries).leaves v s heap a = overlay (v.means s) entries (heap a) :=
  if_pos h

theorem leaves_of_ne {v : Values} {s : State σ} {operand : Operand}
    {entries : List (String × ValueId)} {heap : Heap} {a : Value} (h : a ≠ s.value operand) :
    (Task.fields operand entries).leaves v s heap a = heap a :=
  if_neg h

/-- What a task forced is held back no more. -/
def Task.Freed (v : Values) (s : State σ) : Task → Prop
  | .value id => ¬ v.Holds (v.means s id)
  | .fields _ entries => ∀ e ∈ entries, ¬ v.Holds (v.means s e.2)

section
variable {w : Outside σ} {s₀ s s' : State σ} {shown : List Observation} {base met : List Box}
  {stale : ValueId → Prop} {source : List Operation}

theorem step_make {op : Operation} (hop : op.opcode = .new) (s : State σ) :
    w.step op s = ([], some (s.make op.result)) := by
  unfold Outside.step
  rw [hop]
  rfl

theorem step_setField (object value : Operand) (name : String) (s : State σ) :
    w.step (.setField object name value) s =
      ([], some (s.write (some name) [s.value object, s.value value])) :=
  rfl

/-- Forcing shows nothing, and the second run catches up with what is forced. -/
theorem Performs.mirrors {t : Task} {x y : Values × Array Operation} (hp : Performs t x y)
    {P : Value → Prop} (hsealed : x.1.Sealed stale (· ∈ met) source)
    (hsound : t.Sound stale source) (htracks : x.1.Tracks s)
    (hrun : w.run x.2.toList s₀ = (shown, some s'))
    (hm : Mirrors P met (base ++ results x.2.toList) x.1 s s')
    (hready : t.Ready P (base ++ results x.2.toList) s) :
    ∃ s'', w.run y.2.toList s₀ = (shown, some s'') ∧
      Mirrors P met (base ++ results y.2.toList) y.1 s s'' ∧ t.Freed y.1 s ∧
      ∀ a, P a → s''.heap a = t.leaves x.1 s s'.heap a := by
  induction hp generalizing P s' with
  | real hv => exact ⟨s', hrun, hm, (hm.means hv).2, fun _ _ => rfl⟩
  | written =>
    refine ⟨s', hrun, hm, List.forall_mem_nil _, fun a _ => ?_⟩
    exact (ite_self _).symm
  | @object id v out object y hv hfields ih =>
    have hheld := hsealed.held id object hsound hv
    obtain ⟨r, hr, ho⟩ := hheld.stands
    have hmet : r ∈ met := hsealed.seen r id (hsealed.home id r ho)
    have hmade := htracks.made id object r hv ho
    have hf := Forced.materialize v id
    have hrun₁ : w.run (out.push object.allocation).toList s₀ = (shown, some (s'.make (some r))) := by
      rw [Array.toList_push, run_snoc, hrun]
      show (shown ++ (w.step _ s').1, (w.step _ s').2) = _
      rw [step_make hheld.opcode, hr]
      simp
    have hm₁ := hm.materialize hsealed htracks hv ho hmet
    have hwritten : base ++ results out.toList ++ [r] =
        base ++ results (out.push object.allocation).toList := by
      simp [hr, results]
    rw [hwritten] at hm₁
    obtain ⟨s'', hrun', hm', hfreed, hleaves⟩ := ih (hsealed.forced hf)
      ⟨object, hheld, List.Subset.refl _⟩ (htracks.forced hf) hrun₁ hm₁
      ⟨r, ho, hwritten ▸ by simp, .inr hmade⟩
    have hmake : ∀ a, (s'.make (some r)).heap a =
        if a = .made r then fun _ => none else s'.heap a := fun a => by
      by_cases he : a = .made r <;> simp [State.make, he]
    -- The object is complete: it holds what the first run wrote to its fields.
    have hobject : s''.heap (.made r) = s.heap (.made r) := by
      rw [hleaves _ (.inr rfl), htracks.fields id object r hv ho,
        leaves_self (by rw [ho]; exact hmade.symm), hmake, if_pos rfl, hf.means,
        overlay_stored (htracks.keys id object hv)]
    refine ⟨s'', hrun', ⟨hm'.env, hm'.reads, hm'.known, hm'.real, hm'.unmet, fun a ha hp => ?_,
      fun a name b ha hp hb => ?_, fun a ha => hm'.pending a (.inl ha), hm'.hidden, hm'.exposed,
      hm'.outside⟩, ?_, fun a ha => ?_⟩
    · by_cases he : a = .made r
      · rw [he, hobject]
      · exact hm'.heap a ha (not_or.2 ⟨hp, he⟩)
    · by_cases he : a = .made r
      · rw [he, htracks.fields id object r hv ho] at hb
        obtain ⟨n, -, hb⟩ := Option.bind_eq_some_iff.1 hb
        obtain ⟨value, hvalue, rfl⟩ := Option.map_eq_some_iff.1 hb
        rw [← hf.means, ← hfields.forced.means]
        exact hfreed _ (Bindings.mem_of_get? hvalue)
      · exact hm'.shut a name b ha (not_or.2 ⟨hp, he⟩) hb
    · exact (hm'.means (hfields.forced.virtual_eq_none virtual_materialize)).2
    · have hne : a ≠ .made r := by
        rintro rfl
        exact hm.pending _ ha ⟨id, object, r, hv, ho, rfl⟩
      rw [hleaves a (.inl ha), leaves_of_ne (by rw [ho]; exact fun he => hne (he.trans hmade)),
        hmake, if_neg hne]
      rfl
  | @field operand name value rest x y v out hvalue hrest ih₁ ih₂ =>
    obtain ⟨object, hheld, hsub⟩ := hsound
    obtain ⟨r, rfl, hr, hpr⟩ := hready
    obtain ⟨hlive, -⟩ := hheld.fields name value (hsub (List.mem_cons_self ..))
    obtain ⟨s₁, hrun₁, hm₁, hfreed₁, hleaves₁⟩ := ih₁ hsealed hlive htracks hrun hm trivial
    have hf := hvalue.forced
    have hreal := hm₁.means hvalue.virtual_eq_none
    have hr₁ : r ∈ base ++ results out.toList := by
      rcases List.mem_append.1 hr with hr | hr
      · exact List.mem_append_left _ hr
      · exact List.mem_append_right _ (results_subset hvalue.out_grows hr)
    have hvalues : s₁.value (.box r) = s.env r := hm₁.env r hr₁
    have hrun₂ : w.run (out.push (.setField (.box r) name (v.slot value).operand)).toList s₀ =
        (shown, some (s₁.write (some name) [s.env r, v.means s value])) := by
      rw [Array.toList_push, run_snoc, hrun₁]
      show (shown ++ (w.step _ s₁).1, (w.step _ s₁).2) = _
      rw [step_setField, hvalues, hreal.1]
      simp
    have hwritten : results (out.push (.setField (.box r) name (v.slot value).operand)).toList =
        results out.toList := by
      simp [results, Operation.setField]
    obtain ⟨s₂, hrun₃, hm₂, hfreed₂, hleaves₂⟩ := ih₂ (hsealed.forced hf)
      ⟨object, hheld, fun _ he => hsub (.tail _ he)⟩ (htracks.forced hf) hrun₂
      (hwritten ▸ hm₁.write hpr (some name)) ⟨r, rfl, hwritten ▸ hr₁, hpr⟩
    refine ⟨s₂, hrun₃, hm₂, fun e he => ?_, fun a ha => ?_⟩
    · rcases List.mem_cons.1 he with rfl | he
      · rw [hrest.forced.means]
        exact fun hh => hfreed₁ (hrest.forced.holds hh)
      · exact hfreed₂ e he
    · have hkeep : s₁.heap a = s'.heap a := hleaves₁ a ha
      rw [hleaves₂ a ha]
      by_cases he : a = s.env r
      · rw [leaves_self he, leaves_self he, hf.means, overlay, ← hkeep, he]
        exact congrArg (overlay _ rest) (Function.update_self ..)
      · rw [leaves_of_ne he, leaves_of_ne he, ← hkeep]
        exact Function.update_of_ne he ..
end

end Values
end TracePeel
