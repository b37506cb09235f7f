import TracePeel.Proofs.Behaviour.Rewriting
import TracePeel.Proofs.Completed

/-! What rewriting learns is true of the values that the guards let through.

An assignment of values realizes a list if every computed result is what is computed and
every guard passes. Rewriting records constants on the way. Where guards teach no more
than their passing shows, each is the value of the box that it is recorded for, so no
guard is found to fail and every operand is written as one of the same value. -/
namespace TracePeel

/-- Whether a guard passes, by the values of its operands. -/
def Operation.passes (classOf : Const → Const) (V : Env) (op : Operation) : Bool :=
  match op.opcode, op.args.map V.value with
  | .guardTrue, a :: _ | .guardNonnull, a :: _ => a.isTrue
  | .guardFalse, a :: _ | .guardIsnull, a :: _ => !a.isTrue
  | .guardValue, a :: b :: _ => a = b
  | .guardClass, a :: c :: _ => a.isTrue && classOf a = c
  | _, _ => true

/-- Values that the boxes of a list can hold at once: what can be folded is, a copy is what
it copies, what computes the same yields the same, and every guard passes. -/
structure Realizes (classOf : Const → Const) (V : Env) (ops : List Operation) : Prop where
  folded : ∀ op ∈ ops, ∀ r ∈ op.result, ∀ c ∈ fold op.opcode (op.args.map V.value), V r = c
  copied : ∀ op ∈ ops, op.opcode = .sameAs → ∀ r ∈ op.result, ∀ a ∈ op.args.head?, V r = V.value a
  repeated : ∀ op ∈ ops, ∀ op' ∈ ops, op.opcode.isAlwaysPure = true → op'.opcode = op.opcode →
    op'.descrName? = op.descrName? → op'.args.map V.value = op.args.map V.value →
    ∀ r ∈ op.result, ∀ r' ∈ op'.result, r'.kind = r.kind → V r' = V r
  passed : ∀ op ∈ ops, op.isGuard = true → op.passes classOf V = true

instance (classOf : Const → Const) (V : Env) (ops : List Operation) :
    Decidable (Realizes classOf V ops) :=
  decidable_of_iff
    ((∀ op ∈ ops, ∀ r ∈ op.result, ∀ c ∈ fold op.opcode (op.args.map V.value), V r = c) ∧
      (∀ op ∈ ops, op.opcode = .sameAs → ∀ r ∈ op.result, ∀ a ∈ op.args.head?, V r = V.value a) ∧
      (∀ op ∈ ops, ∀ op' ∈ ops, op.opcode.isAlwaysPure = true → op'.opcode = op.opcode →
        op'.descrName? = op.descrName? → op'.args.map V.value = op.args.map V.value →
        ∀ r ∈ op.result, ∀ r' ∈ op'.result, r'.kind = r.kind → V r' = V r) ∧
      ∀ op ∈ ops, op.isGuard = true → op.passes classOf V = true)
    ⟨fun ⟨hf, hc, hr, hp⟩ => ⟨hf, hc, hr, hp⟩, fun h => ⟨h.folded, h.copied, h.repeated, h.passed⟩⟩

/-- Guards teach no more than their passing shows: an integer behind `guard_true` is one, a
value behind `guard_isnull` the zero of its kind. -/
structure Telling (V : Env) (ops : List Operation) : Prop where
  truth : ∀ op ∈ ops, op.opcode = .guardTrue → ∀ a ∈ op.args.head?, a.kind = .int →
    V.value a = .ofBool true
  null : ∀ op ∈ ops, op.opcode = .guardIsnull → ∀ a ∈ op.args.head?, V.value a = .zero a.kind

instance (V : Env) (ops : List Operation) : Decidable (Telling V ops) :=
  decidable_of_iff
    ((∀ op ∈ ops, op.opcode = .guardTrue → ∀ a ∈ op.args.head?, a.kind = .int →
        V.value a = .ofBool true) ∧
      ∀ op ∈ ops, op.opcode = .guardIsnull → ∀ a ∈ op.args.head?, V.value a = .zero a.kind)
    ⟨fun ⟨ht, hn⟩ => ⟨ht, hn⟩, fun h => ⟨h.truth, h.null⟩⟩

open Classical in
/-- The world in which pure operations yield what the list says. -/
noncomputable def Env.world (V : Env) (hV : V.Kinds) (classOf : Const → Const)
    (ops : List Operation) : World where
  compute o name k args :=
    if h : ∃ r, ∃ op ∈ ops, op.result = some r ∧ op.opcode = o ∧ op.descrName? = name ∧
      r.kind = k ∧ op.args.map V.value = args then V h.choose else .zero k
  answer _ k := .zero k
  raises _ := false
  classOf
  kind_compute o name k args := by
    split
    next h =>
      obtain ⟨op, -, -, -, -, hk, -⟩ := h.choose_spec
      rw [hV, hk]
    next => exact Const.kind_zero k
  kind_answer _ k := Const.kind_zero k

section
variable {V : Env} {hV : V.Kinds} {classOf : Const → Const} {ops : List Operation} {op : Operation}

theorem world_passes : (V.world hV classOf ops).passes op.opcode (op.args.map V.value) false =
    op.passes classOf V := by
  unfold World.passes Operation.passes
  rcases op.args.map V.value with _ | ⟨a, _ | ⟨b, rest⟩⟩ <;> cases op.opcode <;> rfl

open Classical in
/-- In its world, what a list holds is what is computed. -/
theorem Realizes.computed (h : Realizes classOf V ops) (hop : op ∈ ops) {defined : List Box}
    (hfits : op.Fits defined) (hpure : op.opcode.isAlwaysPure = true) {r : Box}
    (hr : op.result = some r) :
    V r = (V.world hV classOf ops).computed op.opcode op.descrName? r.kind
      (op.args.map V.value) := by
  unfold World.computed
  split
  next hsame =>
    obtain ⟨a, hargs⟩ := List.length_eq_one_iff.1
      (hfits.arity 1 (by simp [hsame, Opcode.arity?]))
    rw [h.copied op hop hsame r hr a (by simp [hargs]), hargs]
    rfl
  next =>
    cases hf : fold op.opcode (op.args.map V.value) with
    | some c => exact h.folded op hop r hr c hf
    | none =>
      have hex : ∃ r', ∃ op' ∈ ops, op'.result = some r' ∧ op'.opcode = op.opcode ∧
          op'.descrName? = op.descrName? ∧ r'.kind = r.kind ∧
          op'.args.map V.value = op.args.map V.value := ⟨r, op, hop, hr, rfl, rfl, rfl, rfl⟩
      obtain ⟨op', hop', hr', hcode, hname, hkind, hargs⟩ := hex.choose_spec
      have hcompute : (V.world hV classOf ops).compute op.opcode op.descrName? r.kind
          (op.args.map V.value) = V hex.choose := dif_pos hex
      rw [Option.getD_none, hcompute]
      exact (h.repeated op hop op' hop' hpure hcode hname hargs r hr _ hr' hkind).symm

end

namespace Optimizer

variable {w : World} {V : Env} {o o₁ o' : Optimizer} {op : Operation}

/-- All that the table says is true. -/
structure Learned (w : World) (V : Env) (o : Optimizer) : Prop where
  hold : o.values.Hold w V o.known
  grounded : o.values.Grounded o.known

theorem Learned.intact (h : Learned w V o) : o.Intact where
  values := ⟨h.grounded.inRange, fun id object hv => by rw [(h.hold.slots id).real] at hv; cases hv⟩
  known := h.grounded.known

theorem Learned.met (h : Learned w V o) (a : Operand) : Learned w V (o.met a) :=
  ⟨h.hold.valueOf h.grounded a, h.grounded.valueOf a⟩

theorem Learned.of_met {as : List Operand} (h : Learned w V o) (hmet : Met as o o₁) :
    Learned w V o₁ := by
  induction hmet with
  | refl => exact h
  | more _ _ ih => exact ih.met _

/-- What stands for a box has its value. -/
theorem Learned.value_standsFor (h : Learned w V o) (b : Box) : V.value (o.standsFor b) = V b := by
  unfold standsFor
  split
  next id hid => exact h.hold.value _ id hid
  next => rfl

theorem Learned.map_value (h : Learned w V o) (as : List Operand) :
    (as.map (·.mapBox o.standsFor)).map V.value = as.map V.value := by
  rw [List.map_map]
  refine List.map_congr_left fun a _ => ?_
  cases a with
  | box b => exact h.value_standsFor b
  | const c => rfl

/-- What is known of the slot that an operand is met with. -/
theorem Learned.value_slotOf (h : Learned w V o) (a : Operand) :
    V.value (o.slotOf a).operand = V.value a :=
  (h.met a).hold.value a _ (o.index_met a)

end Optimizer

/-- The operation reads what another one reads. -/
structure Operation.Reads (V : Env) (op op' : Operation) : Prop where
  opcode : op'.opcode = op.opcode
  result : op'.result = op.result
  args : op'.args.map V.value = op.args.map V.value
  failArgs : op'.failArgs.map (·.map V.value) = op.failArgs.map (·.map V.value)

namespace Optimizer

variable {w : World} {V : Env} {o o₁ o' : Optimizer} {op : Operation}

/-- An operation is written as one that reads the same values. -/
theorem Learned.handled (h : Learned w V o) (hs : Handled [] op o o') :
    Learned w V o' ∧ o'.values = o.values ∧
      ∃ op', op.Reads V op' ∧ o'.out = o.out.push op' := by
  obtain ⟨chain, cursor, o₂, rfl, rfl⟩ := hs
  have h' : Learned w V {o with chain, cursor} := ⟨h.hold, h.grounded⟩
  obtain ⟨o₃, events, hf, he⟩ := emit_forces h'.intact op
  rw [hf.idle fun id => (h.hold.slots id).real] at he
  rw [he]
  refine ⟨⟨h.hold, h.grounded⟩, rfl, Optimizer.writes {o with chain, cursor} op,
    ⟨rfl, rfl, h'.map_value op.args, ?_⟩, rfl⟩
  show Option.map _ (Option.map _ op.failArgs) = _
  cases op.failArgs with
  | none => rfl
  | some as => exact congrArg some (h'.map_value as)

/-- The operation was left out, or written as one that reads the same values. -/
def ReadsAlike (V : Env) (op : Operation) (o o' : Optimizer) : Prop :=
  o'.out = o.out ∨ ∃ op', op.Reads V op' ∧ o'.out = o.out.push op'

theorem Learned.rewritten (h : Learned w V o) (hV : V.Kinds)
    (hcomputed : op.opcode.isAlwaysPure = true → ∀ r, op.result = some r →
      V r = w.computed op.opcode op.descrName? r.kind (op.args.map V.value))
    (hpass : op.isGuard = true → w.passes op.opcode (op.args.map V.value) false = true)
    (htelling : Telling V [op]) (hs : Rewrite.Rewritten (Handled []) op o o') :
    Learned w V o' ∧ ReadsAlike V op o o' := by
  have hwritten : ∀ {o₁ o₂ : Optimizer}, Learned w V o₁ → o₁.out = o.out →
      Handled [] op o₁ o₂ → Learned w V o₂ ∧ ReadsAlike V op o o₂ := by
    intro o₁ o₂ h₁ hout hs
    obtain ⟨h₂, -, op', hreads, hpush⟩ := h₁.handled hs
    exact ⟨h₂, .inr ⟨op', hreads, by rw [hpush, hout]⟩⟩
  cases hs with
  | passed hmet _ hs => exact hwritten (h.of_met hmet) (by rw [hmet.eq_values]) hs
  | @dropped arg => exact ⟨⟨(h.met arg).hold, (h.met arg).grounded⟩, .inl rfl⟩
  | @kept arg rest f o₁ hargs ht hs =>
    obtain ⟨h₁, hvalues, op', hreads, hpush⟩ := (h.met arg).handled hs
    have hteaches : Rewrite.Teaches op arg (o₁.values.slot (o.idOf arg)) (o.idOf arg) f := by
      rw [hvalues]
      exact ht
    have hhonest : Honest false V op ⟨[], false⟩ :=
      ⟨fun hop a rest ha hk _ => htelling.truth op (by simp) hop a (by simp [ha]) hk,
        fun hop a rest ha _ => htelling.null op (by simp) hop a (by simp [ha]), fun _ _ => rfl⟩
    have hvalue : V.value (o₁.values.slot (o.idOf arg)).operand = V.value arg := by
      rw [hvalues]
      exact h.value_slotOf arg
    have hhold := hteaches.hold h₁.hold hargs hvalue hV hhonest (hpass ht.isGuard)
    have hi := h₁.intact.setValues (intact_teaches ht h₁.intact.values) (size_teaches ht _)
    exact ⟨⟨hhold, hi.values.inRange, hi.known⟩, .inr ⟨op', hreads, hpush⟩⟩
  | unraised => exact ⟨⟨h.hold, h.grounded⟩, .inl rfl⟩
  | checked _ _ hs =>
    obtain ⟨h₁, halike⟩ := hwritten h rfl hs
    exact ⟨⟨h₁.hold, h₁.grounded⟩, halike⟩
  | called _ hs =>
    have h₁ : Learned w V {o with mayRaise := true} := ⟨h.hold, h.grounded⟩
    exact hwritten h₁ rfl hs
  | @aliased a rest r hsame hargs hr =>
    have hr' : V r = V.value a := by
      rw [hcomputed (by rw [hsame]; rfl) r hr, World.computed, if_pos hsame, hargs]
      rfl
    have hi := (h.met a).intact.setValues
      ((h.met a).intact.values.forward (h.intact.idOf_lt a) r) rfl
    exact ⟨⟨(h.met a).hold.forward (hr'.trans (h.value_slotOf a).symm), hi.values.inRange,
      hi.known⟩, .inl rfl⟩
  | @folded o₁ cs c r hpure hsame hr hmet hcs hfold =>
    have h₁ := h.of_met hmet
    have hr' : V r = c := by
      rw [hcomputed hpure r hr, World.computed, if_neg hsame,
        Rewrite.map_value_of_constants h₁.hold hcs, hfold]
      rfl
    have hi := (h₁.met (.box r)).intact.setValues
      ((h₁.met (.box r)).intact.values.makeConstant (o₁.idOf (.box r)) c)
      (by simp [Values.makeConstant])
    exact ⟨⟨h₁.hold.adoptConstant h₁.grounded hr', hi.values.inRange, hi.known⟩,
      .inl (by rw [hmet.eq_values])⟩
  | @reused o₁ ks r id hpure hsame hr hmet hks hknown =>
    have h₁ := h.of_met hmet
    have hr' : V r = V.value (o₁.values.slot id).operand := by
      rw [hcomputed hpure r hr, h₁.hold.known _ id hknown]
      show _ = w.computed op.opcode op.descrName? r.kind (ks.map V.value)
      rw [Rewrite.map_value_of_emitted h₁.hold hks]
    have hi := h₁.intact.setValues
      (h₁.intact.values.forward (h₁.intact.known _ id hknown) r) rfl
    exact ⟨⟨h₁.hold.forward hr', hi.values.inRange, hi.known⟩, .inl (by rw [hmet.eq_values])⟩
  | @computed o₁ _ ks r hpure hsame hr hmet hks _ _ hs =>
    have h₁ := h.of_met hmet
    have h₂ := h₁.met (.box r)
    have hi := h₁.intact.remember (Rewrite.keyOf op ks r) r
    have h₃ : Learned w V {o₁.met (.box r) with
        known := o₁.known.set (Rewrite.keyOf op ks r) (o₁.idOf (.box r))} := by
      refine ⟨h₂.hold.remember ?_, hi.values.inRange, hi.known⟩
      rw [h₂.hold.value (.box r) _ (o₁.index_met (.box r))]
      show V r = w.computed op.opcode op.descrName? r.kind (ks.map V.value)
      rw [hcomputed hpure r hr, Rewrite.map_value_of_emitted h₁.hold hks]
    exact hwritten h₃ (by rw [hmet.eq_values]; rfl) hs

/-- A guard that passes is not found to fail. -/
theorem Learned.not_refuted (h : Learned w V o) {arg : Operand} {rest : List Operand}
    (hargs : op.args = arg :: rest)
    (hpass : op.isGuard = true → w.passes op.opcode (op.args.map V.value) false = true)
    {cause : OptCause} : ¬ Rewrite.Refuted op arg (o.slotOf arg) cause := by
  intro hrefuted
  have hvalue := h.value_slotOf arg
  have hslot := (h.met arg).hold.slots (o.idOf arg)
  have hconstant : ∀ c, (o.slotOf arg).constant? = some c → V.value arg = c := fun c hc => by
    rw [← hvalue, Values.Hold.constant?_eq hc]
    rfl
  have hnonNull : (o.slotOf arg).isNonNull = true → (V.value arg).isTrue = true := fun hn =>
    hvalue ▸ hslot.isTrue hn
  have hnull : (o.slotOf arg).isNull = true → (V.value arg).isTrue = false := by
    intro hn
    unfold Slot.isNull at hn
    cases hc : (o.slotOf arg).constant? with
    | none => simp [hc] at hn
    | some c => simpa [hc, hconstant c hc] using hn
  rw [hargs] at hpass
  cases hrefuted with
  | @truth c hop hc hne =>
    have hv := hconstant c hc
    rcases hop with hop | hop
    all_goals
      simp only [Operation.isGuard, hop, Opcode.isGuard, List.map_cons, World.passes, hv,
        forall_const, Bool.not_eq_true'] at hpass
      exact hne (by rw [hop, hpass]; rfl)
  | @value a c wanted rest' hop hargs' hc hne =>
    rw [hargs] at hargs'
    cases hargs'
    have hv := hconstant c hc
    simp [Operation.isGuard, hop, Opcode.isGuard, World.passes, hv, hne] at hpass
  | nonNull hop hn =>
    simp [Operation.isGuard, hop, Opcode.isGuard, World.passes, hnull hn] at hpass
  | null hop hn =>
    simp [Operation.isGuard, hop, Opcode.isGuard, World.passes, hnonNull hn] at hpass
  | @ofClass a c wanted rest' hop hargs' hc hne =>
    rw [hargs] at hargs'
    cases hargs'
    have hv := (hslot.ofClass c hc).2
    have hv' : w.classOf (V.value arg) = c := by
      rw [← hvalue]
      exact hv
    simp [Operation.isGuard, hop, Opcode.isGuard, World.passes, hv', hne] at hpass

/-! ### A list of operations -/

/-- With rewriting alone, no operation is refused unless a guard is found to fail. -/
theorem sendTo_rewrites {c : Config} (hready : Ready c o) (hpasses : c.passes = [.rewrite])
    (ho : o.values.InRange) (hpossible : ∀ arg rest cause, op.args = arg :: rest →
      ¬ Rewrite.Refuted op arg (o.slotOf arg) cause) :
    Ends (fun _ => False) (sendTo 0 op) o fun _ o' =>
      Placed (Rewrite.Rewritten (Handled [])) op o o' := by
  rw [Ready, hpasses] at hready
  have hsize : o.chain.size = 1 := by simpa using congrArg List.length hready
  obtain ⟨stage, hchain⟩ : ∃ stage, o.chain = #[stage] := Array.size_eq_one_iff.1 hsize
  have hpass : stage.pass = some .rewrite := by simpa [hchain] using hready
  have hfirst : o.chain[0]?.bind (·.pass) = some .rewrite := by simpa [hchain] using hpass
  unfold sendTo
  rw [ends_bind, ends_get, hsize, send, ends_bind, ends_get]
  simp only [hsize, Nat.zero_add, Nat.sub_self, hfirst]
  refine ends_caught (C := fun _ => False) ?_
  set chain := o.chain.modify 0 fun s => {s with pass := none} with hmodify
  refine (Rewrite.step_ends_of_refuted (o := {o with chain, cursor := 0})
    (fun op' o' _ _ => send_zero_ends op' o') (fun arg rest cause hargs h =>
      hpossible arg rest cause hargs h) ho).mono fun _ o' hs => ⟨chain, 0, o', hs, ?_⟩
  have hk : Keeps {o with chain, cursor := 0} o' :=
    Through.keeps (p := .rewrite) (fun _ _ _ => Handled.keeps) hs
  rw [hk.chain]
  show _ = {o' with chain := o.chain, cursor := o.cursor}
  rw [modify_pass_restored hfirst]

/-- The operations that come to be written, one behind the other, read the same values. -/
def ReadAlike (V : Env) (ops : List Operation) (o o' : Optimizer) : Prop :=
  ∃ kept new, kept.Sublist ops ∧ o'.out.toList = o.out.toList ++ new ∧
    List.Forall₂ (Operation.Reads V) kept new

theorem ReadsAlike.cons {ops : List Operation} (h : ReadsAlike V op o o₁)
    (hops : ReadAlike V ops o₁ o') : ReadAlike V (op :: ops) o o' := by
  obtain ⟨kept, new, hsub, hout, hreads⟩ := hops
  rcases h with hsame | ⟨op', hop', hpush⟩
  · exact ⟨kept, new, hsub.cons op, by rw [hout, hsame], hreads⟩
  · refine ⟨op :: kept, op' :: new, hsub.cons_cons op, ?_, .cons hop' hreads⟩
    rw [hout, hpush, Array.toList_push, List.append_assoc]
    rfl

/-- What is asked of one operation of a list whose guards pass. -/
structure Followed (w : World) (V : Env) (op : Operation) : Prop where
  computed : op.opcode.isAlwaysPure = true → ∀ r, op.result = some r →
    V r = w.computed op.opcode op.descrName? r.kind (op.args.map V.value)
  passes : op.isGuard = true → w.passes op.opcode (op.args.map V.value) false = true
  telling : Telling V [op]

theorem learned_ends {c : Config} (hpasses : c.passes = [.rewrite]) (hV : V.Kinds)
    {ops : List Operation} (hops : ∀ op ∈ ops, Followed w V op) (hready : Ready c o)
    (h : Learned w V o) :
    Ends (fun _ => False) (ops.forM (sendTo 0)) o fun _ o' =>
      Learned w V o' ∧ ReadAlike V ops o o' := by
  induction ops generalizing o with
  | nil => exact ⟨h, [], [], List.Sublist.refl _, by simp, .nil⟩
  | cons op ops ih =>
    have hop := hops op (List.mem_cons_self ..)
    show Ends _ (sendTo 0 op >>= fun _ => ops.forM (sendTo 0)) o _
    rw [ends_bind]
    refine (sendTo_rewrites hready hpasses h.grounded.inRange fun arg rest cause hargs =>
      h.not_refuted hargs hop.passes).mono fun _ o₁ hs => ?_
    obtain ⟨chain, cursor, o₂, hs, rfl⟩ := hs
    have hlearned : Learned w V {o with chain, cursor} := ⟨h.hold, h.grounded⟩
    obtain ⟨h₂, halike⟩ := hlearned.rewritten hV hop.computed hop.passes hop.telling hs
    have h₁ : Learned w V {o₂ with chain := o.chain, cursor := o.cursor} := ⟨h₂.hold, h₂.grounded⟩
    refine (ih (o := {o₂ with chain := o.chain, cursor := o.cursor})
      (fun op' hop' => hops op' (.tail _ hop')) hready h₁).mono
      fun _ o' ⟨h', halikes⟩ => ⟨h', ReadsAlike.cons ?_ halikes⟩
    exact halike

theorem learned_begin (c : Config) (t : Trace) (w : World) (V : Env) :
    Learned w V (c.begin t) := by
  refine ⟨⟨fun id => ?_, nofun, nofun⟩, nofun, nofun⟩
  rw [show (c.begin t).values.slot id = Slot.vacant from
    Values.slot_of_not_lt (Nat.not_lt_zero id)]
  exact ⟨rfl, nofun, nofun⟩

end Optimizer

namespace Config
open Optimizer

variable {c : Config} {t : Trace} {V : Env} {classOf : Const → Const}

theorem followed (hverify : t.verify = .ok ()) (hV : V.Kinds)
    (h : Realizes classOf V t.ops) (htelling : Telling V t.ops) :
    ∀ op ∈ t.ops, Followed (V.world hV classOf t.ops) V op := by
  obtain ⟨body, last, hsplit⟩ := Trace.exists_split hverify
  intro op hop
  have hfits : ∃ defined, op.Fits defined := by
    rw [hsplit.ops, List.mem_append, List.mem_singleton] at hop
    rcases hop with hop | rfl
    · exact (hsplit.accepts.exists_fits hop).1
    · exact ⟨_, hsplit.fits⟩
  obtain ⟨defined, hfits⟩ := hfits
  refine ⟨fun hpure r hr => h.computed hop hfits hpure hr, fun hguard => ?_, ?_, ?_⟩
  · rw [world_passes]
    exact h.passed op hop hguard
  · intro op' hop'
    rw [List.mem_singleton] at hop'
    exact htelling.truth op' (hop' ▸ hop)
  · intro op' hop'
    rw [List.mem_singleton] at hop'
    exact htelling.null op' (hop' ▸ hop)

/-- Rewriting alone, over values that a trace can hold at once, where its guards teach no more
than their passing shows: no guard is found to fail, every constant that is recorded for
a box is the box's value, and what is written reads the values that were recorded. -/
theorem recorded_constants_hold (hpeel : c.peel = false) (hrewrite : c.rewrite = true)
    (hvirtual : c.virtualize = false) (hverify : t.verify = .ok ()) (hV : V.Kinds)
    (h : Realizes classOf V t.ops) (htelling : Telling V t.ops) :
    (∀ e, c.optimizeLoop t = .error e → e.cause.isGuardFailure = false) ∧
      (∀ k b id value, (c.after t k).values.lookup b = some id →
        ((c.after t k).values.slot id).constant? = some value → V b = value) ∧
      ∀ l, c.optimizeLoop t = .ok l → ∃ kept, kept.Sublist t.ops ∧
        List.Forall₂ (Operation.Reads V) kept l.ops := by
  have hpasses : c.passes = [.rewrite] := by simp [Config.passes, hpeel, hrewrite, hvirtual]
  have hops := followed hverify hV h htelling
  have hbegin := learned_begin c t (V.world hV classOf t.ops) V
  refine ⟨fun e he => ?_, fun k b id value hid hvalue => ?_, fun l hl => ?_⟩
  · obtain ⟨_, o', hrun, -⟩ :=
      exists_of_ends (learned_ends hpasses hV hops (ready_begin c t) hbegin)
    rw [← run_eq] at hrun
    exact cause_of_error hrun he
  · have hprefix : ∀ op ∈ t.ops.take k, Followed (V.world hV classOf t.ops) V op :=
      fun op hop => hops op (List.take_subset _ _ hop)
    obtain ⟨_, o', hrun, hlearned, -⟩ :=
      exists_of_ends (learned_ends hpasses hV hprefix (ready_begin c t) hbegin)
    have hafter : c.after t k = o' := by rw [after, hrun]
    rw [hafter] at hid hvalue
    exact hlearned.hold.constantIs ⟨id, hid, hvalue⟩
  · obtain ⟨_, o', hrun, -, kept, new, hsub, hout, hreads⟩ :=
      exists_of_ends (learned_ends hpasses hV hops (ready_begin c t) hbegin)
    rw [← run_eq] at hrun
    obtain rfl := loop_of_run hrun hl
    refine ⟨kept, hsub, ?_⟩
    rw [show (o'.loop t.name).ops = new from hout]
    exact hreads

/-- A trace that tests an integer for truth and then for one value. -/
def testing (wanted : Int64) : Trace :=
  let (i, t) := (Trace.start "testing").input .int
  let t := t.recordGuard .guardTrue [.box i] [.box i]
  (t.recordGuard .guardValue [.box i, .const (.int wanted)] [.box i]).close [.box i]

/-- One integer in all boxes of its kind. -/
def everywhere (value : Int64) : Env := fun b =>
  if b.kind = .int then .int value else .zero b.kind

theorem kinds_everywhere (value : Int64) : (everywhere value).Kinds := by
  intro b
  unfold everywhere
  split
  next h => exact h.symm
  next => exact Const.kind_zero b.kind

/-- Behind the test for truth, a one is known to be one. -/
theorem testing_one_recorded :
    Realizes id (everywhere 1) (testing 1).ops ∧ Telling (everywhere 1) (testing 1).ops ∧
      ((after { peel := false, virtualize := false } (testing 1) 1).values.slot 0).constant? =
        some (.int 1) ∧
      everywhere 1 ⟨0, .int⟩ = .int 1 := by
  have hvalue : ((after { peel := false, virtualize := false } (testing 1) 1).values.slot
      0).constant? = some (.int 1) := by decide +kernel
  have hrealizes : Realizes id (everywhere 1) (testing 1).ops := by decide
  refine ⟨hrealizes, by decide, hvalue, ?_⟩
  exact (recorded_constants_hold (c := { peel := false, virtualize := false }) rfl rfl rfl
    (by decide) (kinds_everywhere 1) hrealizes (by decide)).2.1 1 ⟨0, .int⟩ 0
    (.int 1) (by decide +kernel) hvalue

/-- A two passes both tests, and yet the second one is found to fail: behind the first one
every integer is taken for one. -/
theorem two_passes_and_is_refused : ¬ ∀ (c : Config) (t : Trace) (V : Env) (classOf : Const → Const),
    c.peel = false → c.rewrite = true → c.virtualize = false → t.verify = .ok () → V.Kinds →
    Realizes classOf V t.ops →
    (∀ e, c.optimizeLoop t = .error e → e.cause.isGuardFailure = false) ∧
      ∀ k b id value, (c.after t k).values.lookup b = some id →
        ((c.after t k).values.slot id).constant? = some value → V b = value := by
  intro hclaim
  have hvalue := (hclaim { peel := false, virtualize := false } (testing 2) (everywhere 2) id rfl
    rfl rfl (by decide) (kinds_everywhere 2) (by decide)).1
  have hrefused : ∃ e, optimizeLoop { peel := false, virtualize := false } (testing 2) = .error e ∧
      e.cause.isGuardFailure = true := by
    have hany : (match optimizeLoop { peel := false, virtualize := false } (testing 2) with
      | .error e => e.cause.isGuardFailure
      | .ok _ => false) = true := by decide +kernel
    split at hany
    next e he => exact ⟨e, he, hany⟩
    next => cases hany
  obtain ⟨e, he, hfailure⟩ := hrefused
  rw [hvalue e he] at hfailure
  cases hfailure

end Config
end TracePeel
