import TracePeel.Proofs.Completed
import TracePeel.Proofs.Peeling.Literal

/-! Peeling alone copies the trace.

Without the passes behind it, peeling writes the trace as it was recorded and then once
more under the names of the next iteration. The loop begins with the boxes that the jump
hands over; what the list reads besides them it computes itself, so no further input is
found. `CopiedAs` says what the loop is, down to the numbers of guards and frames. -/
namespace TracePeel

/-- The loop runs the trace once as it was recorded, and then under the names that its boxes have
in the next iteration; `s` gives the names. -/
structure Trace.CopiedAs (t : Trace) (body : List Operation) (jump : Operation)
    (s : Box → Operand) (l : Loop) : Prop where
  token : l.token = t.token
  inputs : l.inputs = (jump.args.filterMap Operand.box?).eraseDups
  preamble : l.preamble = some ⟨t.inputs, body ++ [.jumpTo t.token (l.inputs.map .box)]⟩
  handed : t.inputs.map s = jump.args
  produced : ∃ fresh : List Box, (results body).map s = fresh.map .box ∧
    fresh.map (·.kind) = (results body).map (·.kind) ∧ fresh.Nodup ∧ ∀ b ∈ fresh, b ∉ t.boxes
  ops : ∃ copies, l.ops = copies ++ [{jump with args := l.inputs.map s}] ∧
    List.Forall₂ (Operation.Mapped s) body copies ∧
    guardNumbers copies = List.range' t.pool.nextGuard (guardNumbers body).length ∧
    (∀ op ∈ copies, ∀ frame ∈ op.snapshot, t.pool.nextFrame ≤ frame.id) ∧
    ∀ p ∈ body.zip copies, ∀ q ∈ body.zip copies,
      Snapshot.SharesAs p.1.snapshot q.1.snapshot p.2.snapshot q.2.snapshot

namespace Optimizer
open Peel

section
variable {C : OptCause → Prop} {c : Config} {T : FrameTable} {o : Optimizer}

/-! ### The first way -/

/-- An operation that is not the jump back is written as it is. -/
theorem keep_ends (hbehind : c.behind = []) {notes : Peeling}
    (hchain : o.chain = [⟨some .peel, notes⟩].toArray) (h : Literal T o) {op : Operation}
    (hop : op.snapshot.In T) (hopen : op.closes o.token = false) :
    Ends (fun e => C e.cause) (sendTo 0 op) o fun _ o' => Literal T o' ∧ ∃ sink events,
      o' = {o with sink, events, out := o.out.push op} := by
  refine head_ends (c := c) hchain (by simp [hbehind]) ?_
  unfold Peel.step
  rw [ends_bind, ends_get, if_neg (by simp [hopen]), hbehind]
  show Ends _ (liftM (emit op)) _ _
  rw [ends_lift]
  have h' : Literal T {o with chain := [⟨none, notes⟩].toArray, cursor := 0} := h.congr rfl rfl rfl
  refine (h'.emit hop).mono fun _ o' ⟨ho', sink, events, he⟩ => ?_
  refine ⟨ho'.congr rfl rfl rfl, sink, events, ?_⟩
  rw [he, hchain]
  rfl

theorem keepAll_ends (hbehind : c.behind = []) {notes : Peeling} {ops : List Operation}
    (hchain : o.chain = [⟨some .peel, notes⟩].toArray) (h : Literal T o)
    (hops : ∀ op ∈ ops, op.snapshot.In T) (hopen : ∀ op ∈ ops, op.closes o.token = false) :
    Ends (fun e => C e.cause) (ops.forM (sendTo 0)) o fun _ o' => Literal T o' ∧ ∃ sink events,
      o' = {o with sink, events, out := o.out ++ ops.toArray} := by
  induction ops generalizing o with
  | nil => exact ⟨h, o.sink, o.events, by simp⟩
  | cons op ops ih =>
    show Ends _ (sendTo 0 op >>= fun _ => ops.forM (sendTo 0)) o _
    rw [ends_bind]
    refine (keep_ends hbehind hchain h (hops op (List.mem_cons_self ..))
      (hopen op (List.mem_cons_self ..))).mono fun _ o₁ ⟨h₁, sink, events, he⟩ => ?_
    subst he
    refine (ih (o := {o with sink, events, out := o.out.push op}) hchain h₁
      (fun op' hop' => hops op' (.tail _ hop')) fun op' hop' => hopen op' (.tail _ hop')).mono
      fun _ o' ⟨h', sink', events', he⟩ => ?_
    exact ⟨h', sink', events', by rw [he]; simp⟩

end

/-! ### The second way -/

/-- The invariant of the second way: the boxes `walked` have names, which the list defines or
the loop is handed, and what is marked was there when it began. -/
structure Again (T : FrameTable) (first k : Nat) (walked defined : List Box) (n : Peeling)
    (o : Optimizer) : Prop where
  at_ : At [] n o
  literal : Literal T o
  marked : o.values.MarkedBelow k
  casting : Casting T (· < first) first walked n o.pool
  names : ∀ a a', Next n.next a a' → a'.kind = a.kind ∧ ∀ b, a' = .box b → b ∈ defined
  below : ∀ b ∈ defined, b.id < o.pool.nextBox

/-- A name is one of those there were, or the one of the result. -/
theorem next_recast {n : Peeling} {p : Pool} {op : Operation} {a a' : Operand}
    (h : Next (recast n p op).2.1.next a a') : Next n.next a a' ∨
      ∃ r, op.result = some r ∧ a = .box r ∧ a' = .box ⟨p.nextBox, r.kind⟩ := by
  have hdescr : ∀ (n : Peeling) (p : Pool) (d : Option Descr),
      (recastDescr n p d).2.1.next = n.next := by
    intro n p d
    unfold recastDescr
    split <;> rfl
  have hnext : (recast n p op).2.1.next = (recastResult n p op.result).2.1.next := hdescr ..
  rw [hnext] at h
  cases hr : op.result with
  | none =>
    rw [hr] at h
    exact .inl h
  | some r =>
    rw [hr] at h
    cases a with
    | const c => exact .inl h
    | box b =>
      have hb : (n.next.set r (.box ⟨p.nextBox, r.kind⟩)).get? b = some a' := h
      rw [Bindings.get?_set] at hb
      split at hb
      next he =>
        cases hb
        exact .inr ⟨r, rfl, by rw [he], rfl⟩
      next => exact .inl hb

section
variable {E : OptError → Prop} {T : FrameTable} {first k : Nat} {walked defined : List Box}
  {n : Peeling} {o : Optimizer}

/-- One recorded operation is written as it is in the next iteration. -/
theorem Again.step (h : Again T first k walked defined n o) {op : Operation}
    (hfits : op.Fits walked) (hopen : op.opcode.isFinal = false) (hplain : op.Plain)
    (hframes : op.snapshot.In T) (hown : ∀ frame ∈ op.snapshot, frame.id < first)
    {loopInputs : List Box} :
    Ends E (do
      let op ← rename 0 loopInputs op
      tell (.inlined op.opcode)
      send 0 op) o fun _ o' => ∃ T' op' n', T.Extends T' ∧
        Again T' first k (op.result.toList ++ walked) (op'.result.toList ++ defined) n' o' ∧
        Cast T' first n' op op' ∧ Later n n' ∧ Takes T' n n' o.pool o'.pool op op' ∧
        op'.Fits defined ∧ op'.opcode.isFinal = false ∧ ∃ pool chain sink events,
          o' = {o with pool, chain, sink, events, out := o.out.push op'} := by
  obtain ⟨T', hT, hcasting, hcast, hlater, htakes⟩ := h.casting.recast hfits hplain hframes hown
  have hnames : ∀ a a', Next (recast n o.pool op).2.1.next a a' → a'.kind = a.kind ∧
      ∀ b, a' = .box b → b ∈ (recast n o.pool op).1.result.toList ++ defined := by
    intro a a' ha
    rcases next_recast ha with ha | ⟨r, hr, rfl, rfl⟩
    · obtain ⟨hkind, hdefined⟩ := h.names a a' ha
      exact ⟨hkind, fun b hb => List.mem_append_right _ (hdefined b hb)⟩
    · refine ⟨rfl, ?_⟩
      rintro _ ⟨⟩
      rw [htakes.result, hr]
      exact List.mem_cons_self ..
  set op' := (recast n o.pool op).1
  set n' := (recast n o.pool op).2.1
  have hfinal : op'.opcode.isFinal = false := by rw [hcast.renders.opcode, hopen]
  have hclose := Operation.closes_of_not_final hfinal o.token
  have hfresh : ∀ r, op'.result = some r → r.id = o.pool.nextBox ∧ op.result.isSome := by
    intro r hr
    rw [htakes.result] at hr
    obtain ⟨r₀, hr₀, rfl⟩ := Option.map_eq_some_iff.1 hr
    exact ⟨rfl, by rw [hr₀]; rfl⟩
  rw [ends_bind, rename_recast h.at_ fun b hb => (h.casting.named b).2 (hfits.reads b hb),
    if_neg (show ¬ op'.closes o.token = true by simp [hclose]), ends_pure, ends_bind, ends_lift,
    yields_tell]
  show Ends E (liftM (emit op')) _ _
  rw [ends_lift]
  have hliteral : Literal T' {o.noting [] n' (recast n o.pool op).2.2 with
      events := o.events.push (.inlined op'.opcode)} := (h.literal.mono hT).congr rfl rfl rfl
  refine (hliteral.emit hcast.renders.snapshot_in).mono fun _ o' ⟨ho', sink, events, he⟩ => ?_
  subst he
  refine ⟨T', op', n', hT, ⟨rfl, ho', h.marked, hcasting, hnames, fun b hb => ?_⟩, hcast, hlater,
    htakes, ?_, hfinal, _, _, sink, events, rfl⟩
  · show b.id < (recast n o.pool op).2.2.nextBox
    rw [htakes.nextBox]
    rcases List.mem_append.1 hb with hb | hb
    · obtain ⟨hid, hsome⟩ := hfresh b (by simpa using hb)
      obtain ⟨r₀, hr₀⟩ := Option.isSome_iff_exists.1 hsome
      rw [hid, hr₀]
      simp
    · exact Nat.lt_of_lt_of_le (h.below b hb) (Nat.le_add_right ..)
  · refine htakes.reads.fits (fun a a' ha => (h.names a a' ha).1)
      (fun a b ha => (h.names a _ ha).2 b rfl) ?_ (fun r hr hm => ?_) hfits
    · rw [htakes.result]
      cases op.result <;> rfl
    · have := h.below r hm
      have := (hfresh r hr).1
      omega

theorem Again.congr {walked' defined' : List Box} (hw : ∀ b, b ∈ walked ↔ b ∈ walked')
    (hd : ∀ b, b ∈ defined ↔ b ∈ defined') (h : Again T first k walked defined n o) :
    Again T first k walked' defined' n o :=
  {h with
    casting := h.casting.congr hw
    names := fun a a' ha => ⟨(h.names a a' ha).1, fun b hb => (hd b).1 ((h.names a a' ha).2 b hb)⟩
    below := fun b hb => h.below b ((hd b).2 hb)}

/-- The recorded operations are written as they are in the next iteration. -/
theorem Again.all {ops : List Operation} (h : Again T first k walked defined n o)
    (hops : Accepts walked ops) (hplain : ∀ op ∈ ops, op.Plain)
    (hframes : ∀ op ∈ ops, op.snapshot.In T)
    (hown : ∀ op ∈ ops, ∀ frame ∈ op.snapshot, frame.id < first) {loopInputs : List Box} :
    Ends E (replay (send 0) 0 loopInputs ops) o fun _ o' => ∃ T' casts n',
      T.Extends T' ∧ Again T' first k (walked ++ results ops) (defined ++ results casts) n' o' ∧
      Recopied T' first ops casts n n' o.pool o'.pool ∧ Accepts defined casts ∧
      ∃ pool chain sink events,
        o' = {o with pool, chain, sink, events, out := o.out ++ casts.toArray} := by
  induction ops generalizing T walked defined n o with
  | nil =>
    exact ⟨T, [], n, .refl T, by simpa using h, .nil n o.pool, trivial, o.pool, o.chain, o.sink,
      o.events, by simp⟩
  | cons op ops ih =>
    obtain ⟨hfits, hopen, hrest⟩ := hops
    show Ends E ((do
      let op ← rename 0 loopInputs op
      tell (.inlined op.opcode)
      send 0 op) >>= fun _ => replay (send 0) 0 loopInputs ops) o _
    rw [ends_bind]
    refine (h.step hfits hopen (hplain op (List.mem_cons_self ..))
      (hframes op (List.mem_cons_self ..)) (hown op (List.mem_cons_self ..))).mono
      fun _ o₁ ⟨T₁, op', n₁, hT₁, h₁, hcast, hlater, htakes, hfits', hopen', hsame⟩ => ?_
    refine (ih h₁ hrest (fun op hop => hplain op (.tail _ hop))
      (fun op hop => (hframes op (.tail _ hop)).mono hT₁) fun op hop => hown op (.tail _ hop)).mono
      fun _ o' ⟨T', casts, n', hT', h', hcopied, haccepts, hsame'⟩ => ?_
    obtain ⟨_, _, _, _, rfl⟩ := hsame
    obtain ⟨pool, chain, sink, events, rfl⟩ := hsame'
    have hcongr : ∀ (xs ys zs : List Box) b, b ∈ xs ++ ys ++ zs ↔ b ∈ ys ++ (xs ++ zs) := by
      intro xs ys zs b
      simp only [List.mem_append]
      tauto
    refine ⟨T', op' :: casts, n', hT₁.trans hT', h'.congr (fun b => ?_) fun b => ?_,
      (Recopied.one hcast hlater htakes).append hT' hcopied, ⟨hfits', hopen', haccepts⟩, pool,
      chain, sink, events,
      by simp⟩
    · rw [results_cons]
      exact hcongr ..
    · rw [results_cons]
      exact hcongr ..

/-- The jump hands over the names of the inputs. -/
theorem Again.jump (h : Again T first k walked defined n o) {jump : Operation}
    (hclose : jump.closes o.token = true) (hnone : jump.result = none) (hplain : jump.Plain)
    (hreads : ∀ b, .box b ∈ jump.usedArgs → b ∈ walked) {loopInputs : List Box}
    (hloop : loopInputs ⊆ walked) :
    Ends E (replay (send 0) 0 loopInputs [jump]) o fun _ o' =>
      Literal T o' ∧ o'.values.MarkedBelow k ∧ ∃ values sink events, o' = {o with
        values, sink, events
        out := o.out.push {jump with args := loopInputs.map n.rename}} := by
  have hopcode := (Operation.closes_iff.1 hclose).1
  obtain ⟨hfail, hguard⟩ := hplain (Operation.isGuard_of_jump hopcode)
  have hcast : recast n o.pool jump =
      ({jump with args := (recast n o.pool jump).1.args}, n, o.pool) := by
    rw [recast_jump hclose hnone]
    simp [recast, hfail]
  have hclose' : (recast n o.pool jump).1.closes o.token = true := by
    rw [hcast]
    exact hclose
  show Ends E ((do
    let op ← rename 0 loopInputs jump
    tell (.inlined op.opcode)
    send 0 op) >>= fun _ => pure PUnit.unit) o _
  rw [ends_bind, ends_bind, rename_recast h.at_ fun b hb => (h.casting.named b).2 (hreads b hb),
    if_pos hclose', ends_bind, hcast, h.at_.noting_self]
  refine (h.literal.jumpArgs h.at_ fun b hb => (h.casting.named b).2 (hloop hb)).mono ?_
  rintro as o₁ ⟨has, hmet⟩
  subst has
  rw [ends_pure, ends_bind, ends_lift, yields_tell]
  show Ends E (liftM (emit {jump with args := loopInputs.map n.rename})) _ _
  rw [ends_lift]
  have h₁ : Literal T {o₁ with events := o₁.events.push (.inlined jump.opcode)} :=
    (h.literal.of_met hmet).congr rfl rfl rfl
  have hempty : ({jump with args := loopInputs.map n.rename} : Operation).snapshot = [] :=
    Operation.snapshot_of_guard?_eq_none hguard
  refine (h₁.emit (hempty ▸ trivial)).mono ?_
  rintro _ o' ⟨h', sink, events, ho'⟩
  · refine ⟨h', ?_, o₁.values, sink, events, ?_⟩
    · rw [ho']
      exact hmet.markedBelow h.literal.intact.values.inRange h.marked
    · rw [ho', hmet.eq_values]

end

/-! ### The whole way -/

/-- The lists are written: the trace as it was, and `casts` behind the boxes that the jump hands
over. The notes are `n` then, and the pool is `p`. -/
structure Copied (t : Trace) (body : List Operation) (jump : Operation) (T : FrameTable)
    (casts : List Operation) (n : Peeling) (p : Pool) (o : Optimizer) : Prop where
  preamble : o.preamble =
    some ⟨t.inputs, body ++ [.jumpTo t.token ((distinctBoxes jump.args).map .box)]⟩
  inputs : o.inputs = distinctBoxes jump.args
  token : o.token = t.token
  out : o.out.toList = casts ++ [{jump with args := (distinctBoxes jump.args).map n.rename}]
  accepts : Accepts (distinctBoxes jump.args) casts
  names : ∀ a a', Next n.next a a' → a'.kind = a.kind ∧
    ∀ b, a' = .box b → b ∈ distinctBoxes jump.args ++ results casts
  casting : Casting T (· < t.pool.nextFrame) t.pool.nextFrame (t.inputs ++ results body) n p
  recopied : Recopied T t.pool.nextFrame body casts (startingNotes t.inputs jump.args) n t.pool p

section
variable {E : OptError → Prop} {t : Trace} {body : List Operation} {jump : Operation}
  {o : Optimizer}

/-- The second way begins with the names of the inputs. -/
theorem again_begin (ht : t.Drawn) (hsplit : t.Split body jump)
    (hclose : jump.closes t.token = true)
    (hat : At [] (startingNotes t.inputs jump.args) o) (h : Literal t.frameTable o)
    (hmarked : o.values.MarkedBelow t.pool.nextBox) (hpool : o.pool = t.pool) :
    Again t.frameTable t.pool.nextFrame t.pool.nextBox t.inputs (distinctBoxes jump.args)
      (startingNotes t.inputs jump.args) o := by
  have hkinds := hsplit.kinds hclose
  have hlen := hkinds.length_eq.symm
  have hreads : ∀ b, .box b ∈ jump.args → b ∈ t.inputs ++ results body := fun b hb =>
    hsplit.fits.reads b (by simp [Operation.usedArgs, hb])
  refine ⟨hat, h, hmarked, ⟨named_startingNotes hsplit.nodup hlen, ?_, ?_, rfl, ?_⟩,
    fun a a' ha => ?_, fun b hb => ?_⟩
  · rw [Peeling.supply, hpool]
    exact .empty ht.below false
  · rw [Peeling.supply, hpool]
    exact .empty (fun _ hk => hk) false
  · rw [Peeling.supply, hpool]
    exact ⟨Nat.le_refl _, by rintro _ _ ⟨⟩⟩
  · cases a with
    | const c =>
      cases ha
      exact ⟨rfl, by rintro _ ⟨⟩⟩
    | box b =>
      have hmem := (next_inputs hsplit.nodup hlen).1 ha
      obtain ⟨i, hi, he⟩ := List.mem_iff_getElem.1 hmem
      simp only [List.length_zip] at hi
      rw [List.getElem_zip] at he
      cases he
      refine ⟨(List.forall₂_iff_get.1 hkinds).2 i (by omega) (by omega), ?_⟩
      rintro c hc
      exact mem_distinctBoxes.2 (hc ▸ List.getElem_mem (by omega))
  · rw [hpool]
    exact hsplit.id_lt ht (hreads b (mem_distinctBoxes.1 hb))

/-- The jump that closes the loop ends the preamble, and the loop is written. -/
theorem closePreamble_copies (ht : t.Drawn) (hsplit : t.Split body jump)
    (hclose : jump.closes t.token = true) {recorded : Peeling} (hat : At [] recorded o)
    (hrecorded : recorded.recorded = t.ops) (h : Literal t.frameTable o)
    (hmet : o.values.MetBelow t.pool.nextBox) (hout : o.out.toList = body)
    (hinputs : o.inputs = t.inputs) (htoken : o.token = t.token) (hpool : o.pool = t.pool) :
    Ends E (closePreamble (send 0) 0 jump) o fun _ o' => ∃ T casts n p,
      Copied t body jump T casts n p o' := by
  have hids : ∀ b ∈ t.inputs ++ results body, b.id < t.pool.nextBox := fun _ => hsplit.id_lt ht
  have hreads : ∀ b, .box b ∈ jump.args → b ∈ t.inputs ++ results body := fun b hb =>
    hsplit.fits.reads b (by simp [Operation.usedArgs, hb])
  have hbody : ∀ {op}, op ∈ body → op ∈ t.ops := fun hop => by simp [hsplit.ops, hop]
  unfold closePreamble
  rw [ends_bind, ends_lift]
  refine (h.capture jump.args).mono ?_
  rintro preamble o₁ ⟨hpre, oc, events, hcap, hoc, ho₁⟩
  rw [hout] at hpre
  subst hpre
  subst ho₁
  have hsame := hcap.eq_values
  have hat₁ : At [] recorded
      {oc with out := #[], sink := .keeping, mayRaise := false, events} := by
    rw [hsame]
    exact hat
  rw [ends_bind, ends_lift, yields_notes hat₁, ends_bind, ends_lift, yields_modifyNotes hat₁,
    ends_bind, ends_get, ends_bind, hrecorded]
  have hinputs' : oc.inputs = t.inputs := by
    rw [hsame]
    exact hinputs
  have hstart : Literal t.frameTable {oc with
      out := #[], sink := .keeping, mayRaise := false, events
      chain := [(⟨none, {recorded with recorded := []}⟩ : Stage)].toArray} := hoc.again rfl rfl rfl
  show Ends E (enter 0 oc.inputs jump.args preamble) _ _
  rw [show enter 0 oc.inputs jump.args preamble = enter 0 t.inputs jump.args preamble by
    rw [hinputs']]
  refine (hstart.enter (k := t.pool.nextBox) rfl (hsplit.kinds hclose).length_eq.symm
    (hcap.metBelow hmet fun b hb => hids b (hreads b hb)) hids).mono ?_
  rintro loopInputs o₂ ⟨hloop, h₂, hmarked, events', ho₂⟩
  subst hloop
  have htoken₂ : o₂.token = t.token := by
    rw [ho₂, ← htoken]
    show oc.token = _
    rw [hsame]
  have hpool₂ : o₂.pool = t.pool := by
    rw [ho₂, ← hpool]
    show oc.pool = _
    rw [hsame]
  have hout₂ : o₂.out = #[] := by rw [ho₂]
  have hagain := again_begin ht hsplit hclose (by rw [At, ho₂]; rfl) h₂ hmarked hpool₂
  rw [ends_bind, hsplit.ops, replay_append, ends_bind]
  refine (hagain.all hsplit.accepts (fun op hop => ht.plain op (hbody hop))
    (fun op hop => ht.snapshot_in (hbody hop))
    fun op hop frame hf => (ht.snapshot_in (hbody hop)).id_lt ht.below hf).mono ?_
  rintro _ o₃ ⟨T, casts, n, hT, h₃, hcopied, haccepts, p, chain, sink, events₃, ho₃⟩
  have htoken₃ : o₃.token = t.token := by rw [ho₃]; exact htoken₂
  refine (h₃.jump (htoken₃ ▸ hclose) hsplit.result (ht.plain jump (by simp [hsplit.ops]))
    hsplit.fits.reads fun b hb => hreads b (mem_distinctBoxes.1 hb)).mono ?_
  rintro _ o₄ ⟨h₄, hmarked₄, values, sink₄, events₄, ho₄⟩
  have hout₄ : o₄.out = casts.toArray.push
      {jump with args := (distinctBoxes jump.args).map n.rename} := by
    rw [ho₄, ho₃]
    simp [hout₂]
  have hopcode := (Operation.closes_iff.1 hclose).1
  rw [hpool₂] at hcopied
  -- All that the list reads is an input or computed by it.
  have hlocal : ∀ b ∈ distinctBoxes jump.args ++ results casts,
      b ∈ distinctBoxes jump.args ∨ t.pool.nextBox ≤ b.id := by
    intro b hb
    refine (List.mem_append.1 hb).imp_right fun hb => ?_
    have hid : b.id ∈ (results casts).map (·.id) := List.mem_map_of_mem hb
    rw [hcopied.ids] at hid
    exact (List.mem_range'_1.1 hid).1
  rw [ends_bind]
  refine (h₄.fixUp hmarked₄ hout₄ hopcode fun b hb => hlocal b ?_).mono ?_
  · rcases List.mem_append.1 hb with hb | hb
    · obtain ⟨op, hop, hread⟩ := mem_boxesRead.1 hb
      exact haccepts.reads hop hread
    · obtain ⟨a, ha, hab⟩ := List.mem_filterMap.1 hb
      obtain ⟨c, hc, rfl⟩ := List.mem_map.1 ha
      have hnamed := Peeling.next_rename
        ((h₃.casting.named c).2 (hreads c (mem_distinctBoxes.1 hc)))
      refine (h₃.names _ _ hnamed).2 b ?_
      cases hname : n.rename c with
      | const => simp [hname, Operand.box?] at hab
      | box => simpa [hname, Operand.box?] using hab
  · rintro inputs' o₅ ⟨hin, stats, ho₅⟩
    subst hin
    have htoken₅ : o₅.token = t.token := by
      rw [ho₅, ho₄]
      exact htoken₃
    refine ⟨T, casts, n, o₃.pool, ?_, rfl, htoken₅, ?_, haccepts, h₃.names, h₃.casting, hcopied⟩
    · show some _ = some _
      rw [htoken₅]
      show some (⟨oc.inputs, _⟩ : Preamble) = _
      rw [hinputs']
    · show o₅.out.toList = _
      rw [ho₅]
      show o₄.out.toList = _
      rw [hout₄]
      simp

/-- Without other passes the run goes this way. -/
theorem run_copies {c : Config} (hpeel : c.peel = true) (hbehind : c.behind = []) (ht : t.Drawn)
    (hsplit : t.Split body jump) (hclose : jump.closes t.token = true) :
    Ends (fun _ => False) run (c.optimizer t) fun _ o' => ∃ T casts n p,
      Copied t body jump T casts n p o' := by
  have hchain : (c.begin t).chain = [⟨some .peel, { recorded := t.ops }⟩].toArray := by
    simp [Config.begin, Config.chain, hpeel, hbehind]
  have hliteral : Literal t.frameTable (c.begin t) :=
    ⟨intact_begin c t, fun id => by rw [Values.slot_of_not_lt (Nat.not_lt_zero id)]; rfl,
      by rintro _ _ ⟨⟩, rfl, by rintro _ _ ⟨⟩⟩
  have hbody : ∀ {op}, op ∈ body → op ∈ t.ops := fun hop => by simp [hsplit.ops, hop]
  unfold Ends
  rw [run_eq]
  show Ends _ (t.ops.forM (sendTo 0)) (c.begin t) _
  rw [hsplit.ops]
  show Ends _ (forM (body ++ [jump]) (sendTo 0)) (c.begin t) _
  rw [List.forM_append, ends_bind]
  refine (keepAll_ends (C := fun _ => False) hbehind hchain hliteral
    (fun op hop => ht.snapshot_in (hbody hop)) fun op hop => closes_of_mem hsplit hop _).mono ?_
  rintro _ o ⟨h, sink, events, ho⟩
  show Ends _ (sendTo 0 jump >>= fun _ => pure PUnit.unit) o _
  rw [ends_bind]
  have hchain' : o.chain = (⟨some .peel, { recorded := t.ops }⟩ :: []).toArray := by
    rw [ho]
    exact hchain
  refine head_ends (C := fun _ => False) (c := c) hchain' (by simp [hbehind]) ?_
  unfold Peel.step
  rw [ends_bind, ends_get, if_pos (by rw [ho]; exact hclose), hbehind]
  have hat : At [] { recorded := t.ops }
      {o with chain := (⟨none, { recorded := t.ops }⟩ :: []).toArray, cursor := 0} := rfl
  refine (closePreamble_copies ht hsplit hclose hat rfl (h.congr rfl rfl rfl)
    ?_ ?_ ?_ ?_ ?_).mono ?_
  · rw [ho]
    exact fun b hb => absurd rfl hb
  · rw [ho]
    show (#[] ++ body.toArray).toList = _
    simp
  · rw [ho]
    rfl
  · rw [ho]
    rfl
  · rw [ho]
    rfl
  · rintro _ o' ⟨T, casts, n, p, h'⟩
    exact ⟨T, casts, n, p, h'.preamble, h'.inputs, h'.token, h'.out, h'.accepts, h'.names,
      h'.casting, h'.recopied⟩

end

/-! ### The loop -/

section
variable {t : Trace} {body : List Operation} {jump : Operation} {T : FrameTable}
  {casts : List Operation} {n : Peeling} {p : Pool} {o : Optimizer}

theorem Copied.split (h : Copied t body jump T casts n p o) (ht : t.Drawn)
    (hsplit : t.Split body jump) (hclose : jump.closes t.token = true) (name : String) :
    (o.loop name).toTrace.Split casts
      {jump with args := (distinctBoxes jump.args).map n.rename} := by
  have hopcode := (Operation.closes_iff.1 hclose).1
  have hnamed : ∀ b ∈ distinctBoxes jump.args, Next n.next (.box b) (n.rename b) := fun b hb =>
    Peeling.next_rename ((h.casting.named b).2 (hsplit.fits.reads b (by
      simp [Operation.usedArgs, mem_distinctBoxes.1 hb])))
  have hfits : ({jump with args := (distinctBoxes jump.args).map n.rename} : Operation).Fits
      (distinctBoxes jump.args ++ results casts) := by
    refine fits_of_jump {jump with args := (distinctBoxes jump.args).map n.rename} hopcode
      (ht.plain jump (by simp [hsplit.ops])) hsplit.result fun b hb => ?_
    obtain ⟨c, hc, hcb⟩ := List.mem_map.1 hb
    exact (h.names _ _ (hnamed c hc)).2 b hcb
  refine ⟨h.out, ?_, ?_, ?_, .inr ⟨hopcode, t.token, ?_, fun _ => ?_⟩⟩
  · show o.inputs.Nodup
    rw [h.inputs]
    exact nodup_distinctBoxes _
  · show Accepts o.inputs casts
    rw [h.inputs]
    exact h.accepts
  · show Operation.Fits (o.inputs ++ results casts) _
    rw [h.inputs]
    exact hfits
  · exact (Operation.closes_iff.1 hclose).2
  · show List.Forall₂ _ ((distinctBoxes jump.args).map n.rename) o.inputs
    rw [h.inputs, List.forall₂_map_left_iff, List.forall₂_same]
    exact fun b hb => (h.names _ _ (hnamed b hb)).1

theorem Copied.opened (h : Copied t body jump T casts n p o) (ht : t.Drawn)
    (hsplit : t.Split body jump) : Opened t body (o.loop t.name) := by
  have hinputs : (o.loop t.name).inputs = distinctBoxes jump.args := h.inputs
  refine ⟨?_, h.token, fun b hb => ?_, hsplit.accepts, fun r hr hmem => ?_⟩
  · rw [hinputs]
    exact h.preamble
  · rw [hinputs, mem_distinctBoxes] at hb
    exact hsplit.fits.reads b (by simp [Operation.usedArgs, hb])
  · have hr' : r ∈ results casts := by
      rw [show (o.loop t.name).ops = _ from h.out] at hr
      simpa [hsplit.result] using hr
    have hid : r.id ∈ (results casts).map (·.id) := List.mem_map_of_mem hr'
    rw [h.recopied.ids] at hid
    have hle := (List.mem_range'_1.1 hid).1
    have hlt := hsplit.id_lt ht hmem
    omega

theorem Copied.verify (h : Copied t body jump T casts n p o) (ht : t.Drawn)
    (hsplit : t.Split body jump) (hclose : jump.closes t.token = true) :
    (o.loop t.name).verify = .ok () := by
  have hs := h.split ht hsplit hclose t.name
  exact (h.opened ht hsplit).verify hsplit.nodup
    (Verify.ops_ok_iff.2 ⟨hs.nodup, _, _, hs.ops, hs.accepts, hs.fits, hs.lands⟩)

theorem Copied.copiedAs (h : Copied t body jump T casts n p o) (ht : t.Drawn)
    (hsplit : t.Split body jump) (hclose : jump.closes t.token = true) :
    t.CopiedAs body jump n.rename (o.loop t.name) := by
  have hlen := (hsplit.kinds hclose).length_eq.symm
  have hinputs : (o.loop t.name).inputs = distinctBoxes jump.args := h.inputs
  have hcast := h.recopied.cast
  have hmapped := h.recopied.mapped
  obtain ⟨hnodup, hnew⟩ := h.recopied.fresh
  refine ⟨h.token, ?_, (h.opened ht hsplit).preamble, h.recopied.handed hsplit.nodup hlen,
    ⟨results casts, results_mapped hmapped, h.recopied.kinds, hnodup, fun b hb hold => ?_⟩,
    ⟨casts, ?_⟩⟩
  · rw [hinputs, distinctBoxes_eq]
  · exact absurd (hnew b hb) (Nat.not_le.2 (ht.boxes b hold))
  · refine ⟨?_, hmapped, h.recopied.numbers, fun op hop frame hframe => ?_,
      fun p hp q hq => ?_⟩
    · rw [hinputs]
      exact h.out
    · obtain ⟨_, _, hc⟩ := exists_right_of_mem hcast.flip hop
      exact hc.fresh frame hframe
    · obtain ⟨-, hzip⟩ := List.forall₂_iff_zip.1 hcast
      exact h.casting.faithful.sharesAs (hzip hp).remembers (hzip hq).remembers

end

end Optimizer

namespace Config
open Optimizer

/-- With nothing but peeling, a trace that is not too long becomes the trace itself and a renamed
copy of it. -/
theorem peel_copies {c : Config} {t : Trace} {body : List Operation} {jump : Operation}
    (hpeel : c.peel = true) (hrewrite : c.rewrite = false) (hvirtualize : c.virtualize = false)
    (ht : t.Drawn) (hlen : t.ops.length ≤ c.maxOps) (hops : t.ops = body ++ [jump])
    (hjump : jump.closes t.token = true) :
    ∃ l s, c.optimizeLoop t = .ok l ∧ t.CopiedAs body jump s l := by
  obtain ⟨body', jump', hsplit⟩ := Trace.exists_split ht.verified
  obtain ⟨rfl, hlast⟩ := List.append_inj' (hops.symm.trans hsplit.ops) rfl
  obtain rfl : jump = jump' := List.singleton_inj.1 hlast
  have hbehind : c.behind = [] := by simp [behind, hrewrite, hvirtualize]
  obtain ⟨_, o, hrun, T, casts, n, p, h⟩ :=
    exists_of_ends (run_copies hpeel hbehind ht hsplit hjump)
  exact ⟨o.loop t.name, n.rename,
    optimizeLoop_of_run hlen ht.verified hrun (h.verify ht hsplit hjump),
    h.copiedAs ht hsplit hjump⟩

theorem counting_copied : ∃ l s,
    optimizeLoop { rewrite := false, virtualize := false } .counting = .ok l ∧
      Trace.counting.CopiedAs (Trace.counting.ops.take 3)
        (.jumpTo Trace.counting.token [.box ⟨2, .int⟩]) s l :=
  peel_copies rfl rfl rfl Trace.counting_recorded.drawn (by decide) (by decide) (by decide)

/-- A trace that is longer than the settings allow is given up, however simple it is. -/
theorem longer_is_not_copied : ¬ ∀ (c : Config) (t : Trace), t.Drawn → c.peel = true →
    c.rewrite = false → c.virtualize = false →
    (∃ jump ∈ t.ops.getLast?, jump.closes t.token = true) → ∃ l, c.optimizeLoop t = .ok l := by
  intro hclaim
  let started := (Trace.start "Loop0").input .int
  let t : Trace := started.2.close [.box started.1]
  obtain ⟨l, hl⟩ := hclaim { rewrite := false, virtualize := false, maxOps := 0 } t (by decide)
    rfl rfl rfl ⟨_, rfl, by decide⟩
  rw [optimizeLoop_tooLong (by decide)] at hl
  cases hl

end Config
end TracePeel
