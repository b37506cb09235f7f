import TracePeel.Proofs.Peeling.FixingUp
import TracePeel.Proofs.Refusing

/-! The preamble is closed and the loop written.

`Way` are the states passed on the way from the jump that closes the loop to the
finished lists, and `Closed` says how each follows from the one before it. No box is
without a name in the next iteration and the list ends in its jump, so again only a
guard that can never pass stops the way. -/
namespace TracePeel

namespace Bindings
variable {κ ν : Type} [DecidableEq κ]

theorem get?_foldl {pairs : List (κ × ν)} {m : Bindings κ ν} :
    (∀ k v, (pairs.foldl (fun m p => m.set p.1 p.2) m).get? k = some v →
      (k, v) ∈ pairs ∨ m.get? k = some v) ∧
    ((pairs.map (·.1)).Nodup → ∀ k v, (k, v) ∈ pairs ∨ k ∉ pairs.map (·.1) ∧ m.get? k = some v →
      (pairs.foldl (fun m p => m.set p.1 p.2) m).get? k = some v) := by
  induction pairs generalizing m with
  | nil => simp
  | cons p pairs ih =>
    obtain ⟨a, b⟩ := p
    obtain ⟨hsome, hmem⟩ := ih (m := m.set a b)
    simp only [List.foldl_cons, List.map_cons, List.nodup_cons, List.mem_cons, Prod.mk.injEq]
    refine ⟨fun k v h => ?_, fun hkeys k v h => hmem hkeys.2 k v ?_⟩
    · rcases hsome k v h with h | h
      · exact .inl (.inr h)
      · rw [get?_set] at h
        split at h
        next he => exact .inl (.inl ⟨he.symm, (Option.some.inj h).symm⟩)
        next => exact .inr h
    · rw [get?_set]
      rcases h with (⟨rfl, rfl⟩ | h) | ⟨hno, h⟩
      · exact .inr ⟨hkeys.1, by simp⟩
      · exact .inl h
      · rw [not_or] at hno
        exact .inr ⟨hno.2, by rw [if_neg (Ne.symm hno.1)]; exact h⟩

/-- Pairs with distinct keys are what is bound. -/
theorem get?_ofList {pairs : List (κ × ν)} (hn : (pairs.map (·.1)).Nodup) {k : κ} {v : ν} :
    (ofList pairs).get? k = some v ↔ (k, v) ∈ pairs := by
  refine ⟨fun h => ?_, fun h => get?_foldl.2 hn k v (.inl h)⟩
  rcases get?_foldl.1 k v h with h | h
  · exact h
  · cases h

end Bindings

namespace Optimizer
open Peel

section
variable {T : FrameTable} {base defined inputs : List Box} {args : List Operand}

/-- The inputs are in the next iteration what the jump hands over. -/
theorem next_inputs (hn : inputs.Nodup) (hlen : inputs.length = args.length) {b : Box}
    {a : Operand} :
    (Bindings.ofList (inputs.zip args)).get? b = some a ↔ (b, a) ∈ inputs.zip args := by
  refine Bindings.get?_ofList ?_
  rwa [List.map_fst_zip (Nat.le_of_eq hlen)]

/-- The names that the inputs begin the second way with. -/
theorem Renaming.begin {n : Peeling} {nextFrame : Nat} (hn : inputs.Nodup)
    (hkinds : List.Forall₂ (fun a b => a.kind = b.kind) args inputs)
    (hargs : ∀ b, .box b ∈ args → b ∈ defined) (hbelow : T.Below nextFrame)
    (hnext : n.next = .ofList (inputs.zip args)) (hrelinker : n.relinker = .copying) :
    Renaming T defined inputs n nextFrame where
  next b hb := by
    obtain ⟨i, hi, rfl⟩ := List.mem_iff_getElem.1 hb
    have hi' : i < args.length := by rwa [hkinds.length_eq]
    refine ⟨args[i], ?_, (List.forall₂_iff_get.1 hkinds).2 i hi' hi, fun c hc => ?_⟩
    · rw [hnext, next_inputs hn hkinds.length_eq.symm]
      exact List.mem_iff_getElem.2 ⟨i, by simpa using ⟨hi, hi'⟩, by simp⟩
    · exact hargs c (hc ▸ List.getElem_mem hi')
  only b hb := by
    obtain ⟨a, ha⟩ := Option.ne_none_iff_exists'.1 hb
    rw [hnext, next_inputs hn hkinds.length_eq.symm] at ha
    exact (List.of_mem_zip ha).1
  relinker := by
    rw [hrelinker]
    exact .empty hbelow false

end

/-- The jump that closes the loop, at the end of a recorded list. -/
structure Closes (token : LoopToken) (inputs : List Box) (body : List Operation)
    (jump : Operation) : Prop where
  closes : jump.closes token = true
  fits : jump.Fits (inputs ++ results body)
  plain : jump.Plain
  kinds : List.Forall₂ (fun a b => a.kind = b.kind) jump.args inputs
  nodup : inputs.Nodup

namespace Closes
variable {token : LoopToken} {inputs : List Box} {body : List Operation} {jump : Operation}

theorem opcode (h : Closes token inputs body jump) : jump.opcode = .jump :=
  (Operation.closes_iff.1 h.closes).1

theorem token? (h : Closes token inputs body jump) : jump.token? = some token :=
  (Operation.closes_iff.1 h.closes).2

theorem snapshot (h : Closes token inputs body jump) : jump.snapshot = [] :=
  Operation.snapshot_of_guard?_eq_none (h.plain (Operation.isGuard_of_jump h.opcode)).2

theorem result (h : Closes token inputs body jump) : jump.result = none := by
  cases hr : jump.result with
  | none => rfl
  | some r =>
    have := (h.fits.produced r hr).1
    rw [h.opcode] at this
    cases this

theorem reads (h : Closes token inputs body jump) :
    ∀ b, .box b ∈ jump.args → b ∈ inputs ++ results body :=
  fun b hb => h.fits.reads b (by simp [Operation.usedArgs, hb])

end Closes

/-- A jump reads what it hands over. -/
theorem usedArgs_of_jump (op : Operation) (hop : op.opcode = .jump) (hplain : op.Plain) :
    op.usedArgs = op.args := by
  obtain ⟨hfail, hdescr⟩ := hplain (Operation.isGuard_of_jump hop)
  rw [Operation.usedArgs, hfail, Operation.snapshot_of_guard?_eq_none hdescr]
  simp [Snapshot.operands]

/-- A jump with other operands fits where these are defined. -/
theorem fits_of_jump (op : Operation) (hop : op.opcode = .jump) (hplain : op.Plain)
    (hresult : op.result = none) {defined : List Box}
    (hreads : ∀ b, .box b ∈ op.args → b ∈ defined) : op.Fits defined := by
  have hguard : op.isGuard = false := Operation.isGuard_of_jump hop
  exact ⟨by simp [hop, Opcode.arity?], fun b hb => hreads b (usedArgs_of_jump op hop hplain ▸ hb),
    by simp [Verify.kindsAgree, hop], by simp [hguard], by simp [hresult],
    fun _ => by rw [hop]; rfl⟩

/-- A jump bears no number and no frames. -/
theorem neat_of_jump (op : Operation) (hop : op.opcode = .jump) (hplain : op.Plain) {n : Nat}
    {T : FrameTable} : op.Neat n T := by
  obtain ⟨-, hdescr⟩ := hplain (Operation.isGuard_of_jump hop)
  refine ⟨hplain, fun p hp => ?_, ?_⟩
  · rw [hdescr] at hp
    cases hp
  · rw [Operation.snapshot_of_guard?_eq_none hdescr]
    trivial

/-! ### The jump in the next iteration -/

/-- The jump hands over what the inputs are in the next iteration, and was written. -/
structure Jumped (c : Config) (base defined : List Box) (rest : List Stage) (n : Peeling)
    (loopInputs : List Box) (jump : Operation) (o asked : Optimizer) (jump' : Operation)
    (written : Optimizer) (out : Array Operation) (last : Operation) : Prop where
  renamed : ∃ T n' jump₀ o₁, Renamed T rest n n' jump jump₀ o o₁ ∧ Grown o₁ asked ∧
    jump' = {jump₀ with args := jump'.args} ∧ Working T base base defined asked
  hands : List.Forall₂ (Hands n.next base asked) loopInputs jump'.args
  handled : ∃ events, Handled c.behind jump' {asked with events} written
  renders : ∃ T, jump'.Renders (fun a a' => a'.kind = a.kind ∧
    written.values.Ready (base ++ results out.toList) base a') T last
  grows : asked.out.toList <+: written.out.toList
  out : written.out = out.push last
  plain : last.Plain
  result : last.result = none

/-- At the jump, the inputs are in the next iteration what it hands over. -/
theorem renameJump_ends {E : OptError → Prop} {T : FrameTable}
    {base defined inputs loopInputs : List Box} {rest : List Stage} {n : Peeling}
    {body : List Operation} {jump : Operation} {o : Optimizer}
    (h : Replaying T base defined (inputs ++ results body) rest n o)
    (hjump : Closes o.token inputs body jump) (hloop : loopInputs ⊆ inputs ++ results body) :
    Ends E (rename 0 loopInputs jump) o fun jump' asked => ∃ T₁ n₁ jump₀ o₁, T.Extends T₁ ∧
      Renamed T₁ rest n n₁ jump jump₀ o o₁ ∧ Grown o₁ asked ∧ At rest n₁ asked ∧
      Working T₁ base base defined asked ∧ jump' = {jump₀ with args := jump'.args} ∧
      List.Forall₂ (Hands n.next base asked) loopInputs jump'.args ∧ jump'.Fits defined := by
  have hnone := hjump.result
  refine rename_ends h.notes h.names hjump.fits.reads (by rw [hjump.snapshot]; trivial)
    (fun r hr => absurd hr (by simp [hnone])) fun T₁ n₁ jump₀ o₁ hT₁ hr => ?_
  have hopcode : jump₀.opcode = .jump := hr.renders.opcode.trans hjump.opcode
  obtain ⟨hresult, hnext⟩ := hr.unproduced hnone
  have hcloses : jump₀.closes o₁.token = true := by
    have htoken : o₁.token = o.token := by rw [hr.same]
    rw [Operation.closes, hopcode, hr.renders.token?, hjump.token?, htoken]
    simp
  rw [if_pos hcloses, ends_bind]
  have hw₁ : Working T₁ base base defined o₁ := by
    refine h.working.pool hT₁ hr.relinker.below ?_ hr.nextGuard (by rw [hr.same])
    rw [hr.nextBox]
    exact Nat.le_add_right ..
  have hnames : Renaming T₁ defined (inputs ++ results body) n₁ o₁.pool.nextFrame := by
    have := hr.names h.names (.refl T₁) hr.relinker.below
    rwa [hresult, hnone] at this
  refine (jumpArgs_ends hr.at_ hnames hloop hw₁.built).mono ?_
  rintro as o₂ ⟨hbuilt, hg, hands⟩
  have hw₂ := hg.working hw₁ hbuilt
  have hplain : jump₀.Plain := hr.renders.plain hjump.plain
  have hfits : ({jump₀ with args := as} : Operation).Fits defined := by
    refine fits_of_jump {jump₀ with args := as} hopcode hplain hresult fun b hb => ?_
    obtain ⟨_, _, a, _, _, hdel⟩ := exists_right_of_mem hands.flip hb
    exact hw₂.built.table.subset (hdel.stands.2 b rfl).1
  rw [hnext] at hands
  exact ⟨T₁, n₁, jump₀, o₁, hT₁, hr, hg, hg.at_ hr.at_, hw₂, rfl, hands, hfits⟩

/-- The jump hands over what the inputs are in the next iteration. It is not refused. -/
theorem replayJump_ends {E : OptError → Prop} {c : Config} {T : FrameTable}
    {base defined inputs loopInputs : List Box} {rest : List Stage} {n : Peeling}
    {body : List Operation} {jump : Operation} {o : Optimizer}
    (hrest : rest.map (·.pass) = c.behind.map some)
    (h : Replaying T base defined (inputs ++ results body) rest n o)
    (hjump : Closes o.token inputs body jump) (hloop : loopInputs ⊆ inputs ++ results body) :
    Ends E (replay (send c.behind.length) 0 loopInputs [jump]) o fun _ o' =>
      ∃ asked jump' out last, Jumped c base defined rest n loopInputs jump o asked jump' o' out
        last ∧ last.opcode = .jump ∧ last.token? = some o.token ∧
      ∃ T' n', Built o'.pool.nextGuard T' base base defined o'.values out.toList ∧ At rest n' o' ∧
        n'.next = n.next ∧ Renaming T' defined (inputs ++ results body) n' o'.pool.nextFrame := by
  have hnone := hjump.result
  show Ends _ ((do
    let op ← rename 0 loopInputs jump
    tell (.inlined op.opcode)
    send c.behind.length op) >>= fun _ => pure PUnit.unit) o _
  rw [ends_bind, ends_bind]
  refine (renameJump_ends h hjump hloop).mono ?_
  rintro jump' o₂ ⟨T₁, n₁, jump₀, o₁, hT₁, hr, hg, hat₂, hw₂, hjump', hands, hfits⟩
  have hopcode : jump₀.opcode = .jump := hr.renders.opcode.trans hjump.opcode
  obtain ⟨hresult, hnext⟩ := hr.unproduced hnone
  rw [hjump'] at hfits ⊢
  rw [ends_bind, ends_lift, yields_tell]
  have hguard : ({jump₀ with args := jump'.args} : Operation).isGuard = false :=
    Operation.isGuard_of_jump hopcode
  refine (behind_open_ends (o := {o₂ with events := o₂.events.push (.inlined jump₀.opcode)})
    (hat₂.behind hrest) hw₂.inRange hguard).mono fun _ o' hs => ?_
  obtain ⟨T', out, last, hT', hextends, hbelow, hbuilt', hout, hrenders, hlast, -⟩ :=
    concludes_handled c
      (o := {o₂ with events := o₂.events.push (.inlined jump₀.opcode)}) { hw₂ with } hfits
      (by rw [hopcode]; rfl) (by
        have := hr.renders.snapshot_in
        exact this) hs
  refine ⟨o₂, {jump₀ with args := jump'.args}, out, last,
    ⟨⟨T₁, n₁, jump₀, o₁, hr, hg, rfl, hw₂⟩, hands, ⟨_, hs⟩, ⟨T', hrenders⟩, hextends.grows, hout,
      hrenders.plain (hr.renders.plain hjump.plain), hlast.trans hresult⟩,
    hrenders.opcode.trans hopcode, ?_, T', n₁, ?_, ?_, hnext, ?_⟩
  · rw [hrenders.token?]
    exact hr.renders.token?.trans hjump.token?
  · rwa [show o'.pool.nextGuard = o₂.pool.nextGuard from hs.keeps.nextGuard]
  · rw [At, hs.keeps.chain]
    exact hat₂
  · have := hr.names h.names hT' hbelow
    rwa [hresult, hnone] at this

/-! ### The whole way -/

theorem replay_append (emit : Operation → Optimize Unit) (loopInputs : List Box)
    (xs ys : List Operation) : replay emit 0 loopInputs (xs ++ ys) =
      (do replay emit 0 loopInputs xs; replay emit 0 loopInputs ys) :=
  List.forM_append

/-- The states and lists on the way from the jump that closes the loop to its end. -/
structure Way where
  /-- What the jump hands over was forced. -/
  captured : Optimizer
  /-- The second way begins, with these inputs and notes. -/
  entered : Optimizer
  loopInputs : List Box
  started : Peeling
  /-- The operations in front of the jump were gone through. -/
  replayed : Optimizer
  notes : Peeling
  defined : List Box
  /-- What the inputs are in the next iteration was forced for the jump. -/
  asked : Optimizer
  jump : Operation
  /-- The jump was written behind this list. -/
  written : Optimizer
  out : Array Operation
  last : Operation
  /-- No input is missing any more. -/
  searched : Optimizer
  added : List Box
  handed : List Operand

namespace Way

/-- The boxes that the loop may be handed: the inputs and the results of the preamble. -/
def base (w : Way) (inputs : List Box) : List Box :=
  inputs ++ results w.captured.out.toList

/-- The inputs of the loop. -/
def inputs (w : Way) : List Box :=
  w.loopInputs ++ w.added

end Way

/-- Each state on the way follows from the one before. -/
structure Closed (c : Config) (T : FrameTable) (inputs : List Box) (rest : List Stage)
    (body : List Operation) (jump : Operation) (o : Optimizer) (w : Way) (o' : Optimizer) :
    Prop where
  captured : Captured T inputs (inputs ++ results body) jump.args o w.captured
  entered : ∃ n chain events, Entered T (w.base inputs) (inputs ++ results body) inputs jump.args
    rest n {w.captured with out := #[], sink := .keeping, mayRaise := false, chain, events}
    w.loopInputs w.entered
  started : Replaying T (w.base inputs) (inputs ++ results body) inputs rest w.started w.entered
  next : w.started.next = .ofList (inputs.zip jump.args)
  replayed : Replayed c.behind rest body w.started w.entered w.notes w.replayed
  replaying : ∃ T', Replaying T' (w.base inputs) w.defined (inputs ++ results body) rest w.notes
    w.replayed
  jumped : Jumped c (w.base inputs) w.defined rest w.notes w.loopInputs jump w.replayed w.asked
    w.jump w.written w.out w.last
  searched : ∃ T', T'.Below w.written.pool.nextFrame ∧
    Built w.written.pool.nextGuard T' (w.base inputs) (w.base inputs) w.defined w.written.values
      w.out.toList ∧
    Searched w.written.pool.nextGuard T' (w.base inputs) w.defined w.notes.next w.loopInputs
      w.added w.last.args w.handed {w.written with out := w.out} w.searched
  last : w.last.opcode = .jump ∧ w.last.token? = some o.token
  ends : ∃ stats, o' = {w.searched with
    stats
    out := w.searched.out.push {w.last with args := w.last.args ++ w.handed}
    preamble := some ⟨inputs, w.captured.out.toList ++
      [.jumpTo w.searched.token (w.inputs.map .box)]⟩
    inputs := w.inputs}

theorem Replayed.token {ps : List Pass} {rest : List Stage} {ops : List Operation}
    {n n' : Peeling} {o o' : Optimizer} (h : Replayed ps rest ops n o n' o') :
    o'.token = o.token := by
  induction h with
  | nil => rfl
  | cons hr _ hs _ ih => rw [ih, hs.keeps.token, hr.same]

theorem closePreamble_ends {C : OptCause → Prop}
    (hC : ∀ cause, cause.isGuardFailure = true → C cause) {c : Config} {T : FrameTable}
    {inputs : List Box} {rest : List Stage}
    {n : Peeling} {body : List Operation} {jump : Operation} {o : Optimizer}
    (hrest : rest.map (·.pass) = c.behind.map some)
    (hw : Working T inputs [] (inputs ++ results body) o) (hat : At rest n o)
    (hrecorded : n.recorded = body ++ [jump]) (hinputs : o.inputs = inputs)
    (hjump : Closes o.token inputs body jump)
    (hbody : Coming T inputs o.pool.nextGuard o.pool.nextBox body) :
    Ends (fun e => C e.cause) (closePreamble (send c.behind.length) 0 jump) o fun _ o' =>
      ∃ w, Closed c T inputs rest body jump o w o' := by
  unfold closePreamble
  rw [ends_bind, ends_lift]
  refine (capture_yields hw hjump.reads).mono ?_
  rintro preamble o₁ ⟨oc, events, hcap, hpre, ho₁⟩
  have hsame := hcap.grown.same
  have hat₁ : At rest n o₁ := by
    rw [At, ho₁]
    exact hcap.grown.at_ hat
  rw [ends_bind, ends_lift, yields_notes hat₁, ends_bind, ends_lift, yields_modifyNotes hat₁,
    ends_bind, ends_get, ends_bind, hrecorded]
  have hstart : inputs = oc.inputs := by
    rw [hsame]
    exact hinputs.symm
  subst hpre
  subst ho₁
  subst hstart
  have hoc := hcap.working
  refine (enter_ends (o := {oc with
      out := #[], sink := .keeping, mayRaise := false, events
      chain := (⟨none, {n with recorded := []}⟩ :: rest).toArray}) rfl rfl hoc.built.table hoc.known
    hoc.ids hoc.sink.below rfl rfl hjump.kinds.length_eq.symm hcap.emitted).mono ?_
  rintro loopInputs o₂ ⟨hent, -⟩
  -- The names that the second way begins with.
  obtain ⟨_, hsame₂⟩ := hent.same
  have hargs : ∀ b, .box b ∈ jump.args → b ∈ oc.inputs ++ results body := hjump.reads
  have hstarted : Replaying T (oc.inputs ++ results oc.out.toList) (oc.inputs ++ results body)
      oc.inputs rest _ o₂ := {
    working := hent.working
    notes := by rw [At, hsame₂]
    names := .begin hjump.nodup hjump.kinds hargs hent.working.sink.below rfl rfl }
  rw [ends_bind, replay_append, ends_bind]
  refine (replay_ends hC hrest hstarted hbody).mono ?_
  rintro _ o₃ ⟨n₃, T₃, defined, hrep, hT₃, h₃, he₃, hsub₃⟩
  have hbase : oc.inputs ++ results oc.out.toList ⊆ oc.inputs ++ results body :=
    hoc.built.table.subset
  have htoken : o₃.token = o.token := by rw [hrep.token, hsame₂, hsame]
  refine (replayJump_ends hrest h₃ (by rwa [htoken])
    (List.Subset.trans hent.subset hbase)).mono ?_
  rintro _ o₆
    ⟨asked, jump', out, last, hjumped, hop, htoken', T₆, n₆, hbuilt, hat₆, hn₆, hnames₆⟩
  obtain ⟨T', hrenders⟩ := hjumped.renders
  have hready : ∀ a ∈ last.args,
      o₆.values.Ready (oc.inputs ++ results oc.out.toList ++ results out.toList)
        (oc.inputs ++ results oc.out.toList) a := by
    intro a ha
    obtain ⟨_, _, hR⟩ := exists_right_of_mem hrenders.args.flip ha
    exact hR.2
  rw [ends_bind]
  refine (fixUp_ends hat₆ hnames₆ hbase hjumped.out hop hbuilt hready hent.nodup
    hent.subset).mono ?_
  rintro inputs' o₇ ⟨added, handed, o₈, stats, hin, hsearched, ho₇⟩
  subst hin
  subst ho₇
  exact ⟨⟨oc, o₂, loopInputs, _, o₃, n₃, defined, asked, jump', o₆, out, last, o₈, added, handed⟩,
    hcap, ⟨_, _, _, hent⟩, hstarted, rfl, hrep, ⟨T₃, h₃⟩, hjumped,
    ⟨T₆, hnames₆.relinker.below, hbuilt, hn₆ ▸ hsearched⟩,
    ⟨hop, htoken'.trans (by rw [htoken])⟩, stats, rfl⟩

end Optimizer
end TracePeel
