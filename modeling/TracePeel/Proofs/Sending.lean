import TracePeel.Optimize.Optimizer
import TracePeel.Proofs.Sink

/-! One operation through the chain.

`Handled` says what becomes of an operation in the passes that are still in front of
it, down to the list. `send_ends` shows that the chain does just that: taking a pass
out of its place and putting it back leaves no trace, and no stage behind peeling is
found without its pass. -/
namespace TracePeel.Optimizer

/-- What the passes behind peeling leave alone. -/
structure Keeps (o o' : Optimizer) : Prop where
  chain : o'.chain = o.chain
  cursor : o'.cursor = o.cursor
  token : o'.token = o.token
  inputs : o'.inputs = o.inputs
  pending : o'.pending = o.pending
  preamble : o'.preamble = o.preamble
  nextBox : o'.pool.nextBox = o.pool.nextBox
  nextGuard : o'.pool.nextGuard = o.pool.nextGuard
  nextToken : o'.pool.nextToken = o.pool.nextToken

namespace Keeps
variable {o o₁ o₂ : Optimizer}

theorem refl (o : Optimizer) : Keeps o o :=
  ⟨rfl, rfl, rfl, rfl, rfl, rfl, rfl, rfl, rfl⟩

theorem trans (h₁ : Keeps o o₁) (h₂ : Keeps o₁ o₂) : Keeps o o₂ where
  chain := h₂.chain.trans h₁.chain
  cursor := h₂.cursor.trans h₁.cursor
  token := h₂.token.trans h₁.token
  inputs := h₂.inputs.trans h₁.inputs
  pending := h₂.pending.trans h₁.pending
  preamble := h₂.preamble.trans h₁.preamble
  nextBox := h₂.nextBox.trans h₁.nextBox
  nextGuard := h₂.nextGuard.trans h₁.nextGuard
  nextToken := h₂.nextToken.trans h₁.nextToken

theorem persists : Persists (α := Operand) (β := Operand) Keeps fun _ _ _ => True :=
  ⟨refl, trans, fun _ h => h⟩

end Keeps

theorem Met.keeps {as : List Operand} {o o' : Optimizer} (h : Met as o o') : Keeps o o' := by
  rw [h.eq_values]
  exact ⟨rfl, rfl, rfl, rfl, rfl, rfl, rfl, rfl, rfl⟩

/-! ### Writing to the list -/

theorem forwardBox_keeps (b : Box) (o : Optimizer) :
    Yields (forwardBox b) o fun _ o' => Keeps o o' := by
  unfold forwardBox
  rw [yields_bind, yields_get]
  split
  · exact ⟨rfl, rfl, rfl, rfl, rfl, rfl, rfl, rfl, rfl⟩
  · exact .refl o

theorem forwardArg_keeps (a : Operand) (o : Optimizer) :
    Yields (forwardArg a) o fun _ o' => Keeps o o' := by
  cases a with
  | box b => exact forwardBox_keeps b o
  | const c => exact .refl o

theorem forwardAll_keeps (as : List Operand) (o : Optimizer) :
    Yields (as.mapM forwardArg) o fun _ o' => Keeps o o' := by
  have hstep : ∀ a ∈ as, ∀ o, True →
      Yields (forwardArg a) o fun _ o' => True ∧ Keeps o o' ∧ True :=
    fun a _ o _ => (forwardArg_keeps a o).mono fun _ _ h => ⟨trivial, h, trivial⟩
  exact (yields_mapM Keeps.persists hstep trivial).mono fun _ _ h => h.2.1

theorem relink_keeps (s : Snapshot) (supply : Relinker.Supply) (o : Optimizer) :
    Yields (Relinker.relink forwardBox s supply) o fun _ o' => Keeps o o' := by
  induction s generalizing supply o with
  | nil => exact .refl o
  | cons frame rest ih =>
    unfold Relinker.relink
    split
    · exact .refl o
    · rw [yields_bind]
      refine (ih supply o).mono fun r o₁ h₁ => ?_
      rw [yields_bind]
      exact (forwardAll_keeps frame.entries o₁).mono fun _ _ h₂ => h₁.trans h₂

theorem emit_keeps (op : Operation) (o : Optimizer) :
    Yields (emit op) o fun _ o' => Keeps o o' := by
  unfold emit
  rw [yields_bind]
  refine (forwardAll_keeps op.args o).mono fun args o₁ h₁ => ?_
  have hfail : Yields (op.failArgs.mapM (·.mapM forwardArg)) o₁ fun _ o' => Keeps o₁ o' := by
    cases op.failArgs with
    | none => exact .refl o₁
    | some as => exact forwardAll_keeps as o₁
  rw [yields_bind]
  refine hfail.mono fun fs o₂ h₂ => ?_
  have hdescr : Yields (forwardDescr op.descr) o₂ fun _ o' => Keeps o₂ o' := by
    unfold forwardDescr
    split
    next _ s _ =>
      simp only [yields_bind, yields_pure, forwardSnapshot, yields_get, yields_modify]
      refine (relink_keeps s _ o₂).mono fun r o₃ h => ⟨h.chain, h.cursor, h.token, h.inputs,
        h.pending, h.preamble, h.nextBox, h.nextGuard, h.nextToken⟩
    next => exact .refl o₂
  rw [yields_bind]
  refine hdescr.mono fun d o₃ h₃ => ?_
  exact (h₁.trans h₂).trans (h₃.trans ⟨rfl, rfl, rfl, rfl, rfl, rfl, rfl, rfl, rfl⟩)

/-! ### Through the passes -/

/-- One operation through one pass behind peeling. -/
def Through : Pass → (Operation → Optimizer → Optimizer → Prop) → Operation → Optimizer →
    Optimizer → Prop
  | .peel => fun _ _ _ _ => False
  | .rewrite => Rewrite.Rewritten
  | .virtualize => Virtualize.Virtualized

/-- A pass runs out of its place, with the cursor on it, and afterwards both are as
before. -/
def Placed (send : Operation → Optimizer → Optimizer → Prop) (op : Operation)
    (o o' : Optimizer) : Prop :=
  ∃ chain cursor o₂, send op {o with chain, cursor} o₂ ∧
    o' = {o₂ with chain := o.chain, cursor := o.cursor}

/-- What becomes of an operation in the passes in front of it. -/
def Handled : List Pass → Operation → Optimizer → Optimizer → Prop
  | [] => Placed fun op o o' => o' = ((emit op).run o).2
  | p :: ps => Placed (Through p (Handled ps))

theorem Through.keeps {p : Pass} {send : Operation → Optimizer → Optimizer → Prop}
    (hsend : ∀ op o o', send op o o' → Keeps o o') {op : Operation} {o o' : Optimizer}
    (h : Through p send op o o') : Keeps o o' := by
  cases p with
  | peel => exact h.elim
  | rewrite =>
    cases h with
    | passed hmet _ h => exact hmet.keeps.trans (hsend _ _ _ h)
    | dropped | unraised | aliased => exact ⟨rfl, rfl, rfl, rfl, rfl, rfl, rfl, rfl, rfl⟩
    | kept _ _ h => exact { hsend _ _ _ h with }
    | checked _ _ h => exact { hsend _ _ _ h with }
    | called _ h => exact { hsend _ _ _ h with }
    | folded _ _ _ hmet => exact { hmet.keeps with }
    | reused _ _ _ hmet => exact { hmet.keeps with }
    | computed _ _ _ hmet _ _ _ h => exact hmet.keeps.trans { hsend _ _ _ h with }
  | virtualize =>
    cases h with
    | passed hmet _ h => exact hmet.keeps.trans (hsend _ _ _ h)
    | held | written | read | readZero => exact ⟨rfl, rfl, rfl, rfl, rfl, rfl, rfl, rfl, rfl⟩

theorem Placed.keeps {send : Operation → Optimizer → Optimizer → Prop}
    (hsend : ∀ op o o', send op o o' → Keeps o o') {op : Operation} {o o' : Optimizer}
    (h : Placed send op o o') : Keeps o o' := by
  obtain ⟨chain, cursor, o₂, hs, rfl⟩ := h
  have hk := hsend _ _ _ hs
  exact ⟨rfl, rfl, hk.token, hk.inputs, hk.pending, hk.preamble, hk.nextBox, hk.nextGuard,
    hk.nextToken⟩

/-- A pass may find any other pass out of its place. -/
theorem Placed.of_placed {send : Operation → Optimizer → Optimizer → Prop} {op : Operation}
    {o o' : Optimizer} (h : Placed (Placed send) op o o') : Placed send op o o' := by
  obtain ⟨_, _, _, ⟨chain, cursor, o₂, hs, rfl⟩, rfl⟩ := h
  exact ⟨chain, cursor, o₂, hs, rfl⟩

theorem Handled.of_placed {ps : List Pass} {op : Operation} {o o' : Optimizer}
    (h : Placed (Handled ps) op o o') : Handled ps op o o' := by
  cases ps with
  | nil => exact Placed.of_placed h
  | cons p ps => exact Placed.of_placed h

theorem Handled.keeps {ps : List Pass} {op : Operation} {o o' : Optimizer}
    (h : Handled ps op o o') : Keeps o o' := by
  induction ps generalizing op o o' with
  | nil =>
    have hemit : ∀ op o o', o' = ((emit op).run o).2 → Keeps o o' := by
      rintro op o _ rfl
      exact emit_keeps op o
    exact Placed.keeps hemit h
  | cons p ps ih => exact Placed.keeps (fun _ _ _ h => h.keeps fun _ _ _ => ih) h

/-- The last stages of the chain hold the passes. -/
structure InPlace (ps : List Pass) (chain : Array Stage) : Prop where
  fits : ps.length ≤ chain.size
  pass : ∀ i p, ps[i]? = some p →
    chain[chain.size - ps.length + i]?.bind (·.pass) = some p

theorem InPlace.tail {p : Pass} {ps : List Pass} {chain : Array Stage}
    (h : InPlace (p :: ps) chain) :
    InPlace ps (chain.modify (chain.size - (ps.length + 1)) fun s => {s with pass := none}) := by
  have hfits := h.fits
  simp only [List.length_cons] at hfits
  refine ⟨by simp only [Array.size_modify]; omega, fun i q hq => ?_⟩
  have hpass := h.pass (i + 1) q (by simpa using hq)
  simp only [List.length_cons] at hpass
  rw [Array.getElem?_modify, if_neg (by simp only [Array.size_modify]; omega)]
  rw [← hpass, Array.size_modify]
  congr 2
  omega

/-- A pass that is put back where it was taken from leaves the chain as it was. -/
theorem modify_pass_restored {chain : Array Stage} {stage : Nat} {p : Pass}
    (h : chain[stage]?.bind (·.pass) = some p) :
    (chain.modify stage fun s => {s with pass := none}).modify stage
      (fun s => {s with pass := some p}) = chain := by
  refine Array.ext (by simp) fun i hi hi' => ?_
  simp only [Array.getElem_modify]
  split
  next he =>
    subst he
    rw [Array.getElem?_eq_getElem hi', Option.bind_some] at h
    generalize chain[stage] = s at h ⊢
    cases s
    cases h
    rfl
  next => rfl

section Send
variable {C : OptCause → Prop}

/-- A pass that runs out of its place, with the cursor on it, and is put back. -/
theorem ends_caught {m : Optimize Unit} {pass : Pass} {cursor stage : Nat} {o : Optimizer}
    {Q : Unit → Optimizer → Prop}
    (h : Ends (fun e => C e.cause) m
      {o with chain := o.chain.modify stage (fun s => {s with pass := none}), cursor := stage}
      fun _ o' => Q () {o' with
        cursor, chain := o'.chain.modify stage fun s => {s with pass := some pass}}) :
    Ends (fun e => C e.cause)
      (do
        setPass stage none
        setCursor stage
        let outcome ← ExceptT.lift m.run
        setCursor cursor
        setPass stage (some pass)
        match outcome with
        | .ok () => pure ()
        | .error e => throw (e.leaving pass)) o Q := by
  rw [ends_bind, ends_lift]
  show Ends _ (setCursor stage >>= _) _ _
  rw [ends_bind, ends_lift]
  show Ends _ (ExceptT.lift m.run >>= _)
    {o with chain := o.chain.modify stage (fun s => {s with pass := none}), cursor := stage} _
  generalize {o with
    chain := o.chain.modify stage (fun s => {s with pass := none}), cursor := stage} = o₁ at h ⊢
  unfold Ends at h ⊢
  rw [run_bind]
  have hlift : (ExceptT.lift m.run : Optimize (Except OptError Unit)).run.run o₁ =
      (Except.ok (m.run.run o₁).1, (m.run.run o₁).2) := rfl
  rw [hlift]
  rcases hrun : m.run.run o₁ with ⟨_ | _, o'⟩
  · rw [hrun] at h
    exact h
  · rw [hrun] at h
    exact h

/-- Behind the last pass, whatever comes is written. -/
theorem send_zero_ends {E : OptError → Prop} (op : Operation) (o : Optimizer) :
    Ends E (send 0 op) o fun _ o' => Handled [] op o o' := by
  have hk : Keeps o ((emit op).run o).2 := emit_keeps op o
  have hsame : ((emit op).run o).2 =
      {((emit op).run o).2 with chain := o.chain, cursor := o.cursor} := by
    rw [← hk.chain, ← hk.cursor]
  exact ⟨o.chain, o.cursor, _, rfl, hsame⟩

theorem send_ends {ps : List Pass}
    (hC : Pass.rewrite ∈ ps → ∀ c, c.isGuardFailure = true → C c) (hpeel : Pass.peel ∉ ps) {op : Operation} {o : Optimizer} (hp : InPlace ps o.chain)
    (ho : o.values.InRange) :
    Ends (fun e => C e.cause) (send ps.length op) o fun _ o' => Handled ps op o o' := by
  induction ps generalizing op o with
  | nil => exact send_zero_ends op o
  | cons p ps ih =>
    simp only [List.length_cons, send]
    rw [ends_bind, ends_get]
    have hpass : o.chain[o.chain.size - (ps.length + 1)]?.bind (·.pass) = some p := by
      simpa using hp.pass 0 p rfl
    simp only [hpass]
    generalize hstage : o.chain.size - (ps.length + 1) = stage at hpass ⊢
    apply ends_caught
    set chain := o.chain.modify stage fun s => {s with pass := none} with hchain
    have hplace : InPlace ps chain := hchain ▸ hstage ▸ hp.tail
    have hemit : ∀ op o', o'.chain = chain → o'.values.InRange →
        Ends (fun e => C e.cause) (send ps.length op) o' fun _ o'' => Handled ps op o' o'' :=
      fun op o' hc => ih (fun h => hC (List.mem_cons_of_mem _ h))
        (fun h => hpeel (List.mem_cons_of_mem _ h)) (hc ▸ hplace)
    have hthrough : Ends (fun e => C e.cause) (runPass p (send ps.length) stage op)
        {o with cursor := stage, chain} fun _ o' =>
          Through p (Handled ps) op {o with cursor := stage, chain} o' := by
      cases p with
      | peel => exact absurd (List.mem_cons_self ..) hpeel
      | rewrite => exact Rewrite.step_ends hemit (fun e => hC (List.mem_cons_self ..) e.cause) ho
      | virtualize => exact Virtualize.step_ends hemit ho
    refine hthrough.mono fun _ o' h => ⟨chain, stage, o', h, ?_⟩
    have hk := (h.keeps fun _ _ _ => Handled.keeps).chain
    rw [hk]
    show _ = {o' with chain := o.chain, cursor := o.cursor}
    rw [modify_pass_restored hpass]

end Send
end TracePeel.Optimizer
