import TracePeel.Proofs.Unwinding

/-! What a refused operation leaves behind.

Rewriting refuses a guard that can never pass, and does so before it hands the guard on; no
pass behind it refuses anything. So when an error comes out of the passes behind peeling,
nothing was written for the operation and only operands of it were met. `Leaves` speaks of a
step whether it fails or not: where `Ends` forgets the state that an error comes with, it
keeps it. -/
namespace TracePeel.Optimizer

section Leaves
variable {α β : Type} {F : Optimizer → Prop} {o : Optimizer}

/-- The step gives a result, in a state, that satisfy `Q`, or fails in a state that satisfies
`F`. -/
def Leaves (F : Optimizer → Prop) (m : Optimize α) (o : Optimizer)
    (Q : α → Optimizer → Prop) : Prop :=
  match m.run.run o with
  | (.ok a, o') => Q a o'
  | (.error _, o') => F o'

theorem Leaves.mono {m : Optimize α} {F' : Optimizer → Prop} {Q R : α → Optimizer → Prop}
    (h : Leaves F m o Q) (hF : ∀ o', F o' → F' o') (hQ : ∀ a o', Q a o' → R a o') :
    Leaves F' m o R := by
  unfold Leaves at h ⊢
  split at h
  · exact hQ _ _ h
  · exact hF _ h

/-- Whether it fails or not, the step leaves a state that satisfies `F`. -/
theorem Leaves.state {m : Optimize α} (h : Leaves F m o fun _ o' => F o') :
    F (m.run.run o).2 := by
  unfold Leaves at h
  rcases hrun : m.run.run o with ⟨_ | a, o'⟩
  · rw [hrun] at h
    exact h
  · rw [hrun] at h
    exact h

/-- Where a step is known to end, that is what it ends with. -/
theorem Leaves.of_run {m : Optimize α} {Q : α → Optimizer → Prop} (h : Leaves F m o Q) {a : α}
    {o' : Optimizer} (hrun : m.run.run o = (.ok a, o')) : Q a o' := by
  unfold Leaves at h
  rwa [hrun] at h

/-- A step that does not fail. -/
theorem Ends.leaves {m : Optimize α} {Q : α → Optimizer → Prop}
    (h : Ends (fun _ => False) m o Q) : Leaves F m o Q := by
  unfold Ends at h
  unfold Leaves
  rcases hrun : m.run.run o with ⟨_ | a, o'⟩
  · rw [hrun] at h
    exact h.elim
  · rw [hrun] at h
    exact h

/-- What is known of the state behind an error, and twice of how the step ends otherwise. -/
theorem Leaves.and_ends {m : Optimize α} {Q R : α → Optimizer → Prop} (h : Leaves F m o Q)
    (hR : Ends (fun _ => True) m o R) : Leaves F m o fun a o' => Q a o' ∧ R a o' := by
  unfold Leaves at h ⊢
  unfold Ends at hR
  rcases hrun : m.run.run o with ⟨_ | a, o'⟩
  · rw [hrun] at h
    exact h
  · rw [hrun] at h hR
    exact ⟨h, hR⟩

/-- A step that fails in no state does not fail. -/
theorem Leaves.ends {E : OptError → Prop} {m : Optimize α} {Q : α → Optimizer → Prop}
    (h : Leaves (fun _ => False) m o Q) : Ends E m o Q := by
  unfold Leaves at h
  unfold Ends
  rcases hrun : m.run.run o with ⟨_ | a, o'⟩
  · rw [hrun] at h
    exact h.elim
  · rw [hrun] at h
    exact h

theorem leaves_lift {m : Step α} {Q : α → Optimizer → Prop} :
    Leaves F (liftM m) o Q ↔ Yields m o Q :=
  Iff.rfl

theorem leaves_bind {m : Optimize α} {f : α → Optimize β} {Q : β → Optimizer → Prop} :
    Leaves F (m >>= f) o Q ↔ Leaves F m o fun a o' => Leaves F (f a) o' Q := by
  unfold Leaves
  rw [run_bind]
  rcases m.run.run o with ⟨_ | a, o'⟩ <;> rfl

end Leaves

/-! ### Guards that can never pass -/

/-- The operation is a guard, and some of its operands were met. -/
def Refused (op : Operation) (o o' : Optimizer) : Prop :=
  op.isGuard = true ∧ Met op.args o o'

end TracePeel.Optimizer

namespace TracePeel.Rewrite
open Optimizer

section
variable {emit : Operation → Optimize Unit} {op : Operation} {o : Optimizer}

variable (hemit : ∀ op o', o'.chain = o.chain → o'.values.InRange →
    Ends (fun _ => False) (emit op) o' fun _ _ => True)
  (ho : o.values.InRange)
include hemit ho

theorem guardTruth_leaves (hop : op.opcode = .guardTrue ∨ op.opcode = .guardFalse) :
    Leaves (Refused op o) (guardTruth emit op) o fun _ _ => True := by
  unfold guardTruth
  split
  next => exact (hemit op o rfl ho).leaves
  next arg rest ha =>
    have hrefused : Refused op o (o.met arg) :=
      ⟨by rcases hop with h | h <;> simp [Operation.isGuard, h, Opcode.isGuard],
        .one (by simp [ha])⟩
    simp only [leaves_bind, leaves_lift, yields_valueOf, yields_slot]
    split
    · split
      · trivial
      · exact hrefused
    · rw [leaves_bind]
      refine (hemit op (o.met arg) rfl (ho.valueOf arg)).leaves.mono (fun _ h => h) fun _ _ _ => ?_
      split <;> trivial

theorem guardValue_leaves (hop : op.opcode = .guardValue) :
    Leaves (Refused op o) (guardValue emit op) o fun _ _ => True := by
  unfold guardValue
  split
  next arg wanted rest ha =>
    have hrefused : Refused op o (o.met arg) :=
      ⟨by simp [Operation.isGuard, hop, Opcode.isGuard], .one (by simp [ha])⟩
    simp only [leaves_bind, leaves_lift, yields_valueOf, yields_slot]
    split
    · split
      · trivial
      · exact hrefused
    · rw [leaves_bind]
      exact (hemit op (o.met arg) rfl (ho.valueOf arg)).leaves.mono (fun _ h => h)
        fun _ _ _ => trivial
  next => exact (hemit op o rfl ho).leaves

theorem guardNull_leaves (hop : op.opcode = .guardNonnull ∨ op.opcode = .guardIsnull) :
    Leaves (Refused op o) (guardNull emit op) o fun _ _ => True := by
  unfold guardNull
  split
  next => exact (hemit op o rfl ho).leaves
  next arg rest ha =>
    have hrefused : Refused op o (o.met arg) :=
      ⟨by rcases hop with h | h <;> simp [Operation.isGuard, h, Opcode.isGuard],
        .one (by simp [ha])⟩
    have hsend := hemit op (o.met arg) rfl (ho.valueOf arg)
    simp only [leaves_bind, leaves_lift, yields_valueOf, yields_slot]
    rcases hop with hop | hop
    all_goals
      simp only [hop, beq_self_eq_true, if_true, beq_iff_eq, reduceCtorEq, if_false]
      split
      · trivial
      · split
        · exact hrefused
        · rw [leaves_bind]
          exact hsend.leaves.mono (fun _ h => h) fun _ _ _ => trivial

theorem guardClass_leaves (hop : op.opcode = .guardClass) :
    Leaves (Refused op o) (guardClass emit op) o fun _ _ => True := by
  unfold guardClass
  split
  next arg wanted rest ha =>
    have hrefused : Refused op o (o.met arg) :=
      ⟨by simp [Operation.isGuard, hop, Opcode.isGuard], .one (by simp [ha])⟩
    simp only [leaves_bind, leaves_lift, yields_valueOf, yields_slot]
    split
    · split
      · trivial
      · exact hrefused
    · rw [leaves_bind]
      exact (hemit op (o.met arg) rfl (ho.valueOf arg)).leaves.mono (fun _ h => h)
        fun _ _ _ => trivial
  next => exact (hemit op o rfl ho).leaves

/-- Where nothing that is handed on fails, rewriting fails at a guard only, and did not hand it
on. -/
theorem step_leaves : Leaves (Refused op o) (step emit op) o fun _ _ => True := by
  have hends : ∀ {m : Optimize Unit}, Ends (fun _ => False) m o
      (fun _ o' => Rewritten (fun _ _ _ => True) op o o') →
        Leaves (Refused op o) m o fun _ _ => True :=
    fun h => h.leaves.mono (fun _ h => h) fun _ _ _ => trivial
  unfold step
  split
  next h => exact guardTruth_leaves hemit ho (.inl h)
  next h => exact guardTruth_leaves hemit ho (.inr h)
  next h => exact guardValue_leaves hemit ho h
  next h => exact guardNull_leaves hemit ho (.inl h)
  next h => exact guardNull_leaves hemit ho (.inr h)
  next h => exact guardClass_leaves hemit ho h
  next h => exact hends (guardNoException_ends hemit ho h)
  next h => exact hends (sameAs_ends hemit ho h)
  next h => exact hends (call_ends hemit ho h)
  next hSame _ =>
    split
    next hp => exact hends (pureOp_ends hemit ho hp hSame)
    next => exact (hemit op o rfl ho).leaves

end
end TracePeel.Rewrite

namespace TracePeel.Optimizer

/-! ### Through the chain -/

section
variable {op : Operation} {o o₁ : Optimizer}

/-- A pass that ran out of its place, with the cursor on it, met the same operands as one that
did not. -/
theorem Met.placed {as : List Operand} {chain : Array Stage} {cursor : Nat}
    (h : Met as {o with chain, cursor} o₁) :
    Met as o {o₁ with chain := o.chain, cursor := o.cursor} := by
  generalize hfrom : ({o with chain, cursor} : Optimizer) = o₀ at h
  induction h with
  | refl =>
    subst hfrom
    exact .refl
  | more _ ha ih => exact ih.more ha

/-- Passes that do not rewrite refuse nothing. -/
theorem send_ends_of_plain {ps : List Pass} (hrewrite : Pass.rewrite ∉ ps)
    (hpeel : Pass.peel ∉ ps) (hp : InPlace ps o.chain) (ho : o.values.InRange) :
    Ends (fun _ => False) (send ps.length op) o fun _ o' => Handled ps op o o' :=
  send_ends (C := fun _ => False) (fun h => absurd h hrewrite) hpeel hp ho

/-- What comes out where rewriting stands first and nothing behind it rewrites. -/
theorem send_leaves_rewrite {ps : List Pass} (hrewrite : Pass.rewrite ∉ ps)
    (hpeel : Pass.peel ∉ ps) (hp : InPlace (.rewrite :: ps) o.chain) (ho : o.values.InRange) :
    Leaves (Refused op o) (send (ps.length + 1) op) o fun _ _ => True := by
  generalize hstage : o.chain.size - (ps.length + 1) = stage
  have hfits : ps.length + 1 ≤ o.chain.size := hp.fits
  have hplace : o.chain[stage]?.bind (·.pass) = some .rewrite := hstage ▸ hp.pass 0 .rewrite rfl
  have hpass : o.passes[stage]? = some (some .rewrite) := by
    obtain ⟨s, hs, hpass⟩ := Option.bind_eq_some_iff.1 hplace
    rw [passes, List.getElem?_map, Array.getElem?_toList, hs, Option.map_some, hpass]
  have hrun : (send (ps.length + 1) op).run.run o = o.restored stage .rewrite
      ((Rewrite.step (send ps.length) op).run.run (o.running stage)) := by
    have hsent := sendTo_eq_restored hpass op
    rw [show o.chain.size - (stage + 1) = ps.length by omega] at hsent
    rw [show ps.length + 1 = o.chain.size - stage by omega]
    exact hsent
  have hbehind : ∀ op o', o'.chain = (o.running stage).chain → o'.values.InRange →
      Ends (fun _ => False) (send ps.length op) o' fun _ _ => True := fun op o' hchain ho' =>
    (send_ends_of_plain hrewrite hpeel (hchain ▸ hstage ▸ hp.tail) ho').mono fun _ _ _ => trivial
  have hstep : Leaves (Refused op (o.running stage)) (Rewrite.step (send ps.length) op)
      (o.running stage) fun _ _ => True := Rewrite.step_leaves hbehind ho
  unfold Leaves at hstep ⊢
  rw [hrun]
  rcases hend : (Rewrite.step (send ps.length) op).run.run (o.running stage) with ⟨_ | _, o'⟩
  · rw [hend] at hstep
    obtain ⟨hguard, hmet⟩ := hstep
    refine ⟨hguard, ?_⟩
    have hchain : (o'.chain.modify stage fun s => {s with pass := some .rewrite}) = o.chain := by
      rw [hmet.chain]
      exact modify_pass_restored hplace
    show Met op.args o {o' with chain := o'.chain.modify stage _, cursor := o.cursor}
    rw [hchain]
    exact hmet.placed
  · trivial

/-- An operation that is refused is a guard, and nothing became of it but that operands were
met. -/
theorem behind_leaves {c : Config} {front : List (Option Pass)}
    (hchain : o.chain.toList.map (·.pass) = front ++ c.behind.map some)
    (ho : o.values.InRange) (op : Operation) :
    Leaves (Refused op o) (send c.behind.length op) o fun _ o' => Handled c.behind op o o' := by
  have hends : Ends (fun _ => True) (send c.behind.length op) o fun _ o' =>
      Handled c.behind op o o' :=
    behind_ends (C := fun _ => True) (fun _ _ _ => trivial) hchain ho op
  have hp : InPlace c.behind o.chain := inPlace_of_append hchain
  have hpeel := peel_not_mem_behind c
  by_cases hrewrite : c.rewrite = true
  · have hbehind : c.behind = .rewrite :: if c.virtualize then [.virtualize] else [] := by
      simp [Config.behind, hrewrite]
    rw [hbehind] at hp hpeel hends ⊢
    have hplain : Pass.rewrite ∉ if c.virtualize then [Pass.virtualize] else [] := by
      split <;> decide
    exact ((send_leaves_rewrite hplain (List.not_mem_of_not_mem_cons hpeel) hp ho).and_ends
      hends).mono (fun _ h => h) fun _ _ h => h.2
  · refine (send_ends_of_plain ?_ hpeel hp ho).leaves
    exact fun h => hrewrite (rewrite_of_mem_behind h)

/-- An operation that is no guard is not refused. -/
theorem behind_open_ends {c : Config} {front : List (Option Pass)} {E : OptError → Prop}
    (hchain : o.chain.toList.map (·.pass) = front ++ c.behind.map some)
    (ho : o.values.InRange) (hop : op.isGuard = false) :
    Ends E (send c.behind.length op) o fun _ o' => Handled c.behind op o o' := by
  refine ((behind_leaves hchain ho op).mono (fun o' h => ?_) fun _ _ h => h).ends
  rw [Refused, hop] at h
  exact absurd h.1 Bool.false_ne_true

end
end TracePeel.Optimizer
