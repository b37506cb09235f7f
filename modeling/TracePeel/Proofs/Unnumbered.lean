import TracePeel.Proofs.Completed

/-! The numbers of guards play no part.

No pass behind peeling looks at the number that the next guard gets, so a state may be
taken for one in which more numbers were given out. A trace whose guards bear any numbers
goes the first way as one does whose guards have numbers from its pool. -/
namespace TracePeel

namespace Optimizer

/-- The state with another number for the next guard. -/
def numbered (o : Optimizer) (n : Nat) : Optimizer :=
  {o with pool := {o.pool with nextGuard := n}}

/-! ### What is written -/

section Steps
variable {α β : Type}

/-- The step does the same whatever number the next guard gets. -/
def Unnumbered (m : Step α) : Prop :=
  ∀ o n Q, Yields m (o.numbered n) Q ↔ Yields m o fun a o' => Q a (o'.numbered n)

namespace Unnumbered

theorem pure (a : α) : Unnumbered (pure a) :=
  fun _ _ _ => Iff.rfl

theorem bind {m : Step α} {f : α → Step β} (hm : Unnumbered m) (hf : ∀ a, Unnumbered (f a)) :
    Unnumbered (m >>= f) := by
  intro o n Q
  rw [yields_bind, hm]
  exact hf _ _ n Q

theorem mapM {f : α → Step β} (hf : ∀ a, Unnumbered (f a)) (l : List α) :
    Unnumbered (l.mapM f) := by
  induction l with
  | nil => exact .pure _
  | cons a l ih =>
    rw [List.mapM_cons]
    exact (hf a).bind fun _ => ih.bind fun _ => .pure _

theorem forwardBox (b : Box) : Unnumbered (forwardBox b) := by
  intro o n Q
  unfold Optimizer.forwardBox
  rw [yields_bind, yields_get, yields_bind, yields_get]
  have hlookup : (o.numbered n).values.lookup b = o.values.lookup b := rfl
  rw [hlookup]
  cases o.values.lookup b <;> exact Iff.rfl

theorem forwardArg (a : Operand) : Unnumbered (forwardArg a) := by
  cases a with
  | box b => exact .forwardBox b
  | const c => exact .pure _

theorem relink (s : Snapshot) (supply : Relinker.Supply) :
    Unnumbered (Relinker.relink Optimizer.forwardBox s supply) := by
  induction s generalizing supply with
  | nil => exact .pure _
  | cons frame rest ih =>
    unfold Relinker.relink
    split
    · exact .pure _
    · exact (ih supply).bind fun _ => (mapM Unnumbered.forwardArg frame.entries).bind fun _ => .pure _

theorem forwardDescr (d : Option Descr) : Unnumbered (forwardDescr d) := by
  unfold Optimizer.forwardDescr
  split
  next number s =>
    have hsnapshot : Unnumbered (forwardSnapshot s) := by
      intro o n Q
      unfold forwardSnapshot
      rw [yields_bind, yields_get, yields_bind]
      show Yields (Relinker.relink Optimizer.forwardBox s ⟨o.sink, o.pool.nextFrame⟩) _ _ ↔ _
      rw [relink]
      exact Iff.rfl
    exact hsnapshot.bind fun _ => .pure _
  next => exact .pure _

theorem emit (op : Operation) : Unnumbered (emit op) := by
  have hfail : Unnumbered (op.failArgs.mapM (·.mapM Optimizer.forwardArg)) := by
    cases op.failArgs with
    | none => exact .pure _
    | some as => exact (mapM forwardArg as).bind fun _ => .pure _
  unfold Optimizer.emit
  refine (mapM forwardArg op.args).bind fun args => hfail.bind fun failArgs =>
    (forwardDescr op.descr).bind fun descr => ?_
  exact fun _ _ _ => Iff.rfl

end Unnumbered
end Steps

/-! ### Through the passes -/

variable {op : Operation} {o o' : Optimizer}

theorem Met.numbered {as : List Operand} (h : Met as o o') (n : Nat) :
    Met as (o.numbered n) (o'.numbered n) := by
  induction h with
  | refl => exact .refl
  | more _ ha ih => exact ih.more ha

/-- The operation is dealt with in the same way whatever number the next guard gets. -/
def Numberless (send : Operation → Optimizer → Optimizer → Prop) : Prop :=
  ∀ op o o', send op o o' → ∀ n, send op (o.numbered n) (o'.numbered n)

theorem numberless_emit : Numberless fun op o o' => o' = ((emit op).run o).2 := by
  rintro op o _ rfl n
  exact ((Unnumbered.emit op o n fun _ o' => ((emit op).run o).2.numbered n = o').2 rfl)

theorem numberless_placed {send : Operation → Optimizer → Optimizer → Prop} (h : Numberless send) :
    Numberless (Placed send) := by
  rintro op o _ ⟨chain, cursor, o₂, hs, rfl⟩ n
  exact ⟨chain, cursor, o₂.numbered n, h op _ _ hs n, rfl⟩

theorem numberless_rewritten {send : Operation → Optimizer → Optimizer → Prop}
    (h : Numberless send) : Numberless (Rewrite.Rewritten send) := by
  intro op o o' hs n
  cases hs with
  | passed hmet hno hs => exact .passed (hmet.numbered n) hno (h _ _ _ hs n)
  | dropped hargs hi => exact .dropped (o := o.numbered n) hargs hi
  | kept hargs ht hs => exact .kept (o := o.numbered n) hargs ht (h _ _ _ hs n)
  | unraised hno hm => exact .unraised (o := o.numbered n) hno hm
  | checked hno hm hs => exact .checked (o := o.numbered n) hno hm (h _ _ _ hs n)
  | called hcall hs => exact .called hcall (h _ _ _ hs n)
  | aliased hsame hargs hr => exact .aliased (o := o.numbered n) hsame hargs hr
  | folded hp hne hr hmet hcs hf => exact .folded hp hne hr (hmet.numbered n) hcs hf
  | reused hp hne hr hmet hks hk => exact .reused hp hne hr (hmet.numbered n) hks hk
  | computed hp hne hr hmet hks hk hf hs =>
    exact .computed hp hne hr (hmet.numbered n) hks hk hf (h _ _ _ hs n)

theorem numberless_virtualized {send : Operation → Optimizer → Optimizer → Prop}
    (h : Numberless send) : Numberless (Virtualize.Virtualized send) := by
  intro op o o' hs n
  cases hs with
  | passed hmet hno hs => exact .passed (hmet.numbered n) hno (h _ _ _ hs n)
  | held hnew hr => exact .held (o := o.numbered n) hnew hr
  | written hset hargs hd hv => exact .written (o := o.numbered n) hset hargs hd hv
  | read hget hargs hr hd hv hf hk => exact .read (o := o.numbered n) hget hargs hr hd hv hf hk
  | readZero hget hargs hr hd hv hf => exact .readZero (o := o.numbered n) hget hargs hr hd hv hf

theorem numberless_handled (ps : List Pass) : Numberless (Handled ps) := by
  induction ps with
  | nil => exact numberless_placed numberless_emit
  | cons p ps ih =>
    refine numberless_placed ?_
    cases p with
    | peel => exact fun _ _ _ h => h.elim
    | rewrite => exact numberless_rewritten ih
    | virtualize => exact numberless_virtualized ih

theorem Processed.numbered {ps : List Pass} {ops : List Operation} (h : Processed ps ops o o')
    (n : Nat) : Processed ps ops (o.numbered n) (o'.numbered n) := by
  induction h with
  | nil => exact .nil
  | cons hs _ ih => exact .cons (numberless_handled ps _ _ _ hs n) ih

theorem Grown.numbered (h : Grown o o') (n : Nat) : Grown (o.numbered n) (o'.numbered n) := by
  induction h with
  | refl => exact .refl
  | met a _ ih => exact ih.met a
  | forced id _ ih => exact ih.forced id
  | told events _ ih => exact ih.told events

end Optimizer

/-! ### The first way -/

namespace Trace

/-- A trace is recorded, if only its pool gave out the numbers of its guards. -/
theorem Drawn.exists_recorded {t : Trace} (h : t.Drawn) :
    ∃ n, Recorded {t with pool := {t.pool with nextGuard := n}} := by
  obtain ⟨n, hn⟩ : ∃ n, ∀ op ∈ t.ops, ∀ p ∈ op.guard?, p.1 < n := by
    induction t.ops with
    | nil => exact ⟨0, List.forall_mem_nil _⟩
    | cons op ops ih =>
      obtain ⟨n, hn⟩ := ih
      refine ⟨n + (op.guard?.map (·.1 + 1)).getD 0, fun op' hop' p hp => ?_⟩
      rcases List.mem_cons.1 hop' with rfl | hop'
      · rw [hp, Option.map_some, Option.getD_some]
        omega
      · exact Nat.lt_of_lt_of_le (hn op' hop' p hp) (Nat.le_add_right ..)
  exact ⟨n, h.verified, h.boxes, hn, h.plain, h.frames, h.shared⟩

theorem Split.numbered {t : Trace} {body : List Operation} {last : Operation}
    (h : t.Split body last) (n : Nat) :
    Split {t with pool := {t.pool with nextGuard := n}} body last :=
  ⟨h.ops, h.nodup, h.accepts, h.fits, h.lands⟩

end Trace

namespace Optimizer

/-- Behind the recorded operations the invariant holds, once the numbers of all guards are
taken to have been given out. -/
theorem Processed.working_of_drawn {c : Config} {t : Trace} (ht : t.Drawn)
    {body : List Operation} {last : Operation} (hsplit : t.Split body last) {o : Optimizer}
    (h : Processed c.behind body (c.begin t) o) : ∃ T n, t.frameTable.Extends T ∧
      Coming T t.inputs n t.pool.nextBox body ∧
      Working T t.inputs [] (t.inputs ++ results body) (o.numbered n) := by
  obtain ⟨n, hrecorded⟩ := ht.exists_recorded
  have hcoming := (hsplit.numbered n).coming hrecorded
  obtain ⟨T, hT, hw, -⟩ := (h.numbered n).working (working_begin c hrecorded) hcoming
  exact ⟨T, n, hT, hcoming.mono hT, hw⟩

end Optimizer
end TracePeel
