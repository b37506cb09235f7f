import TracePeel.Proofs.Building
import TracePeel.Proofs.Sending

/-! Writing an operation keeps the list in order.

`Working` is the invariant of the optimizer while it writes a list. An operation that
fits behind the boxes defined so far is written with operands that are ready, so what
is written fits behind the list. -/
namespace TracePeel

theorem kinds_trans {as as' : List Operand} {bs : List Box}
    (h : List.Forall₂ (fun a a' => a'.kind = a.kind) as as')
    (hb : List.Forall₂ (fun a b => a.kind = b.kind) as bs) :
    List.Forall₂ (fun a b => a.kind = b.kind) as' bs :=
  forall₂_comp (fun _ _ _ hk hab => hk.trans hab) h.flip hb

namespace Operation.Renders
variable {R : Operand → Operand → Prop} {T : FrameTable} {op op' : Operation}

theorem kindsAgree (hkind : ∀ a b, R a b → b.kind = a.kind) (h : op.Renders R T op')
    (hr : op'.result.map (·.kind) = op.result.map (·.kind)) :
    Verify.kindsAgree op' = Verify.kindsAgree op := by
  have hargs := h.args
  unfold Verify.kindsAgree
  rw [h.opcode]
  generalize op.args = as, op'.args = as' at hargs ⊢
  generalize op.result = r, op'.result = r' at hr ⊢
  cases hargs with
  | nil => cases op.opcode <;> rfl
  | cons h₁ hrest =>
    cases hrest with
    | nil => cases op.opcode <;> cases r <;> cases r' <;> simp_all [hkind _ _ h₁]
    | cons h₂ hrest =>
      cases hrest with
      | nil =>
        cases op.opcode <;> first | rfl | simp [hkind _ _ h₁, hkind _ _ h₂]
      | cons => cases op.opcode <;> rfl

theorem guard?_isSome (h : op.Renders R T op') : op'.guard?.isSome = op.guard?.isSome := by
  have hdescr := h.descr
  unfold Operation.guard?
  generalize op.descr = d, op'.descr = d' at hdescr ⊢
  cases hdescr <;> rfl

theorem failArgs_isSome (h : op.Renders R T op') : op'.failArgs.isSome = op.failArgs.isSome := by
  have hfail := h.failArgs
  generalize op.failArgs = fs, op'.failArgs = fs' at hfail ⊢
  cases hfail <;> rfl

theorem isGuard (h : op.Renders R T op') : op'.isGuard = op.isGuard := by
  rw [Operation.isGuard, h.opcode, Operation.isGuard]

theorem plain (h : op.Renders R T op') (hop : op.Plain) : op'.Plain := by
  intro hg
  obtain ⟨hf, hd⟩ := hop (h.isGuard ▸ hg)
  have hf' := h.failArgs_isSome
  have hd' := h.guard?_isSome
  rw [hf] at hf'
  rw [hd] at hd'
  exact ⟨by simpa using hf', by simpa using hd'⟩

/-- What an operation is written as fits where its operands are ready. -/
theorem fits {defined available : List Box} (hkind : ∀ a b, R a b → b.kind = a.kind)
    (hready : ∀ a b, R a (.box b) → b ∈ available) (h : op.Renders R T op')
    (hr : op'.result.map (·.kind) = op.result.map (·.kind))
    (hnew : ∀ r, op'.result = some r → r ∉ available) (hop : op.Fits defined) :
    op'.Fits available where
  arity n hn := by
    rw [h.opcode] at hn
    rw [← h.args.length_eq]
    exact hop.arity n hn
  reads b hb := by
    obtain ⟨a, _, hR⟩ := exists_right_of_mem h.usedArgs.flip hb
    exact hready a b hR
  kinds := (h.kindsAgree hkind hr).trans hop.kinds
  guarded hg := by
    rw [h.guard?_isSome, h.failArgs_isSome]
    exact hop.guarded (h.isGuard ▸ hg)
  produced r hr' := by
    rw [hr', Option.map_some, eq_comm, Option.map_eq_some_iff] at hr
    obtain ⟨r₀, hr₀, hk⟩ := hr
    obtain ⟨h₁, h₂, _⟩ := hop.produced r₀ hr₀
    rw [h.opcode]
    exact ⟨h₁, fun k hk' => (h₂ k hk').trans hk, hnew r hr'⟩
  unproduced hn := by
    rw [hn] at hr
    rw [h.opcode]
    exact hop.unproduced (by simpa using hr.symm)

theorem lands {token : LoopToken} {target : List Box}
    (hkind : ∀ a b, R a b → b.kind = a.kind) (h : op.Renders R T op')
    (hop : op.Lands token target) : op'.Lands token target := by
  unfold Lands
  rw [h.opcode, h.token?]
  refine hop.imp_right fun ⟨hj, t, ht, hargs⟩ => ⟨hj, t, ht, fun he => ?_⟩
  exact kinds_trans (h.args.imp hkind) (hargs he)

end Operation.Renders

namespace Optimizer

/-- What an operand is written as: an operand of its kind that is ready. -/
def Stands (base start : List Box) (o : Optimizer) (a a' : Operand) : Prop :=
  a'.kind = a.kind ∧ o.values.Ready (base ++ results o.out.toList) start a'

/-- The invariant while a list is written that begins with the boxes `base`, when the
boxes in `defined` may be named in operations to come. -/
structure Working (T : FrameTable) (base start defined : List Box) (o : Optimizer) : Prop where
  built : Built o.pool.nextGuard T base start defined o.values o.out.toList
  known : ∀ key id, o.known.get? key = some id →
    id < o.values.slots.size ∧ (o.values.slot id).operand.kind = key.kind
  ids : ∀ b ∈ defined, b.id < o.pool.nextBox
  sink : Relinker.Sound (Stands base start o) T ⟨o.sink, o.pool.nextFrame⟩

/-- A later state of the same list: nothing that was ready is lost. -/
structure Extends (o o' : Optimizer) : Prop where
  values : o.values.Later o'.values
  grows : o.out.toList <+: o'.out.toList

namespace Extends
variable {o o₁ o₂ : Optimizer}

theorem refl (o : Optimizer) : Extends o o :=
  ⟨.refl _, List.prefix_refl _⟩

theorem trans (h₁ : Extends o o₁) (h₂ : Extends o₁ o₂) : Extends o o₂ :=
  ⟨h₁.values.trans h₂.values, h₁.grows.trans h₂.grows⟩

theorem available (h : Extends o o₁) (base : List Box) :
    base ++ TracePeel.results o.out.toList ⊆ base ++ TracePeel.results o₁.out.toList :=
  List.append_subset.2 ⟨List.subset_append_left .., fun _ hb =>
    List.mem_append_right _ (results_subset h.grows hb)⟩

theorem stands (h : Extends o o₁) (hr : o.values.InRange) {base start : List Box}
    {a a' : Operand} (ha : Stands base start o a a') : Stands base start o₁ a a' :=
  ⟨ha.1, ha.2.mono hr (h.available base) h.values⟩

end Extends

/-- The operations forced on the way are written and nothing else changes. -/
structure ForcedTo (o o' : Optimizer) : Prop where
  same : o' = {o with values := o'.values, out := o'.out}
  values : o.values.Forced o'.values
  grows : o.out.toList <+: o'.out.toList

namespace ForcedTo
variable {o o₁ o₂ : Optimizer}

theorem refl (o : Optimizer) : ForcedTo o o :=
  ⟨rfl, .refl _, List.prefix_refl _⟩

theorem trans (h₁ : ForcedTo o o₁) (h₂ : ForcedTo o₁ o₂) : ForcedTo o o₂ := by
  refine ⟨?_, h₁.values.trans h₂.values, h₁.grows.trans h₂.grows⟩
  rw [h₂.same, h₁.same]

theorem extends_ (h : ForcedTo o o₁) : Extends o o₁ :=
  ⟨h.values.later, h.grows⟩

theorem stands (h : ForcedTo o o₁) {base start : List Box} {a a' : Operand}
    (ha : Stands base start o a a') : Stands base start o₁ a a' := by
  refine ⟨ha.1, fun b hb => ⟨h.extends_.available base (ha.2 b hb).1, fun hs => ?_⟩⟩
  obtain ⟨id, hid, hm, hr⟩ := (ha.2 b hb).2 hs
  exact ⟨id, by rwa [h.values.index], by rwa [h.values.fromStart], by rwa [h.values.operand]⟩

theorem persists (base start : List Box) : Persists ForcedTo (Stands base start) :=
  ⟨refl, trans, fun h => h.stands⟩

end ForcedTo

namespace Working
variable {T : FrameTable} {base start defined : List Box} {o : Optimizer}

theorem inRange (h : Working T base start defined o) : o.values.InRange :=
  h.built.table.inRange

/-- Looking up a box that was defined gives an operand that is ready. -/
theorem forwardBox_yields {n : Nat} {b : Box} (hb : b ∈ defined)
    (h : Built n T base start defined o.values o.out.toList) :
    Yields (forwardBox b) o fun a o' =>
      Built n T base start defined o'.values o'.out.toList ∧ ForcedTo o o' ∧
        Stands base start o' (.box b) a := by
  unfold forwardBox
  rw [yields_bind, yields_get]
  split
  next id hid =>
    have hlt := h.table.inRange _ id hid
    obtain ⟨hbuilt, hgrows, hforced, hop, _, hready⟩ := h.force hlt
    refine ⟨hbuilt, ⟨rfl, hforced, hgrows⟩, ?_, hready⟩
    rw [← h.table.kind _ id hid, ← hop]
    rfl
  next hn => exact ⟨h, .refl o, rfl, h.table.ready_waiting hb hn⟩

/-- The operation was written behind what was forced in front of it. -/
structure Wrote (T : FrameTable) (base start defined : List Box) (op : Operation)
    (o o' : Optimizer) : Prop where
  written : ∃ o₁ op' T' supply events,
    Built o.pool.nextGuard T' base start defined o₁.values o₁.out.toList ∧ ForcedTo o o₁ ∧
    T.Extends T' ∧ Relinker.Sound (Stands base start o₁) T' supply ∧
    op.Renders (Stands base start o₁) T' op' ∧ op'.result = op.result ∧
    op'.guard?.map (·.1) = op.guard?.map (·.1) ∧
    o' = {o₁ with
      sink := supply.relinker
      pool := {o₁.pool with nextFrame := supply.nextFrame}
      events
      out := o₁.out.push op'}

theorem emit_yields (h : Working T base start defined o) {op : Operation}
    (hreads : ∀ b, .box b ∈ op.usedArgs → b ∈ defined) (hframes : op.snapshot.In T) :
    Wrote T base start defined op o ((emit op).run o).2 := by
  have hstep : ∀ b, .box b ∈ op.usedArgs → ∀ o',
      Built o.pool.nextGuard T base start defined o'.values o'.out.toList →
      Yields (forwardBox b) o' fun a o'' =>
        Built o.pool.nextGuard T base start defined o''.values o''.out.toList ∧
          ForcedTo o' o'' ∧ Stands base start o'' (.box b) a :=
    fun b hb _ => forwardBox_yields (hreads b hb)
  obtain ⟨o₁, op', T', supply, events, hbuilt, hforced, hT, hs, hrenders, hresult, hguard, he⟩ :=
    Optimizer.emit_yields (ForcedTo.persists base start) (fun _ _ => ⟨rfl, nofun⟩)
      (fun {o o'} h => by rw [h.same]; exact ⟨rfl, rfl⟩) hframes hstep h.built h.sink
  exact ⟨o₁, op', T', supply, events, hbuilt.mono (Nat.le_refl _) hT, hforced, hT, hs, hrenders,
    hresult, hguard, he⟩

end Working
end Optimizer
end TracePeel
