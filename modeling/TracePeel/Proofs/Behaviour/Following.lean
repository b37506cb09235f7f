import TracePeel.Proofs.Behaviour.Rewriting
import TracePeel.Proofs.Running

/-! What is written does what comes.

Each operation that the passes deal with is mirrored by what they write for it, so a list
is. A guard may leave the list halfway; what was written behind it then does not count,
and no more is known of the environment. Allocation removal is off throughout. -/
namespace TracePeel.Optimizer

variable {c : Config} {w : World} {V : Env} {T T₁ : FrameTable} {base start defined : List Box}
  {n m : Nat} {op : Operation} {ops : List Operation} {o o₁ o' : Optimizer} {called : Bool}
  {s : Course}

/-- What is known does not depend on the chain. -/
theorem Knows.placed (h : Knows w V T o) (chain : Array Stage) (cursor : Nat) :
    Knows w V T {o with chain, cursor} :=
  ⟨h.table, h.sink⟩

/-- Nothing is known when the first operation is sent. -/
theorem knows_begin (c : Config) {t : Trace} (ht : t.Recorded) (w : World) (V : Env) :
    Knows w V t.frameTable (c.begin t) where
  table := by
    refine ⟨fun id => ?_, nofun, nofun⟩
    have hvacant : (c.begin t).values.slot id = Slot.vacant := Values.slot_of_not_lt (Nat.not_lt_zero id)
    rw [hvacant]
    exact ⟨rfl, nofun, nofun⟩
  sink := .empty ht.drawn.below true

theorem behind_eq (hvirtual : c.virtualize = false) :
    c.behind = if c.rewrite then [.rewrite] else [] := by
  simp [Config.behind, hvirtual]

/-- One operation through the passes. -/
theorem handled_mirrors (hvirtual : c.virtualize = false) (hg : o.values.Grounded o.known)
    (hk : Knows w V T o) (hop : op.Comes T₁ defined n m) (hframes : op.snapshot.In T)
    (hV : V.Kinds) (he : w.Explains V [op] s) (hcalm : c.rewrite = true → Calm called o s)
    (hhonest : c.rewrite = true → Honest called V op s) (h : Handled c.behind op o o') :
    Mirrors w V T s (w.outcome V op s) o o' ∧ (c.rewrite = true →
      ∀ s', w.outcome V op s = .ok s' → Calm (called || op.opcode.canRaise) o' s') := by
  rw [behind_eq hvirtual] at h
  cases hrewrite : c.rewrite with
  | false =>
    rw [hrewrite] at h
    have hguard : op.isGuard = true → op.result = none := fun hg =>
      hop.no_result (Opcode.hasResult_eq_false_of_isGuard hg)
    exact ⟨(hk.handled hop.neat.plain hframes h).mirrors hguard he, nofun⟩
  | true =>
    rw [hrewrite] at h
    obtain ⟨chain, cursor, o₂, hs, rfl⟩ := h
    have hfaithful := Rewrite.rewritten_faithful (o := {o with chain, cursor}) hg
      (hk.placed chain cursor) hop hframes hV he (hcalm hrewrite) (hhonest hrewrite) hs
    obtain ⟨new, hnew, hmimics, hknows⟩ := hfaithful.mirrors
    refine ⟨⟨new, hnew, hmimics, fun s' hs' => ?_⟩, fun _ => hfaithful.calm⟩
    obtain ⟨T', hT, hk'⟩ := hknows s' hs'
    exact ⟨T', hT, hk'.placed ..⟩

/-! ### Lists -/

theorem Mirrors.nil (h : Knows w V T o) (s : Course) : Mirrors w V T s (.ok s) o o :=
  ⟨[], by simp, ⟨rfl, trivial⟩, fun _ _ => ⟨T, .refl T, h⟩⟩

/-- What is written behind operations that leave the list does not count. -/
theorem Mimics.extend {x : Except Exit Course} {new front : List Operation}
    (h : Mimics w V s x new) (hgrows : new <+: front) (hok : ∀ s', x = .ok s' → front = new) :
    Mimics w V s x front := by
  cases x with
  | ok s' =>
    rw [hok s' rfl]
    exact h
  | error e =>
    obtain ⟨more, rfl⟩ := hgrows
    refine ⟨?_, (World.explains_append w).2 ⟨h.explains, fun s' hs' => ?_⟩⟩
    · rw [World.runAt_append, h.outcome]
      rfl
    · rw [h.outcome] at hs'
      cases hs'

/-- What comes behind an operation counts only where the list goes on. -/
theorem Mirrors.bind {x : Except Exit Course} {f : Course → Except Exit Course}
    (h : Mirrors w V T s x o o₁) (hgrows : o₁.out.toList <+: o'.out.toList)
    (hrest : ∀ s' T', x = .ok s' → T.Extends T' → Knows w V T' o₁ →
      Mirrors w V T' s' (f s') o₁ o') : Mirrors w V T s (x >>= f) o o' := by
  obtain ⟨new₁, hnew₁, hmimics₁, hknows₁⟩ := h
  cases x with
  | error e =>
    obtain ⟨new₂, hnew₂⟩ := hgrows
    refine ⟨new₁ ++ new₂, by rw [← hnew₂, hnew₁, List.append_assoc], ?_, nofun⟩
    exact hmimics₁.extend (List.prefix_append ..) nofun
  | ok s₁ =>
    obtain ⟨T', hT, hk⟩ := hknows₁ s₁ rfl
    obtain ⟨new₂, hnew₂, hmimics₂, hknows₂⟩ := hrest s₁ T' rfl hT hk
    refine ⟨new₁ ++ new₂, by rw [hnew₂, hnew₁, List.append_assoc], ⟨?_, ?_⟩, fun s' hs' => ?_⟩
    · rw [World.runAt_append, hmimics₁.outcome]
      exact hmimics₂.outcome
    · refine (World.explains_append w).2 ⟨hmimics₁.explains, fun s' hs' => ?_⟩
      rw [hmimics₁.outcome] at hs'
      cases hs'
      exact hmimics₂.explains
    · obtain ⟨T'', hT', hk'⟩ := hknows₂ s' hs'
      exact ⟨T'', hT.trans hT', hk'⟩

/-- What is mirrored behind a state that differs in nothing that was written. -/
theorem Mirrors.behind {x : Except Exit Course} (h : Mirrors w V T₁ s x o₁ o')
    (hT : T.Extends T₁) (hout : o₁.out = o.out) : Mirrors w V T s x o o' := by
  obtain ⟨new, hnew, hmimics, hknows⟩ := h
  refine ⟨new, by rw [hnew, hout], hmimics, fun s' hs' => ?_⟩
  obtain ⟨T', hT', hk⟩ := hknows s' hs'
  exact ⟨T', hT.trans hT', hk⟩

theorem explains_head (he : w.Explains V (op :: ops) s) : w.Explains V [op] s :=
  fun s' hs' => ⟨(he s' hs').1, trivial⟩

/-- Operations that come one behind the other are mirrored. -/
theorem Processed.mirrors (h : Processed c.behind ops o o') (hvirtual : c.virtualize = false)
    (hw : Working T₁ base start defined o)
    (hops : Coming T₁ defined o.pool.nextGuard o.pool.nextBox ops) (hk : Knows w V T o)
    (hframes : ∀ op ∈ ops, op.snapshot.In T) (hV : V.Kinds) (he : w.Explains V ops s)
    (hcalm : c.rewrite = true → Calm called o s)
    (hhonest : c.rewrite = true → w.HonestAt V called ops s) :
    Mirrors w V T s (w.runAt V ops s) o o' := by
  induction h generalizing T T₁ defined called s with
  | nil => exact .nil hk s
  | @cons op ops o o₁ o' hop hrest ih =>
    obtain ⟨T₂, hT₂, hw₁, -⟩ := sends_handled c hw hops.head hop
    have htail : Coming T₂ (op.result.toList ++ defined) o₁.pool.nextGuard o₁.pool.nextBox ops := by
      rw [hop.keeps.nextGuard, hop.keeps.nextBox]
      exact hops.tail hT₂
    obtain ⟨-, -, -, hextends⟩ := hrest.working hw₁ htail
    obtain ⟨hmirrors, hcalm'⟩ := handled_mirrors hvirtual hw.grounded hk hops.head
      (hframes op (List.mem_cons_self ..)) hV (explains_head he) hcalm
      (fun hr => (hhonest hr).1) hop
    refine hmirrors.bind hextends.grows fun s' T' hs' hT hk' => ?_
    exact ih hw₁ htail hk' (fun op' hop' => (hframes op' (.tail _ hop')).mono hT) (he s' hs').2
      (fun hr => hcalm' hr s' hs') fun hr => (hhonest hr).2 s' hs'

/-! ### The end of a list -/

/-- The operation that ends a list is written with operands that hold the same. -/
theorem Knows.concluded (hk : Knows w V T o) (hvirtual : c.virtualize = false)
    (hg : o.values.Grounded o.known) (hplain : op.Plain) (hfinal : op.opcode.isFinal = true)
    (hframes : op.snapshot.In T) (h : Handled c.behind op o o') :
    (∃ op', Alike V V op op' ∧ o'.out = o.out.push op') ∧
      (∃ T', T.Extends T' ∧ Knows w V T' o') ∧ o'.values.Grounded o'.known := by
  have hnil : ∀ {o₁ o₂ : Optimizer}, Knows w V T o₁ → o₁.values.Grounded o₁.known →
      o₁.out = o.out → Handled [] op o₁ o₂ →
      (∃ op', Alike V V op op' ∧ o₂.out = o.out.push op') ∧
        (∃ T', T.Extends T' ∧ Knows w V T' o₂) ∧ o₂.values.Grounded o₂.known := by
    intro o₁ o₂ hk₁ hg₁ hout hs
    have hemitted := hk₁.handled hplain hframes hs
    obtain ⟨op', halike, -, hpush⟩ := hemitted.written
    refine ⟨⟨op', halike, by rw [hpush, hout]⟩, hemitted.knows, ?_⟩
    rw [hemitted.values, hemitted.known]
    exact hg₁
  rw [behind_eq hvirtual] at h
  cases hrewrite : c.rewrite with
  | false =>
    rw [hrewrite] at h
    exact hnil hk hg rfl h
  | true =>
    rw [hrewrite] at h
    obtain ⟨chain, cursor, o₂, hs, rfl⟩ := h
    have hguard : op.isGuard = false := Opcode.isGuard_eq_false_of_isFinal hfinal
    have hpure : op.opcode.isAlwaysPure = false := Opcode.isAlwaysPure_eq_false_of_isFinal hfinal
    have hrewritten : Rewrite.Rewritten (Handled []) op {o with chain, cursor} o₂ := hs
    cases hrewritten with
    | passed hmet _ hs =>
      have heq := hmet.eq_values
      obtain ⟨hk₁, hg₁⟩ := (hk.placed chain cursor).of_met hg hmet
      obtain ⟨hwritten, ⟨T', hT, hk'⟩, hg'⟩ := hnil hk₁ hg₁ (by rw [heq]) hs
      exact ⟨hwritten, ⟨T', hT, hk'.placed ..⟩, hg'⟩
    | dropped _ hi => rw [hi.isGuard] at hguard; cases hguard
    | kept _ ht => rw [ht.isGuard] at hguard; cases hguard
    | unraised hno | checked hno => rw [hno] at hfinal; cases hfinal
    | called hcall => rw [hcall] at hfinal; cases hfinal
    | aliased hsame => rw [hsame] at hfinal; cases hfinal
    | folded hp | reused hp | computed hp => rw [hp] at hpure; cases hpure

end TracePeel.Optimizer
