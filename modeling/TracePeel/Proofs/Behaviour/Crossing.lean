import TracePeel.Proofs.Behaviour.Following
import TracePeel.Proofs.Peeling.Closing

/-! What is known goes over into the loop.

What the preamble learnt holds at the end of every iteration, whatever its values, since
every iteration runs the same operations. So it holds in an environment in which the
boxes of the trace hold the values of one iteration and their names in the next
iteration the values of the next, and in that environment the recorded operations are
gone through once more. -/
namespace TracePeel.Optimizer

variable {c : Config} {w : World} {V : Env} {T : FrameTable} {o o' : Optimizer}

/-! ### Between the lists -/

theorem Knows.forcing (h : Knows w V T o) (id : ValueId) : o.forcing id = o := by
  simp only [Optimizer.forcing, Values.force_of_real (h.table.slots id).real]

/-- Without virtual objects, forcing writes nothing, and meeting operands keeps what is
known. -/
theorem Knows.grown (h : Knows w V T o) (hg : o.values.Grounded o.known) (hgrown : Grown o o') :
    Knows w V T o' ∧ o'.values.Grounded o'.known ∧ o'.out = o.out := by
  induction hgrown with
  | refl => exact ⟨h, hg, rfl⟩
  | met a _ ih =>
    obtain ⟨hk, hg', hout⟩ := ih
    exact ⟨hk.met hg' a, hg'.valueOf a, hout⟩
  | forced id _ ih => rwa [ih.1.forcing id]
  | told _ _ ih => exact ⟨⟨ih.1.table, ih.1.sink⟩, ih.2⟩

/-- What is known when the second way begins. -/
theorem Entered.knows {T₀ : FrameTable} {base defined inputs loopInputs : List Box}
    {args : List Operand} {rest : List Stage} {n : Peeling}
    (h : Entered T₀ base defined inputs args rest n o loopInputs o')
    (hk : o.values.Hold w V o.known) (hg : o.values.Grounded o.known) (hsink : o.sink = .keeping)
    (hbelow : T.Below o.pool.nextFrame) : Knows w V T o' := by
  obtain ⟨events, hsame⟩ := h.same
  obtain ⟨chain, o₁, hmet, hvalues⟩ := h.marked
  have hknows : Knows w V T {o with chain} := by
    refine ⟨hk, ?_⟩
    show Relinker.Sound _ T ⟨o.sink, o.pool.nextFrame⟩
    rw [hsink]
    exact .empty hbelow true
  have hk₁ := (hknows.of_met hg hmet).1
  have heq := hmet.eq_values
  have hknown : o'.known = o₁.known := by
    rw [hsame, heq]
  refine ⟨?_, ?_⟩
  · rw [hvalues, hknown]
    exact hk₁.table.markFromStart
  · rw [hsame]
    exact hknows.sink

/-! ### Two iterations in one environment -/

/-- The names that boxes have in the next iteration hold what the boxes hold there. -/
def Bridges (next : Bindings Box Operand) (W V : Env) : Prop :=
  ∀ b a, next.get? b = some a → W.value a = V b

theorem Bridges.value {next : Bindings Box Operand} {W V : Env} (h : Bridges next W V)
    {a a' : Operand} (ha : Next next a a') : W.value a' = V.value a := by
  cases a with
  | const c =>
    cases ha
    rfl
  | box b => exact h b a' ha

/-- An environment that holds the values of one iteration in the boxes that there are and
those of the next in the boxes that are new. -/
theorem Replayed.exists_bridge {ps : List Pass} {rest : List Stage} {ops : List Operation}
    {n n' : Peeling} {W V : Env} (h : Replayed ps rest ops n o n' o') (hW : W.Kinds) (hV : V.Kinds)
    (hnext : Bridges n.next W V)
    (hids : ∀ b a, n.next.get? b = some a → ∀ r, a = .box r → r.id < o.pool.nextBox) :
    ∃ W' : Env, W'.Kinds ∧ (∀ b, b.id < o.pool.nextBox → W' b = W b) ∧ Bridges n'.next W' V := by
  induction h generalizing W with
  | nil => exact ⟨W, hW, fun _ _ => rfl, hnext⟩
  | @cons T op op' ops n n₁ n' o o₁ o₂ o' events hr _ hs _ ih =>
    have hbox : o₂.pool.nextBox = o.pool.nextBox + op.result.toList.length :=
      hs.keeps.nextBox.trans hr.nextBox
    cases hres : op.result with
    | none =>
      obtain ⟨-, hn₁⟩ := hr.unproduced hres
      rw [hres] at hbox
      obtain ⟨W', hW', hold, hb⟩ := ih hW (by rwa [hn₁]) (by rw [hn₁, hbox]; exact hids)
      rw [hbox] at hold
      exact ⟨W', hW', hold, hb⟩
    | some r =>
      obtain ⟨-, hn₁⟩ := hr.produced r hres
      rw [hres] at hbox
      set r' : Box := ⟨o.pool.nextBox, r.kind⟩ with hr'
      set W₁ : Env := W.define (some r') fun _ => V r with hW₁
      have hnew : W₁ r' = V r := by simp [hW₁, Env.define]
      have hold₁ : ∀ b, b.id < o.pool.nextBox → W₁ b = W b := by
        intro b hb
        have hne : r' ≠ b := by
          intro he
          rw [← he] at hb
          exact Nat.lt_irrefl _ hb
        simp [hW₁, Env.define, hne]
      have hkinds : W₁.Kinds := by
        intro b
        by_cases hb : r' = b
        · rw [← hb, hnew, hV r]
        · simpa [hW₁, Env.define, hb] using hW b
      have hget : ∀ b, n₁.next.get? b = if r = b then some (.box r') else n.next.get? b :=
        fun b => by rw [hn₁, Bindings.get?_set]
      have hbridges : Bridges n₁.next W₁ V := by
        intro b a ha
        rw [hget] at ha
        split at ha
        next he =>
          cases ha
          rw [← he]
          exact hnew
        next =>
          rw [← hnext b a ha]
          cases a with
          | const c => rfl
          | box r₁ => exact hold₁ r₁ (hids b _ ha r₁ rfl)
      have hids₁ : ∀ b a, n₁.next.get? b = some a → ∀ r, a = .box r → r.id < o₂.pool.nextBox := by
        intro b a ha r₁ hr₁
        rw [hbox]
        rw [hget] at ha
        split at ha
        next he =>
          cases ha
          cases hr₁
          exact Nat.lt_succ_self _
        next => exact Nat.lt_succ_of_lt (hids b a ha r₁ hr₁)
      obtain ⟨W', hW', hold, hb⟩ := ih hkinds hbridges hids₁
      refine ⟨W', hW', fun b hlt => ?_, hb⟩
      rw [hold b (by rw [hbox]; exact Nat.lt_succ_of_lt hlt), hold₁ b hlt]

/-! ### The recorded operations in the next iteration -/

section Next
variable {T₁ : FrameTable} {base defined walked : List Box} {rest : List Stage} {n n' : Peeling}
  {op op' : Operation} {ops : List Operation} {W V : Env} {s : Course} {called : Bool}

/-- What an operation is in the next iteration does there what the operation does. -/
theorem Renamed.alike (h : Renamed T rest n n' op op' o o') (hb : Bridges n.next W V)
    (hop : op.Plain) : Alike V W op op' :=
  h.renders.alike (fun _ _ => hb.value) hop

/-- And where its result is named, that holds what the operation produces. -/
theorem Renamed.explains (h : Renamed T rest n n' op op' o o') (hb : Bridges n'.next W V)
    (halike : Alike V W op op') (hfits : op.Fits walked) (he : w.Explains V [op] s) :
    w.Explains W [op'] s := by
  intro s' hs'
  rw [halike.outcome] at hs'
  refine ⟨fun r' hr' => ?_, trivial⟩
  cases hres : op.result with
  | none =>
    rw [(h.unproduced hres).1] at hr'
    cases hr'
  | some r =>
    obtain ⟨hres', hnext⟩ := h.produced r hres
    rw [hres'] at hr'
    cases hr'
    have hname : n'.next.get? r = some (.box ⟨o.pool.nextBox, r.kind⟩) := by
      rw [hnext]
      exact Bindings.get?_set_self ..
    have hvalue : W ⟨o.pool.nextBox, r.kind⟩ = V r := hb r _ hname
    rw [hvalue, halike.result (World.isGuard_of_result hfits hres)]
    exact (he s' hs').1 r hres

/-- A name is given once. -/
theorem Replayed.names_stay {ps : List Pass} (h : Replayed ps rest ops n o n' o')
    (hops : Accepts walked ops) (honly : ∀ b, n.next.get? b ≠ none → b ∈ walked) {b : Box}
    {a : Operand} (hb : n.next.get? b = some a) : n'.next.get? b = some a := by
  induction h generalizing walked with
  | nil => exact hb
  | @cons _ op _ _ _ _ _ _ _ _ _ _ hr _ _ _ ih =>
    obtain ⟨hop, -, hrest⟩ := hops
    cases hres : op.result with
    | none =>
      rw [hres] at hrest
      obtain ⟨-, hnext⟩ := hr.unproduced hres
      exact ih hrest (by rwa [hnext]) (by rwa [hnext])
    | some r =>
      rw [hres] at hrest
      obtain ⟨-, hnext⟩ := hr.produced r hres
      refine ih hrest (fun c hc => ?_) ?_
      · rw [hnext, Bindings.get?_set] at hc
        split at hc
        next he => exact he ▸ List.mem_cons_self ..
        next => exact .tail _ (honly c hc)
      · have hne : r ≠ b := by
          rintro rfl
          exact (hop.produced r hres).2.2 (honly r (by simp [hb]))
        rw [hnext, Bindings.get?_set, if_neg hne, hb]

/-- Going through the operations once more, the table and the list grow. -/
theorem Replayed.extends_ (h : Replayed c.behind rest ops n o n' o')
    (hrep : Replaying T base defined walked rest n o) {nextGuard nextBox : Nat}
    (hops : Coming T walked nextGuard nextBox ops) : Extends o o' := by
  induction h generalizing T defined walked with
  | nil => exact .refl _
  | cons _ hrenames hs _ ih =>
    have hop := hops.head
    obtain ⟨_, hT, hr⟩ := hrenames hrep.names hop.fits.reads hop.neat.frames hop.fresh
    obtain ⟨_, hT', hrep', hextends⟩ := hrep.step hT hr hop hs
    exact hextends.trans (ih hrep' (hops.tail hT'))

/-- The operands of an operation keep their kinds in the next iteration. -/
theorem Renamed.kinds (h : Renamed T rest n n' op op' o o')
    (hnames : Renaming T₁ defined walked n o.pool.nextFrame) :
    op'.args.map (·.kind) = op.args.map (·.kind) := by
  have hkind : ∀ a a', Next n.next a a' → a'.kind = a.kind := by
    intro a a' ha
    cases a with
    | const c =>
      cases ha
      rfl
    | box b =>
      have hb : n.next.get? b = some a' := ha
      obtain ⟨a'', ha'', hk, -⟩ := hnames.next b (hnames.only b (by simp [hb]))
      rw [hb] at ha''
      cases ha''
      exact hk
  have hargs := h.renders.args
  generalize op.args = as, op'.args = as' at hargs
  induction hargs with
  | nil => rfl
  | cons ha _ ih => rw [List.map_cons, List.map_cons, hkind _ _ ha, ih]

/-- What is written for the next iteration does there what the operations do. The frames that
the operations are rebuilt with are followed twice: in `T₁` for what may come, in `T` for what
is known. -/
theorem Replayed.mirrors (h : Replayed c.behind rest ops n o n' o')
    (hvirtual : c.virtualize = false) (hrep : Replaying T₁ base defined walked rest n o)
    {nextGuard nextBox : Nat} (hops : Coming T₁ walked nextGuard nextBox ops)
    (hnames : Renaming T defined walked n o.pool.nextFrame) (hk : Knows w W T o)
    (hframes : ∀ op ∈ ops, op.snapshot.In T) (hW : W.Kinds) (hb : Bridges n'.next W V)
    (he : w.Explains V ops s) (hcalm : c.rewrite = true → Calm called o s)
    (hhonest : c.rewrite = true → w.HonestAt V called ops s) :
    Mirrors w W T s (w.runAt V ops s) o o' := by
  induction h generalizing T T₁ defined walked called s with
  | nil => exact .nil hk s
  | @cons _ op op' ops n n₁ n' o o₁ o₂ o' events hr hrenames hs hrest ih =>
    have hop := hops.head
    have hplain := hop.neat.plain
    obtain ⟨T₂, hT₂, hr₂⟩ := hrenames hrep.names hop.fits.reads hop.neat.frames hop.fresh
    obtain ⟨T₃, hT₃, hr₃⟩ := hrenames hnames hop.fits.reads (hframes op (List.mem_cons_self ..))
      hop.fresh
    obtain ⟨T₄, hT₄, hrep', -⟩ := hrep.step hT₂ hr₂ hop hs
    have hstay : ∀ {b a}, n₁.next.get? b = some a → n'.next.get? b = some a :=
      hrest.names_stay (hops.tail (.refl T₁)).accepts hrep'.names.only
    have hb₁ : Bridges n₁.next W V := fun b a ha => hb b a (hstay ha)
    have hb₀ : Bridges n.next W V :=
      fun b a ha => hb b a ((Replayed.cons hr hrenames hs hrest).names_stay hops.accepts
        hrep.names.only ha)
    have halike := hr.alike hb₀ hplain
    have hknows : Knows w W T₃ {o₁ with events} := by
      have hsame := hr.same
      refine ⟨?_, ?_⟩
      · rw [hsame]
        exact hk.table
      · show Relinker.Sound _ T₃ ⟨o₁.sink, o₁.pool.nextFrame⟩
        rw [show o₁.sink = o.sink by rw [hsame]]
        exact hk.sink.extends_ hT₃ hr₃.relinker.below
    have hg : o₁.values.Grounded o₁.known := by
      rw [hr.same]
      exact hrep.working.grounded
    have hcalm₁ : c.rewrite = true → Calm called {o₁ with events} s := by
      intro hc hm
      have hraise : o₁.mayRaise = o.mayRaise := by rw [hr.same]
      exact hcalm hc (hraise.symm.trans hm)
    obtain ⟨hmirrors, hcalm'⟩ := handled_mirrors (o := {o₁ with events}) hvirtual hg hknows
      (hr₂.comes hrep hop) hr₃.renders.snapshot_in hW
      (hr.explains hb₁ halike hop.fits (explains_head he)) hcalm₁
      (fun hc => (hhonest hc).1.alike halike (hr.kinds hrep.names)) hs
    rw [halike.outcome] at hmirrors hcalm'
    have hout : o₁.out = o.out := by rw [hr.same]
    refine Mirrors.behind (hmirrors.bind (hrest.extends_ hrep' (hops.tail hT₄)).grows
      fun s' T₅ hs' hT₅ hk' => ?_) hT₃ hout
    refine ih hrep' (hops.tail hT₄) (hr₃.names hnames hT₅ hk'.sink.below) hk'
      (fun op' hop' => (hframes op' (.tail _ hop')).mono (hT₃.trans hT₅)) hb (he s' hs').2
      (fun hc => ?_) fun hc => (hhonest hc).2 s' hs'
    have := hcalm' hc s' hs'
    rwa [hr.renders.opcode] at this

end Next

/-! ### What the jump hands over -/

section HandsOver
variable {base inputs : List Box} {rest : List Stage} {body : List Operation} {jump : Operation}
  {way : Way} {W V : Env}

/-- What is handed over for an input is the value that the input has in the next iteration. -/
theorem Hands.value {next : Bindings Box Operand} {b : Box} {a' : Operand}
    (h : Hands next base o b a') (hk : Knows w W T o) (hb : Bridges next W V) :
    W.value a' = V b := by
  obtain ⟨a, ha, -, hdelivers⟩ := h
  exact (hk.table.emittedAs hdelivers.emitted).trans (hb b a ha)

theorem map_value_of_hands {next : Bindings Box Operand} {bs : List Box} {as : List Operand}
    (h : List.Forall₂ (Hands next base o) bs as) (hk : Knows w W T o) (hb : Bridges next W V) :
    as.map W.value = bs.map V := by
  induction h with
  | nil => rfl
  | cons ha _ ih => rw [List.map_cons, List.map_cons, ih, ha.value hk hb]

/-- Behind the operations the jump is written and inputs are added, but nothing else, and the
loop is handed over the values that its inputs have in the next iteration. -/
theorem Closed.hands_over {token : LoopToken} {T₀ : FrameTable}
    (h : Closed c T₀ inputs rest body jump o way o') (hjump : Closes token inputs body jump)
    (hvirtual : c.virtualize = false) (hk : Knows w W T way.replayed)
    (hb : Bridges way.notes.next W V) :
    way.searched.out = way.replayed.out ∧
      (way.last.args ++ way.handed).map W.value = way.inputs.map V := by
  obtain ⟨T₁, n', jump₀, o₁, hr, hgrown, hjump', -⟩ := h.jumped.renamed
  obtain ⟨_, hrep⟩ := h.replaying
  have hsame := hr.same
  have hk₁ : Knows w W T o₁ := by
    refine ⟨?_, ?_⟩
    · rw [hsame]
      exact hk.table
    · rw [show o₁.sink = way.replayed.sink by rw [hsame]]
      exact hk.sink.extends_ (.refl T) fun k chain hchain =>
        Nat.lt_of_lt_of_le (hk.sink.below k chain hchain) hr.nextFrame
  have hg₁ : o₁.values.Grounded o₁.known := by
    rw [hsame]
    exact hrep.working.grounded
  obtain ⟨hk₂, hg₂, hout₂⟩ := hk₁.grown hg₁ hgrown
  -- The jump.
  obtain ⟨events, hs⟩ := h.jumped.handled
  have hk₃ : Knows w W T {way.asked with events} := ⟨hk₂.table, hk₂.sink⟩
  have hplain₀ : jump₀.Plain := hr.renders.plain hjump.plain
  have hopcode : way.jump.opcode = .jump := by
    rw [hjump']
    exact hr.renders.opcode.trans hjump.opcode
  have hplain : way.jump.Plain := by
    rw [hjump']
    exact hplain₀
  have hnone : way.jump.snapshot = [] :=
    Operation.snapshot_of_guard?_eq_none (hplain (Operation.isGuard_of_jump hopcode)).2
  obtain ⟨⟨last, halike, hpush⟩, ⟨T', -, hk₄⟩, hg₄⟩ := hk₃.concluded hvirtual hg₂ hplain
    (by rw [hopcode]; rfl) (by rw [hnone]; trivial) hs
  rw [h.jumped.out] at hpush
  obtain ⟨rfl, hout₄⟩ := Array.push_eq_push.1 hpush
  -- The inputs that are added.
  obtain ⟨_, -, -, hsearched⟩ := h.searched
  have hk₅ : Knows w W T' {way.written with out := way.out} := ⟨hk₄.table, hk₄.sink⟩
  obtain ⟨hk₆, -, hout₆⟩ := hk₅.grown hg₄ hsearched.grown
  refine ⟨?_, ?_⟩
  · rw [hout₆]
    show way.out = _
    rw [hout₄]
    show way.asked.out = _
    rw [hout₂, hsame]
  · rw [Way.inputs, List.map_append, List.map_append, halike.args,
      map_value_of_hands h.jumped.hands hk₂ hb, map_value_of_hands hsearched.hands hk₆ hb]

end HandsOver

end TracePeel.Optimizer
