import TracePeel.Proofs.Behaviour.Crossing
import TracePeel.Proofs.Behaviour.Laps
import TracePeel.Proofs.Exceptions

/-! Optimizing preserves what a loop does.

One environment explains an iteration of the trace and one the next. What the preamble
learnt holds in the first wherever its iteration ran to the end, and the list that goes
round does in both together what the trace does in the next. So the laps of the two go
together: the inputs of the loop hold what they held at the end of the iteration before. -/
namespace TracePeel

namespace Optimizer

variable {c : Config} {w : World} {t : Trace} {T : FrameTable} {inputs : List Box}
  {rest : List Stage} {body front : List Operation} {last jump : Operation} {way : Way}
  {V V₁ W : Env} {o o' : Optimizer} {s : Course} {p : Point}

/-- What ends in a final operation grew in front of it. -/
theorem prefix_of_final {xs : List Operation} (h : xs <+: front ++ [last])
    (hxs : Accepts inputs xs) (hlast : last.opcode.isFinal = true) : xs <+: front := by
  rcases List.prefix_concat_iff.1 h with rfl | h
  · have hopen := hxs.isFinal (List.mem_append_right front (List.mem_singleton_self last))
    rw [hlast] at hopen
    cases hopen
  · exact h

/-! ### The first way through the trace -/

/-- What is written for the recorded operations does what they do. -/
theorem Processed.mirrors_begin (h : Processed c.behind body (c.begin t) o)
    (hvirtual : c.virtualize = false) (ht : t.Recorded) (hsplit : t.Split body last) (hV : V.Kinds)
    (he : w.Explains V body s) (hhonest : c.rewrite = true → w.HonestAt V false body s) :
    Mirrors w V t.frameTable s (w.runAt V body s) (c.begin t) o :=
  h.mirrors hvirtual (working_begin c ht) (hsplit.coming ht) (knows_begin c ht w V)
    (fun op hop => ht.drawn.snapshot_in (by simp [hsplit.ops, hop])) hV he
    (fun _ _ hcalled => by cases hcalled) hhonest

/-- An environment in which the recorded operations run to their end, past honest guards. -/
structure Completes (w : World) (c : Config) (body : List Operation) (V : Env) : Prop where
  kinds : V.Kinds
  ran : ∃ s s', w.Explains V body s ∧ w.runAt V body s = .ok s' ∧
    (c.rewrite = true → w.HonestAt V false body s)

theorem Completes.congr (h : Completes w c body V) (hbody : Accepts inputs body) (hW : W.Kinds)
    (hV : ∀ b ∈ inputs ++ results body, V b = W b) : Completes w c body W := by
  obtain ⟨s, s', he, hrun, hhonest⟩ := h.ran
  exact ⟨hW, s, s', he.congr hbody hV, (World.runAt_congr hbody hV s).symm.trans hrun,
    fun hc => (hhonest hc).congr hbody hV⟩

/-- What was learnt from the recorded operations holds wherever they run to their end. -/
theorem Completes.knows (hV : Completes w c body V) (h : Processed c.behind body (c.begin t) o)
    (hvirtual : c.virtualize = false) (ht : t.Recorded) (hsplit : t.Split body last) :
    ∃ T', t.frameTable.Extends T' ∧ Knows w V T' o := by
  obtain ⟨s, s', he, hrun, hhonest⟩ := hV.ran
  obtain ⟨_, -, -, hknows⟩ := h.mirrors_begin hvirtual ht hsplit hV.kinds he hhonest
  exact hknows s' hrun

/-! ### The list that goes round -/

section Peeled

/-- The preamble does what was recorded, whether or not it runs to its end. -/
theorem Closed.preamble (h : Closed c T inputs rest body jump o way o')
    (hg : o.values.Grounded o.known) {start : Optimizer} (hstart : start.out = #[])
    {T' : FrameTable} (hmirrors : Mirrors w V T' s (w.runAt V body s) start o) :
    Mimics w V s (w.runAt V body s) way.captured.out.toList := by
  obtain ⟨new, hnew, hmimics, hknows⟩ := hmirrors
  rw [hstart] at hnew
  have hnew' : o.out.toList = new := hnew
  refine hmimics.extend (hnew' ▸ h.captured.grown.out_grows) fun s' hs' => ?_
  obtain ⟨_, -, hk⟩ := hknows s' hs'
  rw [(hk.grown hg h.captured.grown).2.2, hnew']

/-- What is known at the end of the preamble is known when the loop begins. -/
theorem Closed.knows (h : Closed c T inputs rest body jump o way o')
    (hg : o.values.Grounded o.known) {T' : FrameTable} (hk : Knows w W T' o) :
    Knows w W T' way.entered := by
  obtain ⟨hk₁, hg₁, -⟩ := hk.grown hg h.captured.grown
  obtain ⟨_, _, _, hent⟩ := h.entered
  exact hent.knows hk₁.table hg₁ rfl hk₁.sink.below

/-- The loop begins with an empty list, and no frame was copied for it. -/
theorem Closed.begins (h : Closed c T inputs rest body jump o way o') :
    way.entered.pool = o.pool ∧ way.entered.out = #[] ∧ way.started.relinker = .copying := by
  obtain ⟨_, _, _, hent⟩ := h.entered
  obtain ⟨_, hsame⟩ := hent.same
  refine ⟨?_, by rw [hsame], ?_⟩
  · rw [hsame]
    show way.captured.pool = _
    rw [h.captured.grown.same]
  · have hchain : way.entered.chain = (⟨none, way.started⟩ :: rest : List Stage).toArray :=
      h.started.notes
    rw [hsame] at hchain
    have hstages := congrArg Array.toList hchain
    simp only [List.cons.injEq, Stage.mk.injEq, true_and, and_true] at hstages
    rw [← hstages]

/-- The names that the loop begins with do not depend on the frames that there are. -/
theorem Closed.names (h : Closed c T inputs rest body jump o way o') {T' : FrameTable}
    (hbelow : T'.Below way.entered.pool.nextFrame) :
    Renaming T' (inputs ++ results body) inputs way.started way.entered.pool.nextFrame where
  next := h.started.names.next
  only := h.started.names.only
  relinker := by
    rw [h.begins.2.2]
    exact .empty hbelow false

/-- Behind what was gone through the list only grows. -/
theorem Closed.replayed_prefix (h : Closed c T inputs rest body jump o way o') :
    way.replayed.out.toList <+: way.searched.out.toList := by
  obtain ⟨_, _, _, o₁, hr, hgrown, -, hw⟩ := h.jumped.renamed
  obtain ⟨_, -, -, hsearched⟩ := h.searched
  have hout : o₁.out = way.replayed.out := by rw [hr.same]
  have hgrows := h.jumped.grows
  rw [h.jumped.out, Array.toList_push] at hgrows
  rw [← hout]
  exact hgrown.out_grows.trans ((prefix_of_final hgrows hw.built.accepts (by
    rw [h.last.1]
    rfl)).trans hsearched.grown.out_grows)

/-- Where one environment brings the recorded list to its end and another explains it in the
iteration that follows, a third explains the list that goes round: that does the same and hands
over what the inputs of the loop hold in the second. -/
theorem Closed.mimics (h : Closed c T t.inputs rest body jump o way o')
    (hjump : Closes o.token t.inputs body jump) (hvirtual : c.virtualize = false)
    (hg : o.values.Grounded o.known)
    (hids : ∀ b ∈ t.inputs ++ results body, b.id < o.pool.nextBox) {n m : Nat}
    (hops : Coming T t.inputs n m body) (hframes : ∀ op ∈ body, op.snapshot.In t.frameTable)
    (hknows : ∀ W, Completes w c body W → ∃ T', t.frameTable.Extends T' ∧ Knows w W T' o)
    (hV : Completes w c body V) (hV₁ : V₁.Kinds)
    (hvalues : t.inputs.map V₁ = jump.args.map V.value) (he : w.Explains V₁ body s)
    (hhonest : c.rewrite = true → w.HonestAt V₁ false body s) :
    ∃ W : Env, (∀ b ∈ t.inputs ++ results body, W b = V b) ∧
      Mimics w W s (w.runAt V₁ body s) way.searched.out.toList ∧
      ∀ s', w.runAt V₁ body s = .ok s' →
        (way.last.args ++ way.handed).map W.value = way.inputs.map V₁ := by
  obtain ⟨hpool, hempty, -⟩ := h.begins
  have hlen := hjump.kinds.length_eq.symm
  have hname : ∀ {b a}, way.started.next.get? b = some a → (b, a) ∈ t.inputs.zip jump.args := by
    intro b a hb
    rw [h.next] at hb
    exact (next_inputs hjump.nodup hlen).1 hb
  have hentered : Bridges way.started.next V V₁ := by
    intro b a hb
    obtain ⟨i, hi, hba⟩ := List.mem_iff_getElem.1 (hname hb)
    rw [List.getElem_zip, Prod.mk.injEq] at hba
    have hi' : i < t.inputs.length := by
      rw [List.length_zip] at hi
      omega
    have := List.getElem_of_eq hvalues (i := i) (by simpa using hi')
    rw [List.getElem_map, List.getElem_map, hba.1, hba.2] at this
    exact this.symm
  have hgiven : ∀ b a, way.started.next.get? b = some a → ∀ r, a = .box r →
      r.id < way.entered.pool.nextBox := by
    rintro b a hb r rfl
    rw [hpool]
    exact hids r (hjump.reads r (List.of_mem_zip (hname hb)).2)
  obtain ⟨W, hW, hagree, hbridges⟩ := h.replayed.exists_bridge hV.kinds hV₁ hentered hgiven
  have hold : ∀ b ∈ t.inputs ++ results body, W b = V b := fun b hb =>
    hagree b (hpool ▸ hids b hb)
  obtain ⟨T', hT', hk⟩ := hknows W (hV.congr hops.accepts hW fun b hb => (hold b hb).symm)
  have hk₁ := h.knows hg hk
  have hmirrors := h.replayed.mirrors hvirtual h.started hops (h.names hk₁.sink.below) hk₁
    (fun op hop => (hframes op hop).mono hT') hW hbridges he
    (fun _ _ hcalled => by cases hcalled) hhonest
  obtain ⟨new, hnew, hmimics, hknows'⟩ := hmirrors
  rw [hempty] at hnew
  have hnew' : way.replayed.out.toList = new := hnew
  refine ⟨W, hold, hmimics.extend (hnew' ▸ h.replayed_prefix) fun s' hs' => ?_,
    fun s' hs' => ?_⟩
  · obtain ⟨_, -, hk'⟩ := hknows' s' hs'
    rw [(h.hands_over hjump hvirtual hk' hbridges).1, hnew']
  · obtain ⟨_, -, hk'⟩ := hknows' s' hs'
    exact (h.hands_over hjump hvirtual hk' hbridges).2

end Peeled

/-! ### Laps of the trace and of the loop -/

/-- Some environment explains the recorded operations from a point that fits, and what a lap
is honest about it is honest about. -/
theorem exists_environment (hsplit : t.Split body last) (hp : p.Fits t.inputs) {n : Nat}
    (hhonest : c.rewrite = true → w.HonestLaps t (n + 1) p) :
    ∃ V : Env, V.Kinds ∧ (∀ b ∈ t.inputs, Env.enter t.inputs p.values b = V b) ∧
      w.Explains V body p.course ∧ (c.rewrite = true → w.HonestAt V false body p.course) := by
  obtain ⟨V, hV, hagree, he⟩ :=
    World.exists_explains (w := w) hsplit.accepts (Env.kinds_enter hp) p.course
  refine ⟨V, hV, hagree, he, fun hc => ?_⟩
  have hrun := (hhonest hc).1
  rw [hsplit.ops] at hrun
  exact hrun.foreseen hsplit.accepts hagree he

/-- What a lap hands over fits the inputs. -/
theorem fits_of_again (hsplit : t.Split body last) (hV : V.Kinds) {q : Point}
    (hq : (World.leave V last s).again? t.token = some q) :
    last.closes t.token = true ∧ q.Fits t.inputs := by
  unfold Exit.again? at hq
  split at hq
  next hjump =>
    cases hq
    have hcloses : last.closes t.token = true := Operation.closes_iff.2 hjump
    refine ⟨hcloses, ?_⟩
    have hkinds := List.forall₂_iff_get.1 (hsplit.kinds hcloses)
    refine List.ext_getElem (by simp [World.leave, hkinds.1]) fun i hi hi' => ?_
    simp only [World.leave, List.length_map] at hi hi'
    simp only [World.leave, List.getElem_map]
    exact (hV.value _).trans (hkinds.2 i hi hi')
  next => cases hq

/-- One straight list does in each lap what was recorded. -/
theorem straight_preserves (hbody : Processed c.behind body (c.begin t) o)
    (hlast : Handled c.behind last o o') (hvirtual : c.virtualize = false) (ht : t.Recorded)
    (hsplit : t.Split body last) {n : Nat} (hp : p.Fits t.inputs)
    (hhonest : c.rewrite = true → w.HonestLaps t n p) :
    (w.runTrace t n p).map (·.course) = (w.runLoop (o'.loop t.name) n p).map (·.course) := by
  have hk := hbody.keeps.trans hlast.keeps
  have hnone : (o'.loop t.name).preamble = none := hk.preamble
  have hinputs : (o'.loop t.name).inputs = t.inputs := hk.inputs
  have htoken : (o'.loop t.name).token = t.token := hk.token
  obtain ⟨T, hT, hw, -⟩ := hbody.working (working_begin c ht) (hsplit.coming ht)
  obtain ⟨front, last', hsplit'⟩ := (recorded_straight ht hsplit hbody hlast).split
  have hmem : last ∈ t.ops := by simp [hsplit.ops]
  have hneat := ht.neat hmem
  obtain ⟨_, _, _, -, hgrows, -⟩ :=
    concludes_handled c hw hsplit.fits hsplit.lands.isFinal (hneat.frames.mono hT) hlast
  have hout : o'.out.toList = front ++ [last'] := hsplit'.ops
  have hfront : o.out.toList <+: front :=
    prefix_of_final (hout ▸ hgrows.grows) hw.built.accepts hsplit'.lands.isFinal
  unfold World.runTrace World.runLoop
  rw [hnone]
  show _ = (w.laps (o'.loop t.name).token _ _ n p).map (·.course)
  rw [htoken]
  refine World.laps_together
    (R := fun n q q' => q = q' ∧ q.Fits t.inputs ∧ (c.rewrite = true → w.HonestLaps t n q))
    (fun q q' h => by rw [h.1]) ?_ ⟨rfl, hp, hhonest⟩
  rintro n p _ ⟨rfl, hp, hhonest⟩
  obtain ⟨V, hV, hagree, he, hat⟩ := exists_environment hsplit hp hhonest
  obtain ⟨new, hnew, hmimics, hknows⟩ := hbody.mirrors_begin hvirtual ht hsplit hV he hat
  have hnew' : o.out.toList = new := hnew
  have hends : ∀ s', w.runAt V body p.course = .ok s' →
      ∃ op, Alike V V last op ∧ front ++ [last'] = new ++ [op] := by
    intro s' hs'
    obtain ⟨T', hT', hk'⟩ := hknows s' hs'
    obtain ⟨⟨op, halike, hop⟩, -⟩ := hk'.concluded hvirtual hw.grounded hneat.plain
      hsplit.lands.isFinal ((ht.drawn.snapshot_in hmem).mono hT') hlast
    exact ⟨op, halike, by rw [← hout, hop, Array.toList_push, hnew']⟩
  have hsame := hmimics.extend (hnew' ▸ hfront) fun s' hs' => by
    obtain ⟨op, -, hop⟩ := hends s' hs'
    exact (List.append_inj' hop rfl).1
  have hlap := hsplit.lap hagree he
  have hlap' := hsplit'.lap (w := w) (V := V) (p := p)
    (fun b hb => by
      have hb' : b ∈ (o'.loop t.name).inputs := hb
      rw [hinputs] at hb'
      show Env.enter (o'.loop t.name).inputs p.values b = V b
      rw [hinputs]
      exact hagree b hb') hsame.explains
  change w.lap (o'.loop t.name).inputs (o'.loop t.name).ops p = _ at hlap'
  rw [hlap, hlap', hsame.outcome]
  cases hrun : w.runAt V body p.course with
  | error e => exact .left (World.again?_of_runAt hsplit.accepts hrun _)
  | ok s' =>
    obtain ⟨op, halike, hop⟩ := hends s' hrun
    cases (List.append_inj' hop rfl).2
    show World.Together _ _ (.error (World.leave V last s')) (.error (World.leave V last' s'))
    rw [halike.leave]
    cases hagain : (World.leave V last s').again? t.token with
    | none => exact .left hagain
    | some q =>
      refine .onward hagain hagain ⟨rfl, (fits_of_again hsplit hV hagain).2, fun hc => ?_⟩
      refine (hhonest hc).2 _ q ?_ hagain
      rw [hlap, hrun]
      rfl

/-- The preamble runs in front of its jump into the loop. -/
theorem Opened.lap {l : Loop} (h : Opened t front l)
    (hV : ∀ b ∈ t.inputs, Env.enter t.inputs p.values b = V b)
    (he : w.Explains V front p.course) :
    w.lap t.inputs (front ++ [.jumpTo t.token (l.inputs.map .box)]) p =
      w.runAt V front p.course >>= fun s =>
        .error (World.leave V (.jumpTo t.token (l.inputs.map .box)) s) :=
  World.run_final h.begins
    (fits_of_jump _ rfl (fun _ => ⟨rfl, rfl⟩) rfl fun b hb => by
      obtain ⟨_, hc, hcb⟩ := List.mem_map.1 hb
      cases hcb
      exact h.inputs hc) rfl hV he

/-- Where the trace is before an iteration and where the loop is: one environment brought the
recorded list to its end, the trace was handed what its jump reads there, and the loop holds
in its inputs what they hold there. -/
structure Aligned (w : World) (c : Config) (t : Trace) (body : List Operation) (jump : Operation)
    (inputs : List Box) (n : Nat) (p p' : Point) : Prop where
  course : p.course = p'.course
  honest : c.rewrite = true → w.HonestLaps t n p
  environment : ∃ V : Env, Completes w c body V ∧ p.values = jump.args.map V.value ∧
    p'.values = inputs.map V

/-- From points that are aligned both lists go once round to points that are. -/
theorem Closed.together (h : Closed c T t.inputs rest body jump o way o')
    (htoken : o.token = t.token) (hjump : Closes t.token t.inputs body jump)
    (hvirtual : c.virtualize = false) (hg : o.values.Grounded o.known)
    (hpool : o.pool.nextBox = t.pool.nextBox) (hT : t.frameTable.Extends T)
    (hknows : ∀ W, Completes w c body W → ∃ T', t.frameTable.Extends T' ∧ Knows w W T' o)
    (ht : t.Recorded) (hsplit : t.Split body jump) {n : Nat} {q q' : Point}
    (hR : Aligned w c t body jump (o'.loop t.name).inputs (n + 1) q q') :
    World.Together t.token (Aligned w c t body jump (o'.loop t.name).inputs n)
      (w.lap t.inputs t.ops q) (w.lap (o'.loop t.name).inputs (o'.loop t.name).ops q') := by
  obtain ⟨hcourse, hhonest, V, hV, hq, hq'⟩ := hR
  have hsplit' := h.split t.name
  have hnodup : (o'.loop t.name).inputs.Nodup := hsplit'.nodup
  have hinputs : (o'.loop t.name).inputs = way.inputs := by
    obtain ⟨_, hends⟩ := h.ends
    rw [hends]
    rfl
  have hfits : q.Fits t.inputs := by
    have hkinds := List.forall₂_iff_get.1 hjump.kinds
    unfold Point.Fits
    rw [hq, List.map_map]
    refine List.ext_getElem (by simp [hkinds.1]) fun i hi hi' => ?_
    simp only [List.length_map] at hi hi'
    simp only [List.getElem_map, Function.comp_apply]
    exact (hV.kinds.value _).trans (hkinds.2 i hi hi')
  obtain ⟨V₁, hV₁, hagree, he, hat⟩ := exists_environment hsplit hfits hhonest
  have hlen : q.values.length = t.inputs.length := by
    rw [hq, List.length_map]
    exact hjump.kinds.length_eq
  have hvalues : t.inputs.map V₁ = jump.args.map V.value := by
    rw [← hq, ← Env.map_enter hsplit.nodup hlen]
    exact List.map_congr_left fun b hb => (hagree b hb).symm
  obtain ⟨W, hold, hmimics, hhands⟩ := h.mimics (htoken ▸ hjump) hvirtual hg
    (fun b hb => hpool ▸ hsplit.id_lt ht.drawn hb) ((hsplit.coming ht).mono hT)
    (fun op hop => ht.drawn.snapshot_in (by simp [hsplit.ops, hop])) hknows hV hV₁ hvalues he hat
  have hholds : ∀ b ∈ (o'.loop t.name).inputs,
      Env.enter (o'.loop t.name).inputs q'.values b = W b := fun b hb => by
    rw [hq', Env.enter_map hnodup V hb]
    exact (hold b (h.captured.working.built.table.subset
      ((h.opened htoken t.name).inputs hb))).symm
  have hlap := hsplit.lap hagree he
  have hlap' := hsplit'.lap hholds (hcourse ▸ hmimics.explains)
  change w.lap (o'.loop t.name).inputs (o'.loop t.name).ops q' = _ at hlap'
  rw [hlap, hlap', ← hcourse, hmimics.outcome]
  let last : Operation := {way.last with args := way.last.args ++ way.handed}
  have hlast : last.opcode = .jump ∧ last.token? = some t.token := htoken ▸ h.last
  refine World.together_of_jumps (fun e he => World.again?_of_runAt hsplit.accepts he _)
    fun s' hs' => ⟨_, ⟨last.args.map W.value, s'⟩,
      World.again?_leave hjump.opcode hjump.token? s',
      World.again?_leave hlast.1 hlast.2 s', rfl, fun hc => ?_, V₁,
      ⟨hV₁, q.course, s', he, hs', hat⟩, rfl, hinputs ▸ hhands s' hs'⟩
  refine (hhonest hc).2 _ _ ?_ (World.again?_leave hjump.opcode hjump.token? s')
  rw [hlap, hs']
  rfl

/-- The peeled loop does in each lap what was recorded, the preamble in the first. -/
theorem peeled_preserves {chain : Array Stage} {cursor : Nat}
    (hjump : Closes t.token t.inputs body jump) (hbody : Processed c.behind body (c.begin t) o)
    (hT : t.frameTable.Extends T)
    (h : Closed c T t.inputs rest body jump {o with chain, cursor} way o')
    (hvirtual : c.virtualize = false) (ht : t.Recorded) (hsplit : t.Split body jump) {n : Nat}
    (hp : p.Fits t.inputs) (hhonest : c.rewrite = true → w.HonestLaps t n p) :
    (w.runTrace t n p).map (·.course) = (w.runLoop (o'.loop t.name) n p).map (·.course) := by
  obtain ⟨T₁, -, hw, -⟩ := hbody.working (working_begin c ht) (hsplit.coming ht)
  have htoken : o.token = t.token := hbody.keeps.token
  have hopened := h.opened htoken t.name
  have hknows : ∀ W, Completes w c body W → ∃ T', t.frameTable.Extends T' ∧
      Knows w W T' {o with chain, cursor} := fun W hW => by
    obtain ⟨T', hT', hk⟩ := hW.knows hbody hvirtual ht hsplit
    exact ⟨T', hT', hk.placed chain cursor⟩
  unfold World.runLoop
  rw [hopened.preamble]
  have htoken' : (o'.loop t.name).token = t.token := hopened.token
  cases n with
  | zero => rfl
  | succ n =>
    show (w.laps t.token t.inputs t.ops (n + 1) p).map (·.course) =
      (w.around (o'.loop t.name).token t.inputs _ (w.laps (o'.loop t.name).token _ _ n) p).map
        (·.course)
    rw [htoken']
    -- The first time the preamble runs in place of the list that goes round.
    obtain ⟨V, hV, hagree, he, hat⟩ := exists_environment hsplit hp hhonest
    obtain ⟨new, hnew, hnewmimics, hnewknows⟩ := hbody.mirrors_begin hvirtual ht hsplit hV he hat
    have hmirrors : Mirrors w V t.frameTable p.course (w.runAt V body p.course) (c.begin t)
        {o with chain, cursor} := ⟨new, hnew, hnewmimics, fun s' hs' => by
      obtain ⟨T', hT', hk⟩ := hnewknows s' hs'
      exact ⟨T', hT', hk.placed chain cursor⟩⟩
    have hmimics := h.preamble hw.grounded rfl hmirrors
    have hlap := hsplit.lap hagree he
    have hlap' := hopened.lap hagree hmimics.explains
    have htogether : World.Together t.token (Aligned w c t body jump (o'.loop t.name).inputs n)
        (w.lap t.inputs t.ops p) (w.lap t.inputs (way.captured.out.toList ++
          [.jumpTo t.token ((o'.loop t.name).inputs.map .box)]) p) := by
      rw [hlap, hlap', hmimics.outcome]
      refine World.together_of_jumps (fun e he => World.again?_of_runAt hsplit.accepts he _)
        fun s' hs' => ⟨_, _, World.again?_leave hjump.opcode hjump.token? s',
          World.again?_leave rfl rfl s', rfl, fun hc => ?_, V, ⟨hV, p.course, s', he, hs', hat⟩,
          rfl, ?_⟩
      · refine (hhonest hc).2 _ _ ?_ (World.again?_leave hjump.opcode hjump.token? s')
        rw [hlap, hs']
        rfl
      · show ((o'.loop t.name).inputs.map Operand.box).map V.value = _
        rw [List.map_map]
        rfl
    exact htogether.around fun q q' hR => World.laps_together (fun _ _ h => h.course)
      (fun _ _ _ => h.together htoken hjump hvirtual hw.grounded hbody.keeps.nextBox hT hknows ht
        hsplit) hR

end Optimizer

namespace Config
open Optimizer

variable {c : Config} {t : Trace} {w : World} {p : Point}

/-- Without allocation removal a loop does in any number of iterations what the trace does:
it takes the same course, and leaves at the same guard or end with the same values, as long
as the guards that the trace comes to are honest. -/
theorem laps_preserved {l : Loop} (ht : t.Recorded) (hvirtual : c.virtualize = false)
    (h : c.optimizeLoop t = .ok l) (hp : p.Fits t.inputs) (n : Nat)
    (hhonest : c.rewrite = true → w.HonestLaps t n p) :
    (w.runTrace t n p).map (·.course) = (w.runLoop l n p).map (·.course) := by
  rcases optimizeLoop_cases c ht with ⟨body, last, o, hsplit, ho, hok⟩ | ⟨e, he, _⟩
  · rw [h] at hok
    cases hok
    cases ho with
    | straight hbody hlast _ =>
      exact straight_preserves hbody hlast hvirtual ht hsplit hp hhonest
    | peeled _ hjump hbody hT hclosed =>
      exact peeled_preserves hjump hbody hT hclosed hvirtual ht hsplit hp hhonest
  · rw [h] at he
    cases he

/-- In this world nothing is raised, whatever is asked for is zero, and every value is its own
class. -/
def idle : World where
  compute _ _ k _ := .zero k
  answer _ k := .zero k
  raises _ := false
  classOf a := a
  kind_compute _ _ k _ := Const.kind_zero k
  kind_answer _ k := Const.kind_zero k

/-- The guard of the counting loop tests the outcome of a comparison. -/
theorem counting_honest : idle.HonestLaps .counting 2 ⟨[.int 99], ⟨[], false⟩⟩ := by
  have hrun : ∀ v : Int64, idle.HonestRun false Trace.counting.ops
      (.enter Trace.counting.inputs [.int v]) ⟨[], false⟩ := by
    intro v
    refine ⟨⟨nofun, nofun, nofun⟩, fun _ hs => ?_⟩
    cases hs
    refine ⟨⟨?_, nofun, nofun⟩, fun _ _ => ?_⟩
    · rintro - _ _ ⟨⟩ - htrue
      by_cases h : v < 100
      · show Const.ofBool (decide (v < 100)) = _
        rw [decide_eq_true h]
      · exact absurd htrue (by
          show ¬ (Const.ofBool (decide (v < 100))).isTrue = true
          rw [decide_eq_false h]
          decide)
    · refine ⟨⟨nofun, nofun, nofun⟩, fun _ hs => ?_⟩
      cases hs
      exact ⟨⟨nofun, nofun, nofun⟩, nofun⟩
  refine ⟨hrun 99, ?_⟩
  rintro _ _ ⟨⟩ ⟨⟩
  refine ⟨hrun 100, ?_⟩
  rintro _ _ ⟨⟩ ⟨⟩

/-- Counting from 99 goes round once more and then leaves at the guard, in the trace and in the
loop. -/
theorem counting_preserved : ∃ l e, optimizeLoop { virtualize := false } .counting = .ok l ∧
    l.isPeeled = true ∧ e.opcode = .guardTrue ∧
    (idle.runTrace .counting 2 ⟨[.int 99], ⟨[], false⟩⟩).map (·.course) = .error e ∧
    (idle.runLoop l 2 ⟨[.int 99], ⟨[], false⟩⟩).map (·.course) = .error e := by
  obtain ⟨l, hl, hpeeled⟩ :
      ∃ l, optimizeLoop { virtualize := false } .counting = .ok l ∧ l.isPeeled = true :=
    exists_ok_of_any (by decide +kernel)
  have hsame := laps_preserved (w := idle) (p := ⟨[.int 99], ⟨[], false⟩⟩) Trace.counting_recorded
    rfl hl rfl 2 fun _ => counting_honest
  exact ⟨l, _, hl, hpeeled, rfl, rfl, hsame.symm⟩

/-- A check at the head of the list is dropped, and an exception that a call raised in the
iteration before passes. -/
theorem exception_passes_unchecked : ¬ ∀ (c : Config) (t : Trace) (l : Loop) (w : World)
    (p : Point) (n : Nat), t.Recorded → c.virtualize = false → c.optimizeLoop t = .ok l →
    p.Fits t.inputs → p.course.pending = false →
    (w.runTrace t n p).map (·.course) = (w.runLoop l n p).map (·.course) := by
  intro h
  let i : Box := ⟨0, .int⟩
  obtain ⟨l, hl, hdropped⟩ :
      ∃ l, optimizeLoop { peel := false, virtualize := false } checkedNextTime = .ok l ∧
        decide (l.preamble = none ∧ l.token = ⟨0⟩ ∧ l.inputs = [i] ∧
          l.ops = [⟨.call, [.box i], none, none, none⟩, .jumpTo ⟨0⟩ [.box i]]) = true :=
    exists_ok_of_any (by decide +kernel)
  obtain ⟨hnone, htoken, hinputs, hops⟩ := of_decide_eq_true hdropped
  have hsame := h _ _ l {idle with raises := fun _ => true} ⟨[.int 0], ⟨[], false⟩⟩ 2
    (by decide +kernel) rfl hl rfl rfl
  unfold World.runLoop at hsame
  rw [hnone, htoken, hinputs, hops] at hsame
  cases hsame

end Config
end TracePeel
