import TracePeel.Proofs.Copying
import TracePeel.Proofs.Peeling.Drawing
import TracePeel.Proofs.Portions
import TracePeel.Proofs.Resuming

/-! No effect is lost.

Every operation of a list that was written comes from an operation of the trace, in the
order of the trace, or it belongs to an object that was forced, in the same way through the
trace that allocated it. Only guards, pure operations and accesses to objects held back may have
gone missing, so calls and merge points are all there, once each. `Front` and `Rear` are the
invariants of the two ways, and `exists_told` says so of every loop. -/
namespace TracePeel

namespace Optimizer
variable {op : Operation}

/-! ### The first way -/

section
variable {c : Config} {t : Trace}

/-- What was written up to an operation, as long as none of them closed the loop. -/
structure Front (c : Config) (t : Trace) (k : Nat) : Prop where
  sealed : (c.after t k).Sealed (fun _ => False)
    (· ∈ t.inputs ++ TracePeel.results (t.ops.take k)) (t.ops.take k)
  unheld : c.virtualize = false → (c.after t k).values.Unheld
  told : ∃ portions, Told c (c.after t) (t.ops.take k) portions ∧
    portions.flatMap (·.ops) = (c.after t k).out.toList

theorem front_begin (c : Config) (t : Trace) : Front c t 0 :=
  ⟨sealed_begin c t _, fun _ => unheld_begin c t, [], .nil, rfl⟩

/-- What the next operation produces was not met. -/
theorem Front.unmet {k : Nat} (h : Front c t k) (ht : t.Drawn) (hop : t.ops[k]? = some op) :
    Unmet op (c.after t k) := by
  intro r hr
  have hfits := Trace.fits_at ht.verified hop
  cases hid : (c.after t k).values.index.get? (.box r) with
  | none => rfl
  | some id => exact absurd (h.sealed.values.seen r id hid) (hfits.produced r hr).2.2

theorem Front.step {k : Nat} (h : Front c t k) (hbefore : Before c t k) (ht : t.Drawn)
    (hop : t.ops[k]? = some op) (hopen : c.peel = true → op.closes t.token = false)
    (hrun : (sendTo 0 op).run.run (c.after t k) = (.ok (), c.after t (k + 1))) :
    Front c t (k + 1) := by
  have hlt := (List.getElem?_eq_some_iff.1 hop).1
  have hlen : (t.ops.take k).length = k := List.length_take_of_le (Nat.le_of_lt hlt)
  have hsucc : t.ops.take (k + 1) = t.ops.take k ++ [op] := by rw [List.take_add_one, hop]; rfl
  have hfits := Trace.fits_at ht.verified hop
  have hs : Handled c.behind op (c.after t k) (c.after t (k + 1)) :=
    (sendTo_ends (C := fun _ => True) (fun _ _ _ => trivial) hbefore.ready
      hbefore.intact.values.inRange (hbefore.token ▸ hopen)).of_run hrun
  have hunmet := h.unmet ht hop
  have hseen : ∀ b, b ∈ t.inputs ++ TracePeel.results (t.ops.take k) →
      b ∈ t.inputs ++ TracePeel.results (t.ops.take (k + 1)) := by
    intro b hb
    rw [hsucc, results_append, ← List.append_assoc]
    exact List.mem_append_left _ hb
  have hsub : t.ops.take k ⊆ t.ops.take (k + 1) := hsucc ▸ List.subset_append_left _ _
  have hsealed := h.sealed.mono hseen hsub
  have hexpects : Expects (fun _ => False) (· ∈ t.inputs ++ TracePeel.results (t.ops.take (k + 1)))
      (t.ops.take (k + 1)) op (c.after t k) := by
    refine ⟨fun _ => ?_, fun _ _ _ _ => id, fun b hb => hseen b (hfits.reads b hb), fun r hr => ?_,
      fun r hr hmem => ?_, fun _ _ _ _ => id, fun r hr => .inl (hunmet r hr)⟩
    · simp [hsucc]
    · simp [hsucc, hr]
    · exact (hfits.produced r hr).2.2 (hfits.reads r (by simp [Operation.usedArgs, hmem]))
  obtain ⟨hstays, hout⟩ := hs.gathers hbefore.intact hsealed hexpects hunmet
  obtain ⟨portions, htold, hlist⟩ := h.told
  refine ⟨hstays.sealed, fun hc => hs.unheld hc hbefore.intact (h.unheld hc), ?_⟩
  rw [hsucc] at hout ⊢
  exact htold.step hlist (by rw [hlen]) h.unheld hout

theorem front_of_run (ht : t.Drawn) {m : Nat} {o : Optimizer}
    (hopen : ∀ op ∈ t.ops.take m, c.peel = true → op.closes t.token = false)
    (hrun : ((t.ops.take m).forM (sendTo 0)).run.run (c.begin t) = (.ok (), o)) :
    ∀ k ≤ m, k ≤ t.ops.length → Front c t k := fun k hkm hk =>
  (before_along ht hopen hrun (front_begin c t)
    (fun _ _ hbefore hfront hop hclose hsent => hfront.step hbefore ht hop hclose hsent)
    k hkm hk).2

end

/-! ### The second way -/

section
variable {c : Config} {t : Trace} {body : List Operation} {jump : Operation}
open Peel

/-- What was gone through once more, up to the `k`-th operation. -/
structure Rear (c : Config) (stale : ValueId → Prop) (states : Nat → Optimizer) (k : Nat)
    (n : Peeling) (casts : List Operation) : Prop where
  sealed : (states k).Sealed stale (·.id < (states k).pool.nextBox) casts
  begun : (states 0).out = #[]
  kept : ∀ id, stale id → (states k).values.slot id = (states 0).values.slot id
  names : Naming stale (·.id < (states k).pool.nextBox) n (states k)
  unheld : c.virtualize = false → (states k).values.Unheld
  told : ∃ portions, Told c states casts portions ∧
    portions.flatMap (·.ops) = (states k).out.toList

/-- One recorded operation is gone through once more. -/
theorem Rear.step {stale : ValueId → Prop} {first k : Nat} {T : FrameTable}
    {states : Nat → Optimizer} {n : Peeling} {casts : List Operation}
    {kept : List (Nat × Operation)} (h : Rear c stale states k n casts)
    (haround : Around c t first states k T n casts kept) (ht : t.Drawn)
    (hsplit : t.Split body jump) (hfirst : t.pool.nextFrame ≤ first) {op : Operation}
    (hop : body[k]? = some op) {loopInputs : List Box}
    (hrun : (retrace c loopInputs op).run.run (states k) = (.ok (), states (k + 1))) :
    Rear c stale states (k + 1) (recast n (states k).pool op).2.1
      (casts ++ [(recast n (states k).pool op).1]) := by
  have hlt := (List.getElem?_eq_some_iff.1 hop).1
  have hmem : op ∈ t.ops := by simp [hsplit.ops, List.mem_of_getElem? hop]
  have htake : t.ops.take k = body.take k := by
    rw [hsplit.ops, List.take_append_of_le_length (Nat.le_of_lt hlt)]
  obtain ⟨hfits, hordinary⟩ := hsplit.accepts.fits_take hop
  rw [← htake] at hfits
  have hin := ht.snapshot_in hmem
  obtain ⟨T₁, -, -, -, hlater, htakes⟩ := haround.casting.recast hfits (ht.plain op hmem)
    (hin.mono haround.frames) fun frame hf => Nat.lt_of_lt_of_le (hin.id_lt ht.below hf) hfirst
  obtain ⟨events, hs⟩ := (retrace_ends (c := c) (map_pass_stagesBehind c)
    haround.at_ haround.intact haround.casting.named hfits hordinary).of_run hrun
  have hkeeps := hs.keeps
  have hlen : casts.length = k := by
    rw [← haround.recopied.cast.length_eq, List.length_take_of_le]
    simp only [hsplit.ops, List.length_append]
    omega
  set n₁ := (recast n (states k).pool op).2.1
  set p₁ := (recast n (states k).pool op).2.2
  set op' := (recast n (states k).pool op).1
  set o₁ : Optimizer := {(states k).noting (stagesBehind c) n₁ p₁ with events} with ho₁
  have hbox : (states (k + 1)).pool.nextBox = p₁.nextBox := hkeeps.nextBox
  have hgrows : (states k).pool.nextBox ≤ p₁.nextBox := by
    rw [htakes.nextBox]
    exact Nat.le_add_right _ _
  have hseen : ∀ b : Box, b.id < (states k).pool.nextBox → b.id < p₁.nextBox :=
    fun b hb => Nat.lt_of_lt_of_le hb hgrows
  have hresult : ∀ r, op'.result = some r → r.id = (states k).pool.nextBox ∧
      r.id < p₁.nextBox := by
    intro r hr
    rw [htakes.result] at hr
    obtain ⟨r₀, hr₀, rfl⟩ := Option.map_eq_some_iff.1 hr
    refine ⟨rfl, ?_⟩
    rw [htakes.nextBox, hr₀]
    exact Nat.lt_succ_self _
  have hsealed : o₁.Sealed stale (·.id < p₁.nextBox) (casts ++ [op']) :=
    Sealed.mono (o := o₁) ⟨h.sealed.values, h.sealed.known⟩ hseen (List.subset_append_left _ _)
  -- What the operation reads are names of boxes, and what it produces is new.
  have husable : ∀ a' ∈ op'.usedArgs,
      (states k).Usable stale (·.id < (states k).pool.nextBox) a' := by
    intro a' ha'
    obtain ⟨a, -, hnext⟩ := exists_right_of_mem htakes.reads.usedArgs.flip ha'
    cases a with
    | const c =>
      cases hnext
      refine ⟨h.sealed.values.live_const c, ?_⟩
      rintro _ ⟨⟩
    | box b => exact h.names b a' hnext
  have hunmet : Unmet op' o₁ := by
    intro r hr
    cases hid : (states k).values.index.get? (.box r) with
    | none => exact hid
    | some id =>
      have hlt : r.id < (states k).pool.nextBox := h.sealed.values.seen r id hid
      rw [(hresult r hr).1] at hlt
      exact absurd hlt (Nat.lt_irrefl _)
  have hexpects : Expects stale (·.id < p₁.nextBox) (casts ++ [op']) op' o₁ := by
    refine ⟨fun _ => by simp, fun a ha => (husable a ha).1,
      fun b hb => hseen b ((husable _ hb).2 b rfl), fun r hr => (hresult r hr).2,
      fun r hr hmem => ?_, fun r hr id hid => ?_, fun r hr => .inl (hunmet r hr)⟩
    · have hlt : r.id < (states k).pool.nextBox :=
        (husable _ (by simp [Operation.usedArgs, hmem])).2 r rfl
      rw [(hresult r hr).1] at hlt
      exact Nat.lt_irrefl _ hlt
    · rw [hunmet r hr] at hid
      cases hid
  have hi₁ : o₁.Intact := ⟨haround.intact.values, haround.intact.known⟩
  obtain ⟨hstays, hout⟩ := hs.gathers hi₁ hsealed hexpects hunmet
  obtain ⟨portions, htold, hlist⟩ := h.told
  refine ⟨?_, h.begun, fun id hid => (hstays.kept id hid).trans (h.kept id hid), fun b a ha => ?_,
    fun hc => hs.unheld hc hi₁ (h.unheld hc),
    htold.step (o := o₁) hlist (by rw [hlen]; rfl) h.unheld hout⟩
  · rw [hbox]
    exact hstays.sealed
  · rw [hbox]
    rcases next_recast (a := .box b) ha with ha | ⟨r, hr, -, rfl⟩
    · have husable := h.names b a ha
      exact hstays.usable ⟨husable.1, fun b' hb' => hseen b' (husable.2 b' hb')⟩
    · have hr' : op'.result = some ⟨(states k).pool.nextBox, r.kind⟩ := by
        rw [htakes.result, hr]
        rfl
      refine hstays.usable ⟨hexpects.produces _ hr', ?_⟩
      rintro _ ⟨⟩
      exact (hresult _ hr').2

/-- Where nothing is held back, nothing is when the second way begins. -/
theorem Traversed.unheld_entered {o o' : Optimizer} {w : Passage}
    (h : Traversed c (stagesBehind c) body jump o w o') (hu : o.values.Unheld) :
    w.entered.values.Unheld := by
  obtain ⟨events, hmet⟩ := h.met
  exact h.entered.unheld (hmet.grown.unheld (h.captured.unheld hu)).markFromStart

/-- Before any operation is gone through once more. -/
theorem rear_begin {o o' : Optimizer} {w : Passage} {states : Nat → Optimizer}
    {source : List Operation} {seen : Box → Prop}
    (h : Traversed c (stagesBehind c) body jump o w o') (hi : o.Intact)
    {notes : Peeling} (hat : At (stagesBehind c) notes o)
    (hsealed : o.Sealed (fun _ => False) seen source) (hnodup : o.inputs.Nodup)
    (hseen : ∀ b, seen b → b.id < o.pool.nextBox)
    (hargs : ∀ b, .box b ∈ jump.args → b.id < o.pool.nextBox)
    (hmet : ∀ b ∈ o.inputs ++ TracePeel.results w.captured.out.toList, b.id < o.pool.nextBox)
    (hu : c.virtualize = false → o.values.Unheld) (hstart : states 0 = w.entered) :
    Rear c w.entered.values.Holding states 0 (startingNotes o.inputs jump.args) [] := by
  obtain ⟨loopInputs, hturn, -⟩ := h.turned
  have hbegun : Begun (·.id < o.pool.nextBox) jump.args {o with out := #[]} w.entered :=
    (turn_begun hat (hsealed.mono hseen (List.Subset.refl source)) hi hargs
      (by rw [h.capturing]; exact hmet)).of_run hturn
  have hpool : w.entered.pool = o.pool := hbegun.pool
  refine ⟨?_, ?_, fun _ _ => rfl, fun b a ha => ?_, fun hc => ?_, [], .nil, ?_⟩
  · rw [hstart, hpool]
    exact hbegun.sealed
  · rw [hstart, show w.entered.out = #[] from hbegun.out]
  · rw [hstart, hpool]
    exact hbegun.usable a (List.of_mem_zip ((next_inputs hnodup h.length).1 ha)).2
  · rw [hstart]
    exact h.unheld_entered (hu hc)
  · rw [hstart, show w.entered.out = #[] from hbegun.out]
    rfl

/-- When the jump is gone through once more, nothing is written but what is forced for it, and the
jump behind. -/
theorem replayJump_draws {o : Optimizer} {stale : ValueId → Prop} {seen : Box → Prop}
    {source : List Operation} {n : Peeling} {loopInputs : List Box} (hi : o.Intact)
    (hat : At (stagesBehind c) n o) (hsealed : o.Sealed stale seen source)
    (hnames : Naming stale seen n o) (hreads : ∀ b, .box b ∈ jump.usedArgs → n.next.get? b ≠ none)
    (hclose : jump.closes o.token = true) (hnone : jump.result = none)
    (hplain : jump.failArgs = none ∧ jump.guard? = none) :
    Ends (fun _ => True) (replay (send c.behind.length) 0 loopInputs [jump]) o fun _ o' =>
      Stays stale seen source o o' ∧ o'.chain = o.chain ∧ ∃ ids o₁ last,
        Gathers source o ids o₁ ∧ o'.out = o₁.out.push last ∧ o'.values = o₁.values := by
  refine (retrace_jump_ends (c := c) (map_pass_stagesBehind c) hat hi hreads hclose
    hnone (jumpArgs_draws loopInputs hat hsealed hnames)).mono ?_
  rintro _ o' ⟨asked, args, hgrown, ⟨hdraws, husable⟩, events, hs⟩
  have hopcode := (Operation.closes_iff.1 hclose).1
  set sent : Operation := {jump with args, failArgs := (recast n o.pool jump).1.failArgs}
    with hsent
  have hused : sent.usedArgs = args := by
    have hfail : sent.failArgs = none := by
      show jump.failArgs.map _ = none
      rw [hplain.1]
      rfl
    show args ++ sent.failArgs.getD [] ++ jump.snapshot.operands = args
    rw [hfail, Operation.snapshot_of_guard?_eq_none hplain.2]
    simp [Snapshot.operands]
  have hasked := hgrown.intact hi
  have hexpects : Expects stale seen source sent {asked with events} := by
    refine ⟨fun hf => ?_, fun a ha => ?_, fun b hb => ?_, ?_, ?_, ?_, ?_⟩
    · simp [Operation.isForcing, hsent, hopcode] at hf
    · exact (husable a (hused ▸ ha)).1
    · exact (husable _ (hused ▸ hb)).2 b rfl
    all_goals
      intro r hr
      rw [show sent.result = none from hnone] at hr
      cases hr
  obtain ⟨hstays, hw⟩ := hs.gathers ⟨hasked.values, hasked.known⟩
    ⟨hdraws.sealed.values, hdraws.sealed.known⟩ hexpects
    (fun r hr => by rw [show sent.result = none from hnone] at hr; cases hr)
  obtain ⟨hvanish, -⟩ | ⟨ids₂, o₂, hgathers₂, hwritten, hvalues⟩ := hw
  · rw [show sent.opcode = .jump from hopcode] at hvanish
    cases hvanish
  have hvalues := hvalues (Operation.isGuard_of_jump hopcode)
  obtain ⟨ids₁, hreleases⟩ := hgrown.releases hi
  have hgathers₁ : Gathers source o ids₁ {asked with events} :=
    (hreleases.gathers hdraws.out).congr rfl rfl
  refine ⟨hdraws.toStays.trans ⟨hstays.sealed, hstays.live, hstays.kept⟩,
    hs.keeps.chain.trans hdraws.chain, ids₁ ++ ids₂, o₂, _, hgathers₁.trans hgathers₂ hi, hwritten,
    hvalues⟩

/-- Behind the operations stands the jump, and what was forced for it. Stale slots stay as they
are. -/
theorem Traversed.listed {o o' : Optimizer} {w : Passage} {stale : ValueId → Prop}
    {seen : Box → Prop} {source : List Operation} {n : Peeling}
    (h : Traversed c (stagesBehind c) body jump o w o') (hi : w.replayed.Intact)
    (hat : At (stagesBehind c) n w.replayed) (hsealed : w.replayed.Sealed stale seen source)
    (hnames : Naming stale seen n w.replayed)
    (hreads : ∀ b, .box b ∈ jump.usedArgs → n.next.get? b ≠ none)
    (hclose : jump.closes w.replayed.token = true) (hnone : jump.result = none)
    (hplain : jump.failArgs = none ∧ jump.guard? = none) :
    (∀ id, stale id → o'.values.slot id = w.replayed.values.slot id) ∧
    ∃ ids last, Gathers source w.replayed ids w.searched ∧ last.opcode = .jump ∧
      o'.out = w.searched.out.push last := by
  obtain ⟨loopInputs, o₂, hjump, hfix, hsame⟩ := h.finishing
  obtain ⟨stats, hends⟩ := h.ends
  obtain ⟨hstays, hchain, ids₁, o₁, written, hgathers₁, hwritten, hvalues⟩ :=
    (replayJump_draws hi hat hsealed hnames hreads hclose hnone hplain).of_run hjump
  obtain ⟨hfixed, out, last, forced, handed, hpush, -, hforced, hend⟩ :=
    (fixUp_draws loopInputs (hchain.trans hat) hstays.sealed (hnames.stays hstays)).of_run hfix
  obtain ⟨-, hout⟩ := Array.push_eq_push.1 (hwritten.symm.trans h.out)
  obtain ⟨-, rfl⟩ := Array.push_eq_push.1 (hpush.symm.trans h.out)
  -- What is forced for inputs that are added is forced behind what is for the jump.
  have hgathers : Gathers source w.replayed ids₁ {w.written with out := w.out} :=
    hgathers₁.congr hout.symm hvalues
  have hi₁ : Optimizer.Intact {w.written with out := w.out} := by
    have hasked := h.asked.intact hi
    obtain ⟨events, hs⟩ := h.handled
    have hi' : Optimizer.Intact {w.asked with events} := ⟨hasked.values, hasked.known⟩
    have hwritten := (settled_handled _ _ _ _ hi' hs).1
    exact ⟨hwritten.values, hwritten.known⟩
  obtain ⟨ids₂, hreleases⟩ := h.searched.releases hi₁
  have hsearched : w.searched.out.toList = w.out.toList ++ forced := by
    have hlist : o'.out.toList = o₂.out.toList := by rw [hsame]
    rw [hends, hend] at hlist
    exact (List.append_inj' (Array.toList_push.symm.trans hlist) rfl).1
  have hkept := (hstays.trans hfixed).kept
  refine ⟨fun id hid => ?_, ids₁ ++ ids₂, {w.last with args := w.last.args ++ w.handed},
    hgathers.trans (hreleases.gathers ⟨forced, hsearched, hforced⟩) hi, h.last,
    by rw [hends]⟩
  rw [show o'.values = o₂.values by rw [hsame]]
  exact hkept id hid

namespace RanTwice
variable {o o' : Optimizer} {w : Passage} (h : RanTwice c t body jump o w o')
include h

/-- What is known where the jump comes that closes the loop. -/
theorem front (ht : t.Drawn) :
    o.Sealed (fun _ => False) (· ∈ t.inputs ++ TracePeel.results body) body ∧
    (c.virtualize = false → o.values.Unheld) ∧
    ∃ portions, Told c (c.after t) body portions ∧ portions.flatMap (·.ops) = o.out.toList := by
  have hfront := front_of_run ht h.open_ (by rw [h.take]; exact h.run) _ (Nat.le_refl _)
    (by simp [h.split.ops])
  have hsealed := hfront.sealed
  have hu := hfront.unheld
  have htold := hfront.told
  rw [h.after] at hsealed hu htold
  rw [h.take] at hsealed htold
  exact ⟨hsealed, hu, htold⟩

/-- The preamble ends behind what was forced for the jump. -/
theorem told_front (ht : t.Drawn) : ∃ portions forced, Told c (c.after t) body portions ∧
    Supplies c body o.values forced ∧
      w.captured.out.toList = portions.flatMap (·.ops) ++ forced := by
  obtain ⟨hsealed, hu, portions, htold, hlist⟩ := h.front ht
  have hi : Optimizer.Intact {o with
      chain := (⟨none, { recorded := t.ops }⟩ :: stagesBehind c).toArray, cursor := 0} :=
    ⟨h.intact.values, h.intact.known⟩
  have hsealed' : Optimizer.Sealed (fun _ => False) (· ∈ t.inputs ++ TracePeel.results body) body
      {o with chain := (⟨none, { recorded := t.ops }⟩ :: stagesBehind c).toArray, cursor := 0} :=
    ⟨hsealed.values, hsealed.known⟩
  have hargs : ∀ b, .box b ∈ jump.args → b ∈ t.inputs ++ TracePeel.results body := fun b hb =>
    h.split.fits.reads b (by simp [Operation.usedArgs, hb])
  have hpreamble := Turning.preamble (capture_turning hsealed' hi hargs)
  rw [h.traversed.capturing] at hpreamble
  obtain ⟨ids, hreleases⟩ := h.traversed.captured.releases hi
  refine ⟨portions, _, htold, (hreleases.gathers hpreamble).supplies hu, ?_⟩
  rw [hlist]
  exact hreleases.out

/-- Whenever an operation is gone through once more, both invariants hold. -/
theorem exists_rear (ht : t.Drawn) : ∀ k ≤ body.length, ∃ T n casts kept,
    Around c t w.captured.pool.nextFrame (c.around t) k T n casts kept ∧
      Rear c w.entered.values.Holding (c.around t) k n casts := by
  obtain ⟨T, _, hT, hsinking, hfirst⟩ := h.sinking ht
  refine h.along ht hT hsinking.sound.below hfirst ?_ ?_
  · have hbox : o.pool.nextBox = t.pool.nextBox := h.sent.keeps.nextBox
    have hinputs : o.inputs = t.inputs := h.sent.keeps.inputs
    obtain ⟨hsealed, hu, -⟩ := h.front ht
    obtain ⟨portions, forced, htold, hforced, hlist⟩ := h.told_front ht
    have hids : ∀ b ∈ t.inputs ++ TracePeel.results body, b.id < o.pool.nextBox :=
      fun b hb => hbox ▸ h.split.id_lt ht hb
    have hmet : ∀ b ∈ TracePeel.results w.captured.out.toList, b ∈ TracePeel.results body := by
      intro b hb
      rw [hlist, results_append, List.mem_append] at hb
      rcases hb with hb | hb
      · exact htold.results hb
      · exact hforced.results_subset hb
    rw [← hinputs]
    refine rear_begin (o := {o with
        chain := (⟨none, { recorded := t.ops }⟩ :: stagesBehind c).toArray, cursor := 0})
      h.traversed ⟨h.intact.values, h.intact.known⟩ rfl ⟨hsealed.values, hsealed.known⟩
      (hinputs ▸ h.split.nodup) hids (fun b hb => ?_) (fun b hb => ?_) hu h.around_zero
    · exact hids b (h.split.fits.reads b (by simp [Operation.usedArgs, hb]))
    · rcases List.mem_append.1 hb with hb | hb
      · exact hids b (List.mem_append_left _ (hinputs ▸ hb))
      · exact hids b (List.mem_append_right _ (hmet b hb))
  · intro k T n casts kept op loopInputs haround hrear hop hrun
    exact hrear.step haround ht h.split hfirst hop hrun

/-- The list that goes round ends behind what was forced for its jump, and the objects which the
preamble left behind are as they were. -/
theorem told_rear (ht : t.Drawn) {first : Nat} {T : FrameTable} {n : Peeling}
    {casts : List Operation} {kept : List (Nat × Operation)}
    (haround : Around c t first (c.around t) body.length T n casts kept)
    (hrear : Rear c w.entered.values.Holding (c.around t) body.length n casts) :
    (∀ id, w.entered.values.Holding id → o'.values.slot id = w.entered.values.slot id) ∧
    ∃ portions forced last, Told c (c.around t) casts portions ∧
      Supplies c casts w.replayed.values forced ∧ last.opcode = .jump ∧
      o'.out.toList = portions.flatMap (·.ops) ++ forced ++ [last] := by
  have hat := haround.at_
  have hnamed := haround.casting.named
  have hi := haround.intact
  have hsealed := hrear.sealed
  have hnames := hrear.names
  have hu := hrear.unheld
  have hstale := hrear.kept
  obtain ⟨portions, htold, hlist⟩ := hrear.told
  rw [h.take] at hnamed
  rw [h.around_length] at hat hi hsealed hnames hu hlist hstale
  rw [h.around_zero] at hstale
  have htoken : w.replayed.token = t.token := h.traversed.token.1.trans h.sent.keeps.token
  have hplain := ht.plain jump (by simp [h.split.ops])
    (Operation.isGuard_of_jump (Operation.closes_iff.1 h.closes).1)
  obtain ⟨hkept, ids, last, hgathers, hlast, hout⟩ := h.traversed.listed hi hat hsealed hnames
    (fun b hb => (hnamed b).2 (h.split.fits.reads b hb)) (htoken ▸ h.closes) h.split.result hplain
  refine ⟨fun id hid => (hkept id hid).trans (hstale id hid), portions, _, last, htold,
    hgathers.supplies hu, hlast, ?_⟩
  rw [hout, Array.toList_push, hgathers.out, hlist]

end RanTwice
end

/-- The two lists of a peeled loop, with what each operation comes from, and the operations
of the next iteration that the second list was written for. -/
structure Unrolled (c : Config) (t : Trace) (l : Loop) (p : Preamble) (front rear : List Portion)
    (casts : List Operation) : Prop where
  preamble : l.preamble = some p
  inputs : p.inputs = t.inputs
  opened : ∃ forced, Supplies c t.ops.dropLast (c.after t (t.ops.length - 1)).values forced ∧
    p.ops = front.flatMap (·.ops) ++ forced ++ [.jumpTo t.token (l.inputs.map .box)]
  firstTold : Told c (c.after t) t.ops.dropLast front
  renews : t.Renews (c.next t)
  mapped : List.Forall₂ (Operation.Mapped (c.next t)) t.ops.dropLast casts
  secondTold : Told c (c.around t) casts rear
  closed : ∃ forced last, Supplies c casts (c.around t (t.ops.length - 1)).values forced ∧
    last.opcode = .jump ∧ l.ops = rear.flatMap (·.ops) ++ forced ++ [last]
  fresh : ∀ r ∈ results casts, t.pool.nextBox ≤ r.id
  numbers : guardNumbers casts = List.range' t.pool.nextGuard (guardNumbers casts).length
  nextBox : t.pool.nextBox ≤ l.pool.nextBox
  nextGuard : l.pool.nextGuard = t.pool.nextGuard + (guardNumbers casts).length

/-- The list of a loop that was not peeled, with what each operation comes from. -/
structure Straight (c : Config) (t : Trace) (l : Loop) (portions : List Portion) : Prop where
  preamble : l.preamble = none
  ops : l.ops = portions.flatMap (·.ops)
  told : Told c (c.after t) t.ops portions
  inputs : l.inputs = t.inputs
  nextBox : l.pool.nextBox = t.pool.nextBox
  nextGuard : l.pool.nextGuard = t.pool.nextGuard

theorem exists_straight {c : Config} {t : Trace} {o : Optimizer} (h : RanOnce c t o)
    (ht : t.Drawn) (name : String) : ∃ portions, Straight c t (o.loop name) portions := by
  have hopen : ∀ op ∈ t.ops.take t.ops.length, c.peel = true → op.closes t.token = false :=
    fun op hop => h.open_ op (List.mem_of_mem_take hop)
  have hfront := front_of_run ht hopen (by rw [List.take_length]; exact h.run) _ (Nat.le_refl _)
    (Nat.le_refl _)
  obtain ⟨portions, htold, hlist⟩ := hfront.told
  rw [h.after] at hlist
  rw [List.take_length] at htold
  have hkeeps := h.sent.keeps
  exact ⟨portions, hkeeps.preamble, hlist.symm, htold, hkeeps.inputs, hkeeps.nextBox,
    hkeeps.nextGuard⟩

theorem exists_unrolled {c : Config} {t : Trace} {body : List Operation} {jump : Operation}
    {o o' : Optimizer} {w : Passage} (h : RanTwice c t body jump o w o') (ht : t.Drawn)
    (name : String) : ∃ p front rear casts, Unrolled c t (o'.loop name) p front rear casts := by
  obtain ⟨front, forced, hfront, hforced, hopened⟩ := h.told_front ht
  obtain ⟨T, n, casts, kept, haround, hrear⟩ := h.exists_rear ht _ (Nat.le_refl _)
  obtain ⟨-, rear, forced', last, hback, hforced', hlast, hclosed⟩ := h.told_rear ht haround hrear
  have hrecopied := haround.recopied
  obtain ⟨hbox, hguard⟩ := h.traversed.pool
  rw [h.take, h.around_length] at hrecopied
  have hlength : (guardNumbers casts).length = (guardNumbers body).length := by
    rw [hrecopied.numbers, List.length_range']
  refine ⟨_, front, rear, casts, h.preamble, rfl, ⟨forced, ?_, ?_⟩, ?_, h.renews haround, ?_,
    hback, ⟨forced', last, ?_, hlast, hclosed⟩, hrecopied.fresh.2, ?_, ?_, ?_⟩
  · rw [h.dropLast, h.length, h.after]
    exact hforced
  · show _ ++ [Operation.jumpTo t.token (o'.inputs.map .box)] = _
    rw [hopened]
    rfl
  · rw [h.dropLast]
    exact hfront
  · rw [h.dropLast, h.next_eq haround]
    exact hrecopied.mapped
  · rw [h.length, h.around_length]
    exact hforced'
  · rw [hlength]
    exact hrecopied.numbers
  · show t.pool.nextBox ≤ o'.pool.nextBox
    rw [hbox, hrecopied.nextBox]
    exact Nat.le_add_right _ _
  · show o'.pool.nextGuard = _
    rw [hguard, hrecopied.nextGuard, hlength]

end Optimizer

namespace Config
open Optimizer
variable {c : Config} {t : Trace} {l : Loop}

/-- Every loop is written in one of the two ways. -/
theorem exists_told (ht : t.Drawn) (h : c.optimizeLoop t = .ok l) :
    (∃ portions, Straight c t l portions) ∨
      ∃ p front rear casts, Unrolled c t l p front rear casts := by
  obtain ⟨hverify, o, hran, rfl⟩ := ran_of_ok h
  rcases hran.once_or_twice hverify with honce | ⟨body, jump, o, w, o', _, _, htwice, rfl⟩
  · exact .inl (exists_straight honce ht _)
  · exact .inr (exists_unrolled htwice ht _)

/-- Every call and merge point is kept, once and in its place, in the list of a loop and in its
preamble: it is written with what its operands stand for when it is sent, in the next
iteration where the list goes round. Of the other operations that may have an effect only
guards go missing. Besides the jump that ends it, a list holds operations of the trace in their
order, and in front of each of them and of the jump what forcing writes for objects that were
held back when it came. These were allocated in the same way through the trace, and without
allocation removal there are none. -/
theorem effects_kept (ht : t.Drawn) (h : c.optimizeLoop t = .ok l) :
    (l.preamble = none → ∃ list, l.ops = list.flatMap (·.ops) ∧
      Attributed (fun k => Operation.Restates .box (c.after t k).standsFor)
        (fun k => Supplies c t.ops (c.after t k).values) t.ops list) ∧
    ∀ p, l.preamble = some p → t.Renews (c.next t) ∧ ∃ front forced rear forced' casts last,
      p.ops = front.flatMap (·.ops) ++ forced ++ [.jumpTo t.token (l.inputs.map .box)] ∧
      Attributed (fun k => Operation.Restates .box (c.after t k).standsFor)
        (fun k => Supplies c t.ops.dropLast (c.after t k).values) t.ops.dropLast front ∧
      Supplies c t.ops.dropLast (c.after t (t.ops.length - 1)).values forced ∧
      l.ops = rear.flatMap (·.ops) ++ forced' ++ [last] ∧ last.opcode = .jump ∧
      List.Forall₂ (Operation.Mapped (c.next t)) t.ops.dropLast casts ∧
      Attributed (fun k => Operation.Restates (c.next t) fun b =>
          (c.next t b).mapBox (c.around t k).standsFor)
        (fun k => Supplies c casts (c.around t k).values) t.ops.dropLast rear ∧
      Supplies c casts (c.around t (t.ops.length - 1)).values forced' := by
  rcases exists_told ht h with ⟨list, hl⟩ | ⟨p, front, rear, casts, hl⟩
  · refine ⟨fun _ => ⟨list, hl.ops, hl.told.mono (fun _ _ _ _ hw => hw.1) fun _ _ hf => hf⟩,
      fun p hp => ?_⟩
    rw [hl.preamble] at hp
    cases hp
  · refine ⟨fun hnone => ?_, fun p' hp => ?_⟩
    · rw [hl.preamble] at hnone
      cases hnone
    rw [hl.preamble] at hp
    cases hp
    obtain ⟨forced, hforced, hopened⟩ := hl.opened
    obtain ⟨forced', last, hforced', hlast, hclosed⟩ := hl.closed
    exact ⟨hl.renews, front, forced, rear, forced', casts, last, hopened,
      hl.firstTold.mono (fun _ _ _ _ hw => hw.1) fun _ _ hf => hf, hforced, hclosed, hlast,
      hl.mapped, hl.secondTold.of_mapped hl.mapped, hforced'⟩

/-- Counts on and hands each number to a call, in an object. -/
def handing : Trace :=
  let (i, t) := (Trace.start "handing").input .int
  let t := t.append { opcode := .debugMergePoint, args := [.box i] }
  let (held, t) := t.recordWithDescr .new [] (some .ref) (.size "Cell")
  let object : Operand := held.elim (.const (.ref 0)) .box
  let t := t.append (.setField object "value" (.box i))
  let t := t.append { opcode := .call, args := [object] }
  let (less, t) := t.record .intLt [.box i, .const (.int 100)] .int
  let t := t.recordGuard .guardTrue [.box less] [.box i]
  let t := t.recordGuard .guardTrue [.box less] [.box i]
  let (next, t) := t.record .intAdd [.box i, .const (.int 1)] .int
  t.close [.box next]

/-- The call is kept, behind the object that is forced for it, and one of the guards is not. -/
theorem handing_kept : ∃ l p, optimizeLoop {} handing = .ok l ∧ l.preamble = some p ∧
    l.ops.countP (·.opcode == .new) = 1 ∧ l.ops.countP (·.isGuard) = 1 ∧
    ∃ rear forced casts last, l.ops = rear.flatMap (·.ops) ++ forced ++ [last] ∧
      Attributed (fun k => Operation.Restates (next {} handing) fun b =>
          (next {} handing b).mapBox (around {} handing k).standsFor)
        (fun k => Supplies {} casts (around {} handing k).values) handing.ops.dropLast rear := by
  obtain ⟨l, hl, hshape⟩ : ∃ l, optimizeLoop {} handing = .ok l ∧
      (l.isPeeled && l.ops.countP (·.opcode == .new) == 1 &&
        l.ops.countP (·.isGuard) == 1) = true :=
    exists_ok_of_any (by decide +kernel)
  simp only [Bool.and_eq_true, beq_iff_eq, Loop.isPeeled, Option.isSome_iff_exists] at hshape
  obtain ⟨⟨⟨p, hp⟩, hnew⟩, hguards⟩ := hshape
  obtain ⟨-, _, _, rear, forced, casts, last, -, -, -, hops, -, -, hrear, -⟩ :=
    (effects_kept (by decide : handing.Drawn) hl).2 p hp
  exact ⟨l, p, hl, hp, hnew, hguards, rear, forced, casts, last, hops, hrear⟩

end Config
end TracePeel
