import TracePeel.Proofs.Peeling.Entering
import TracePeel.Proofs.Running

/-! The recorded operations once more.

Every box is renamed to what it is in the next iteration. `Renamed` says what one
operation becomes, and `Replaying` is the invariant: every input and every result
walked so far has a name in the next iteration, of its kind and defined. -/
namespace TracePeel

/-- What an operand is in the next iteration. -/
def Next (next : Bindings Box Operand) : Operand → Operand → Prop
  | .const c, a' => a' = .const c
  | .box b, a' => next.get? b = some a'

theorem Next.mono {next : Bindings Box Operand} {r : Box} {k : Operand}
    (hr : next.get? r = none) {a a' : Operand} (h : Next next a a') :
    Next (next.set r k) a a' := by
  cases a with
  | const c => exact h
  | box b =>
    have hb : next.get? b = some a' := h
    have hne : r ≠ b := by
      rintro rfl
      rw [hr] at hb
      cases hb
    show (next.set r k).get? b = some a'
    rw [Bindings.get?_set, if_neg hne, hb]

namespace Optimizer
open Peel

/-- Every box that was walked has a name in the next iteration. -/
structure Renaming (T : FrameTable) (defined walked : List Box) (n : Peeling) (nextFrame : Nat) :
    Prop where
  next : ∀ b ∈ walked, ∃ a, n.next.get? b = some a ∧ a.kind = b.kind ∧
    ∀ c, a = .box c → c ∈ defined
  only : ∀ b, n.next.get? b ≠ none → b ∈ walked
  relinker : Relinker.Sound (Next n.next) T ⟨n.relinker, nextFrame⟩

theorem Renaming.congr {T : FrameTable} {defined walked walked' : List Box} {n : Peeling}
    {nextFrame : Nat} (hw : ∀ b, b ∈ walked ↔ b ∈ walked')
    (h : Renaming T defined walked n nextFrame) : Renaming T defined walked' n nextFrame :=
  ⟨fun b hb => h.next b ((hw b).2 hb), fun b hb => (hw b).1 (h.only b hb), h.relinker⟩

/-- An operation and what it is in the next iteration. -/
structure Renamed (T : FrameTable) (rest : List Stage) (n n' : Peeling) (op op' : Operation)
    (o o' : Optimizer) : Prop where
  renders : op.Renders (Next n.next) T op'
  unproduced : op.result = none → op'.result = none ∧ n'.next = n.next
  produced : ∀ r, op.result = some r → op'.result = some ⟨o.pool.nextBox, r.kind⟩ ∧
    n'.next = n.next.set r (.box ⟨o.pool.nextBox, r.kind⟩)
  same : o' = {o with chain := (⟨none, n'⟩ :: rest).toArray, pool := o'.pool}
  relinker : Relinker.Sound (Next n'.next) T ⟨n'.relinker, o'.pool.nextFrame⟩
  nextBox : o'.pool.nextBox = o.pool.nextBox + op.result.toList.length
  nextFrame : o.pool.nextFrame ≤ o'.pool.nextFrame
  nextGuard : o.pool.nextGuard ≤ o'.pool.nextGuard
  number : ∀ p ∈ op'.guard?, p.1 < o'.pool.nextGuard

theorem Renamed.at_ {T : FrameTable} {rest : List Stage} {n n' : Peeling} {op op' : Operation}
    {o o' : Optimizer} (h : Renamed T rest n n' op op' o o') : At rest n' o' := by
  rw [At, h.same]

section
variable {E : OptError → Prop} {rest : List Stage} {n : Peeling} {o : Optimizer}

theorem ends_nextOf (hat : At rest n o) {b : Box} {a : Operand} (h : n.next.get? b = some a)
    {Q : Operand → Optimizer → Prop} : Ends E (nextOf 0 b) o Q ↔ Q a o := by
  unfold nextOf
  rw [ends_bind, ends_lift, yields_notes hat, h]
  exact ends_pure

theorem ends_nextArgs (hat : At rest n o) {as as' : List Operand}
    (h : List.Forall₂ (Next n.next) as as') {Q : List Operand → Optimizer → Prop} :
    Ends E (as.mapM (nextArg 0)) o Q ↔ Q as' o := by
  induction h generalizing Q with
  | nil => exact Iff.rfl
  | @cons a a' as as' ha _ ih =>
    have harg : ∀ {Q : Operand → Optimizer → Prop}, Ends E (nextArg 0 a) o Q ↔ Q a' o := by
      intro Q
      cases a with
      | const c =>
        cases ha
        exact Iff.rfl
      | box b => exact ends_nextOf hat ha
    rw [List.mapM_cons, ends_bind, harg, ends_bind, ih]
    exact Iff.rfl

/-- The chain of a guard, rebuilt for the next iteration. -/
theorem renameSnapshot_yields (hat : At rest n o) {T : FrameTable} {s : Snapshot} (hs : s.In T)
    (hnext : ∀ b, .box b ∈ s.operands → ∃ a, n.next.get? b = some a)
    (hsound : Relinker.Sound (Next n.next) T ⟨n.relinker, o.pool.nextFrame⟩) :
    Yields (renameSnapshot 0 s) o fun s' o' => ∃ relinker nextFrame T', T.Extends T' ∧
      Relinker.Sound (Next n.next) T' ⟨relinker, nextFrame⟩ ∧ s'.In T' ∧
      Snapshot.Image (Next n.next) s s' ∧ o.pool.nextFrame ≤ nextFrame ∧
      o' = {o with
        chain := (⟨none, {n with relinker}⟩ :: rest).toArray
        pool := {o.pool with nextFrame}} := by
  have hstep : ∀ b, .box b ∈ s.operands →
      Next n.next (.box b) ((n.next.get? b).getD (.box b)) := by
    intro b hb
    obtain ⟨a, ha⟩ := hnext b hb
    rw [ha]
    exact ha
  obtain ⟨T', hT, hs', hin, himage⟩ := hsound.relink _ (fun _ => rfl) hs hstep
  unfold renameSnapshot
  rw [yields_bind, yields_notes hat, yields_bind, yields_get]
  show Yields (modifyNotes 0 _ >>= _) o _
  rw [yields_bind, yields_modifyNotes hat]
  exact ⟨_, _, T', hT, hs', hin, himage,
    Relinker.nextFrame_le_relink _ s ⟨n.relinker, o.pool.nextFrame⟩, rfl⟩

/-- A guard's descriptor in the next iteration; any other stays. -/
theorem renameDescr_yields (hat : At rest n o) {T : FrameTable} {op : Operation}
    (hs : op.snapshot.In T)
    (hnext : ∀ b, .box b ∈ op.snapshot.operands → ∃ a, n.next.get? b = some a)
    (hsound : Relinker.Sound (Next n.next) T ⟨n.relinker, o.pool.nextFrame⟩) :
    Yields (renameDescr 0 op.descr) o fun d o' => ∃ relinker nextFrame nextGuard T',
      T.Extends T' ∧ Relinker.Sound (Next n.next) T' ⟨relinker, nextFrame⟩ ∧
      Descr.Image (Next n.next) T' op.descr d ∧ o.pool.nextFrame ≤ nextFrame ∧
      o.pool.nextGuard ≤ nextGuard ∧
      (∀ k s, d = some (.guard k s) → k < nextGuard) ∧
      o' = {o with
        chain := (⟨none, {n with relinker}⟩ :: rest).toArray
        pool := {o.pool with nextFrame, nextGuard}} := by
  unfold renameDescr
  split
  next _ s hd =>
    have hsnap : op.snapshot = s := by simp [Operation.snapshot, hd]
    rw [hsnap] at hs hnext
    rw [yields_bind]
    refine (renameSnapshot_yields hat hs hnext hsound).mono ?_
    rintro s' o₁ ⟨relinker, nextFrame, T', hT, hs', hin, himage, hframe, ho₁⟩
    refine ⟨relinker, nextFrame, o.pool.nextGuard + 1, T', hT, hs', ?_, hframe, Nat.le_succ _,
      ?_, ?_⟩
    · rw [hd]
      exact .guard himage hin
    · rintro k s'' hk
      cases hk
      rw [ho₁]
      exact Nat.lt_succ_self _
    · subst ho₁
      rfl
  next hno =>
    refine ⟨n.relinker, o.pool.nextFrame, o.pool.nextGuard, T, .refl T, hsound, .same hno,
      Nat.le_refl _, Nat.le_refl _, fun k s hk => absurd hk (hno k s), hat.eq_self.symm⟩

/-- The result gets a new box, which is its name in the next iteration. -/
theorem renameResult_run (hat : At rest n o) (result : Option Box)
    (hfresh : ∀ r, result = some r → n.next.get? r = none) :
    ∃ result' n₁ nextBox, (renameResult 0 result).run o =
        (result', {o with
          chain := (⟨none, n₁⟩ :: rest).toArray
          pool := {o.pool with nextBox}}) ∧
      n₁.relinker = n.relinker ∧ nextBox = o.pool.nextBox + result.toList.length ∧
      (∀ a a', Next n.next a a' → Next n₁.next a a') ∧
      (result = none → result' = none ∧ n₁.next = n.next) ∧
      ∀ r, result = some r → result' = some ⟨o.pool.nextBox, r.kind⟩ ∧
        n₁.next = n.next.set r (.box ⟨o.pool.nextBox, r.kind⟩) := by
  cases result with
  | none =>
    refine ⟨none, n, o.pool.nextBox, ?_, rfl, rfl, fun _ _ h => h, fun _ => ⟨rfl, rfl⟩, nofun⟩
    exact congrArg (Prod.mk none) hat.eq_self.symm
  | some r =>
    refine ⟨some ⟨o.pool.nextBox, r.kind⟩,
      {n with next := n.next.set r (.box ⟨o.pool.nextBox, r.kind⟩)},
      o.pool.nextBox + 1, ?_, rfl, rfl, fun _ _ h => h.mono (hfresh r rfl), nofun, ?_⟩
    · unfold renameResult
      rw [run_eq_iff, yields_bind, yields_modifyGet]
      show Yields (modifyNotes 0 _ >>= _) {o with pool := (o.pool.freshBox r.kind).2} _
      rw [yields_bind, yields_modifyNotes (o := {o with pool := (o.pool.freshBox r.kind).2}) hat]
      exact ⟨rfl, rfl⟩
    · rintro _ ⟨⟩
      exact ⟨rfl, rfl⟩

/-- An operand that was walked has a name in the next iteration. -/
theorem Renaming.exists_next {T : FrameTable} {defined walked : List Box} {nextFrame : Nat}
    (h : Renaming T defined walked n nextFrame) {a : Operand}
    (ha : ∀ b, a = .box b → b ∈ walked) : ∃ a', Next n.next a a' := by
  cases a with
  | const c => exact ⟨_, rfl⟩
  | box b =>
    obtain ⟨a', ha', _⟩ := h.next b (ha b rfl)
    exact ⟨a', ha'⟩

/-- Renaming goes on with what the operation is in the next iteration. -/
theorem rename_ends (hat : At rest n o) {T : FrameTable} {defined walked inputs : List Box}
    (h : Renaming T defined walked n o.pool.nextFrame) {op : Operation}
    (hreads : ∀ b, .box b ∈ op.usedArgs → b ∈ walked) (hframes : op.snapshot.In T)
    (hfresh : ∀ r, op.result = some r → r ∉ walked ∧ op.guard? = none)
    {Q : Operation → Optimizer → Prop}
    (hQ : ∀ T' n' op' o', T.Extends T' → Renamed T' rest n n' op op' o o' →
      Ends E (if op'.closes o'.token then do return {op' with args := ← jumpArgs 0 inputs}
        else return op') o' Q) :
    Ends E (rename 0 inputs op) o Q := by
  have hnext : ∀ as : List Operand, (∀ a ∈ as, a ∈ op.usedArgs) →
      ∃ as', List.Forall₂ (Next n.next) as as' := fun as has =>
    exists_forall₂ fun a ha => h.exists_next fun b hb => hreads b (hb ▸ has a ha)
  obtain ⟨args, hargs⟩ := hnext op.args fun a ha => by simp [Operation.usedArgs, ha]
  have hfail : ∃ fs, Option.Rel (List.Forall₂ (Next n.next)) op.failArgs fs ∧
      ∀ {Q : Option (List Operand) → Optimizer → Prop},
        Ends E (op.failArgs.mapM (·.mapM (nextArg 0))) o Q ↔ Q fs o := by
    cases hf : op.failArgs with
    | none => exact ⟨none, .none, Iff.rfl⟩
    | some as =>
      obtain ⟨fs, hfs⟩ := hnext as fun a ha => by simp [Operation.usedArgs, hf, ha]
      refine ⟨some fs, .some hfs, fun {Q} => ?_⟩
      show Ends E (some <$> as.mapM (nextArg 0)) o Q ↔ _
      rw [ends_map, ends_nextArgs hat hfs]
  obtain ⟨fs, hfs, hfail⟩ := hfail
  have hnone : ∀ r, op.result = some r → n.next.get? r = none := fun r hr => by
    by_contra hne
    exact (hfresh r hr).1 (h.only r hne)
  obtain ⟨result, n₁, nextBox, hrun, hrelinker, hbox, hmono, hunproduced, hproduced⟩ :=
    renameResult_run hat op.result hnone
  unfold rename
  rw [ends_bind, ends_nextArgs hat hargs, ends_bind, hfail, ends_bind, ends_lift,
    yields_of_run hrun, ends_bind, ends_lift]
  have hsound : Relinker.Sound (Next n₁.next) T ⟨n₁.relinker, o.pool.nextFrame⟩ := by
    rw [hrelinker]
    exact h.relinker.mono hmono
  refine (renameDescr_yields (o := {o with
      chain := (⟨none, n₁⟩ :: rest).toArray
      pool := {o.pool with nextBox}}) rfl hframes (fun b hb => ?_) hsound).mono ?_
  · obtain ⟨a, ha⟩ := h.exists_next (a := .box b) fun c hc => by
      cases hc
      exact hreads b (by simp [Operation.usedArgs, hb])
    exact ⟨a, hmono _ _ ha⟩
  · rintro d o' ⟨relinker, nextFrame, nextGuard, T', hT, hs', hd, hframe, hle, hk, ho'⟩
    -- A guard produces nothing, so no name changed before its chain was rebuilt.
    have hd' : Descr.Image (Next n.next) T' op.descr d := by
      cases hr : op.result with
      | none => rwa [(hunproduced hr).2] at hd
      | some r =>
        have hg := (hfresh r hr).2
        unfold Operation.guard? at hg
        generalize op.descr = descr at hd hg
        cases hd with
        | same hno => exact .same hno
        | guard => cases hg
    rw [ends_bind, ends_get]
    refine hQ T' {n₁ with relinker} {op with args, failArgs := fs, result, descr := d} o' hT
      ⟨⟨rfl, hargs, hfs, hd'⟩, hunproduced,
        hproduced, by subst ho'; rfl, by subst ho'; exact hs', by subst ho'; exact hbox,
        by subst ho'; exact hframe, by subst ho'; exact hle, fun p hp => ?_⟩
    subst ho'
    unfold Operation.guard? at hp
    split at hp
    next k s he =>
      cases hp
      exact hk k s he
    next => cases hp

/-- What an operation becomes does not depend on the frames that there are. -/
def Renames (rest : List Stage) (n n' : Peeling) (op op' : Operation) (o o' : Optimizer) : Prop :=
  ∀ ⦃T defined walked⦄, Renaming T defined walked n o.pool.nextFrame →
    (∀ b, .box b ∈ op.usedArgs → b ∈ walked) → op.snapshot.In T →
    (∀ r, op.result = some r → r ∉ walked ∧ op.guard? = none) →
    ∃ T', T.Extends T' ∧ Renamed T' rest n n' op op' o o'

/-- An operation that is not the jump is renamed, and nothing else happens. -/
theorem rename_open_ends (hat : At rest n o) {T : FrameTable} {defined walked inputs : List Box}
    (h : Renaming T defined walked n o.pool.nextFrame) {op : Operation}
    (hopen : op.opcode.isFinal = false) (hreads : ∀ b, .box b ∈ op.usedArgs → b ∈ walked)
    (hframes : op.snapshot.In T)
    (hfresh : ∀ r, op.result = some r → r ∉ walked ∧ op.guard? = none) :
    Ends E (rename 0 inputs op) o fun op' o' => ∃ T' n', T.Extends T' ∧
      Renamed T' rest n n' op op' o o' := by
  refine rename_ends hat h hreads hframes hfresh fun T₁ n₁ op' o₁ hT₁ hr => ?_
  have hclose : op'.closes o₁.token = false :=
    Operation.closes_of_not_final (by rw [hr.renders.opcode, hopen]) _
  rw [hclose]
  simp only [Bool.false_eq_true, if_false]
  exact ⟨T₁, n₁, hT₁, hr⟩

theorem renames_ends (hat : At rest n o) {T : FrameTable} {defined walked inputs : List Box}
    (h : Renaming T defined walked n o.pool.nextFrame) {op : Operation}
    (hopen : op.opcode.isFinal = false) (hreads : ∀ b, .box b ∈ op.usedArgs → b ∈ walked)
    (hframes : op.snapshot.In T)
    (hfresh : ∀ r, op.result = some r → r ∉ walked ∧ op.guard? = none) :
    Ends E (rename 0 inputs op) o fun op' o' => ∃ T' n', T.Extends T' ∧
      Renamed T' rest n n' op op' o o' ∧ Renames rest n n' op op' o o' := by
  have hone : Ends E (rename 0 inputs op) o _ :=
    rename_open_ends hat h hopen hreads hframes hfresh
  unfold Ends at hone ⊢
  rcases hrun : (rename 0 inputs op).run.run o with ⟨_ | op', o'⟩
  · rw [hrun] at hone
    exact hone
  · rw [hrun] at hone
    obtain ⟨T', n', hT, hr⟩ := hone
    refine ⟨T', n', hT, hr, fun T₁ defined₁ walked₁ h₁ hreads₁ hframes₁ hfresh₁ => ?_⟩
    have hother : Ends (fun _ => False) (rename 0 inputs op) o _ :=
      rename_open_ends hat h₁ hopen hreads₁ hframes₁ hfresh₁
    unfold Ends at hother
    rw [hrun] at hother
    obtain ⟨T₂, n₂, hT₂, hr₂⟩ := hother
    have hchain : (⟨none, n₂⟩ :: rest : List Stage) = ⟨none, n'⟩ :: rest := by
      have hsame := congrArg Optimizer.chain (hr₂.same.symm.trans hr.same)
      exact Array.toList_inj.2 hsame
    cases hchain
    exact ⟨T₂, hT₂, hr₂⟩

end

/-! ### The list once more -/

/-- More numbers were given out and more frames made; the list and the table stay. -/
theorem Working.pool {T T' : FrameTable} {base start defined : List Box} {o o' : Optimizer}
    (hw : Working T base start defined o) (hT : T.Extends T')
    (hbelow : T'.Below o'.pool.nextFrame) (hbox : o.pool.nextBox ≤ o'.pool.nextBox)
    (hguard : o.pool.nextGuard ≤ o'.pool.nextGuard)
    (same : o' = {o with chain := o'.chain, pool := o'.pool, events := o'.events}) :
    Working T' base start defined o' := by
  have hvalues : o'.values = o.values := by rw [same]
  have hout : o'.out = o.out := by rw [same]
  have hknown : o'.known = o.known := by rw [same]
  have hsink : o'.sink = o.sink := by rw [same]
  refine ⟨?_, ?_, fun b hb => Nat.lt_of_lt_of_le (hw.ids b hb) hbox, ?_⟩
  · rw [hvalues, hout]
    exact hw.built.mono hguard hT
  · rw [hvalues, hknown]
    exact hw.known
  · rw [hsink]
    refine (hw.sink.extends_ hT hbelow).mono fun a a' ha => ?_
    rw [Stands, hvalues, hout]
    exact ha

/-- The invariant while the recorded operations are gone through once more: `walked` are the
inputs and the results gone through, `defined` what may be named. -/
structure Replaying (T : FrameTable) (base defined walked : List Box) (rest : List Stage)
    (n : Peeling) (o : Optimizer) : Prop where
  working : Working T base base defined o
  notes : At rest n o
  names : Renaming T defined walked n o.pool.nextFrame

section
variable {T T' : FrameTable} {base defined walked : List Box} {rest : List Stage}
  {n n' : Peeling} {o o' : Optimizer} {op op' : Operation}

/-- What the next iteration runs may come next. -/
theorem Renamed.comes (hr : Renamed T' rest n n' op op' o o')
    (h : Replaying T base defined walked rest n o)
    {nextGuard nextBox : Nat} (hop : op.Comes T walked nextGuard nextBox) :
    op'.Comes T' defined o'.pool.nextGuard o'.pool.nextBox := by
  have hnext : ∀ a a', Next n.next a a' → a'.kind = a.kind ∧ ∀ b, a' = .box b → b ∈ defined := by
    intro a a' ha
    cases a with
    | const c =>
      cases ha
      exact ⟨rfl, nofun⟩
    | box b =>
      have hb : n.next.get? b = some a' := ha
      obtain ⟨a'', ha'', hk, hd⟩ := h.names.next b (h.names.only b (by simp [hb]))
      rw [hb] at ha''
      cases ha''
      exact ⟨hk, hd⟩
  have hkinds : op'.result.map (·.kind) = op.result.map (·.kind) := by
    cases hres : op.result with
    | none => rw [(hr.unproduced hres).1]
    | some r => rw [(hr.produced r hres).1]; rfl
  have hnew : ∀ r, op'.result = some r → r.id = o.pool.nextBox ∧ op.result.isSome := by
    intro r hres'
    cases hres : op.result with
    | none =>
      rw [(hr.unproduced hres).1] at hres'
      cases hres'
    | some r₀ =>
      rw [(hr.produced r₀ hres).1] at hres'
      cases hres'
      exact ⟨rfl, rfl⟩
  refine ⟨hr.renders.fits (fun a a' h => (hnext a a' h).1) (fun a b h => (hnext a _ h).2 b rfl)
    hkinds (fun r hres hm => ?_) hop.fits, by rw [hr.renders.opcode]; exact hop.ordinary,
    ⟨hr.renders.plain hop.neat.plain, hr.number, hr.renders.snapshot_in⟩, fun r hres => ?_⟩
  · have := h.working.ids r hm
    have := (hnew r hres).1
    omega
  · obtain ⟨hid, hsome⟩ := hnew r hres
    obtain ⟨r₀, hr₀⟩ := Option.isSome_iff_exists.1 hsome
    rw [hid, hr.nextBox, hr₀]
    simp

/-- The names after an operation was gone through. -/
theorem Renamed.names (hr : Renamed T' rest n n' op op' o o') {f : Nat}
    (h : Renaming T defined walked n f) {T'' : FrameTable} {nextFrame : Nat}
    (hT : T'.Extends T'') (hn : T''.Below nextFrame) :
    Renaming T'' (op'.result.toList ++ defined) (op.result.toList ++ walked) n' nextFrame := by
  have hsound := hr.relinker.extends_ hT hn
  cases hres : op.result with
  | none =>
    obtain ⟨hres', hnext⟩ := hr.unproduced hres
    rw [hres']
    exact ⟨by rw [hnext]; exact h.next, by rw [hnext]; exact h.only, hsound⟩
  | some r =>
    obtain ⟨hres', hnext⟩ := hr.produced r hres
    rw [hres']
    have hget : ∀ b, n'.next.get? b =
        if r = b then some (.box ⟨o.pool.nextBox, r.kind⟩) else n.next.get? b := fun b => by
      rw [hnext, Bindings.get?_set]
    refine ⟨fun b hb => ?_, fun b hb => ?_, hsound⟩
    · rw [hget]
      split
      next he =>
        refine ⟨_, rfl, he ▸ rfl, ?_⟩
        rintro c ⟨⟩
        exact List.mem_cons_self ..
      next hne =>
        have hb' : b ∈ walked := (List.mem_cons.1 hb).resolve_left (Ne.symm hne)
        obtain ⟨a, ha, hk, hd⟩ := h.next b hb'
        exact ⟨a, ha, hk, fun c hc => .tail _ (hd c hc)⟩
    · rw [hget] at hb
      split at hb
      next he => exact he ▸ List.mem_cons_self ..
      next => exact .tail _ (h.only b hb)

/-- One recorded operation is gone through and dealt with. -/
theorem Replaying.step {c : Config} {o₁ : Optimizer} {events : Array Event}
    (h : Replaying T base defined walked rest n o) (hT : T.Extends T')
    (hr : Renamed T' rest n n' op op' o o₁) {nextGuard nextBox : Nat}
    (hop : op.Comes T walked nextGuard nextBox)
    (hs : Handled c.behind op' {o₁ with events} o') :
    ∃ T'', T.Extends T'' ∧
      Replaying T'' base (op'.result.toList ++ defined) (op.result.toList ++ walked) rest n' o' ∧
      Extends o o' := by
  have hw₁ : Working T' base base defined {o₁ with events} := by
    refine h.working.pool hT hr.relinker.below ?_ hr.nextGuard ?_
    · rw [hr.nextBox]
      exact Nat.le_add_right ..
    · rw [hr.same]
  obtain ⟨T'', hT', hw', he⟩ := sends_handled c hw₁ (hr.comes h hop) hs
  have he' : Extends o o' := by
    have hvalues : o₁.values = o.values := by rw [hr.same]
    have hout : o₁.out = o.out := by rw [hr.same]
    exact ⟨hvalues ▸ he.values, hout ▸ he.grows⟩
  have hat : At rest n' o' := by
    rw [At, hs.keeps.chain]
    exact hr.at_
  exact ⟨T'', hT.trans hT', ⟨hw', hat, hr.names h.names hT' hw'.sink.below⟩, he'⟩

end

/-- The recorded operations are gone through and dealt with, one after the other. -/
inductive Replayed (ps : List Pass) (rest : List Stage) :
    List Operation → Peeling → Optimizer → Peeling → Optimizer → Prop
  | nil {n : Peeling} {o : Optimizer} : Replayed ps rest [] n o n o
  | cons {T : FrameTable} {op op' : Operation} {ops : List Operation} {n n₁ n' : Peeling}
      {o o₁ o₂ o' : Optimizer} {events : Array Event} : Renamed T rest n n₁ op op' o o₁ →
      Renames rest n n₁ op op' o o₁ → Handled ps op' {o₁ with events} o₂ → Replayed ps rest ops n₁ o₂ n' o' →
      Replayed ps rest (op :: ops) n o n' o'

/-- Before the jump, every recorded operation finds its boxes named, so it is gone through
and dealt with or refused. -/
theorem replay_ends {C : OptCause → Prop}
    (hC : ∀ cause, cause.isGuardFailure = true → C cause) {c : Config} {T : FrameTable}
    {base defined walked loopInputs : List Box} {rest : List Stage}
    (hrest : rest.map (·.pass) = c.behind.map some) {n : Peeling} {ops : List Operation}
    {o : Optimizer} (h : Replaying T base defined walked rest n o) {nextGuard nextBox : Nat}
    (hops : Coming T walked nextGuard nextBox ops) :
    Ends (fun e => C e.cause) (replay (send c.behind.length) 0 loopInputs ops) o fun _ o' =>
      ∃ n' T' defined', Replayed c.behind rest ops n o n' o' ∧ T.Extends T' ∧
        Replaying T' base defined' (walked ++ results ops) rest n' o' ∧ Extends o o' ∧
        defined ⊆ defined' := by
  induction ops generalizing T defined walked n o with
  | nil =>
    refine ⟨n, T, defined, .nil, .refl T, by simpa using h, .refl o, List.Subset.refl _⟩
  | cons op ops ih =>
    have hop := hops.head
    have hfresh := hop.fresh
    show Ends _ ((do
      let op ← rename 0 loopInputs op
      tell (.inlined op.opcode)
      send c.behind.length op) >>= fun _ => replay _ 0 loopInputs ops) o _
    rw [ends_bind, ends_bind]
    refine (renames_ends h.notes h.names hop.ordinary hop.fits.reads hop.neat.frames
      hfresh).mono fun op' o₁ ⟨T₁, n₁, hT₁, hr, hrenames⟩ => ?_
    rw [ends_bind, ends_lift, yields_tell]
    have hin : o₁.values.InRange := by
      rw [hr.same]
      exact h.working.inRange
    refine (behind_ends (fun _ => hC)
      (o := {o₁ with events := o₁.events.push (.inlined op'.opcode)}) (hr.at_.behind hrest) hin
      op').mono fun _ o₂ hs => ?_
    obtain ⟨T₂, hT₂, h₂, he⟩ := h.step hT₁ hr hop hs
    refine (ih h₂ (hops.tail hT₂)).mono
      fun _ o' ⟨n', T', defined', hrep, hT', h', he', hsub⟩ => ?_
    exact ⟨n', T', defined', .cons hr hrenames hs hrep, hT₂.trans hT',
      {h' with names := h'.names.congr fun _ => mem_append_results_cons.symm}, he.trans he',
      fun b hb => hsub (List.mem_append_right _ hb)⟩

end Optimizer
end TracePeel
