import Mathlib.Data.List.ReduceOption
import TracePeel.Proofs.Running
import TracePeel.Proofs.Scripted

/-! The chain survives every operation.

A pass is taken out of its place while it runs, and it may hand on a whole copy of the
trace before something fails. What it hands on goes to the stage behind the cursor
(`sendTo_eq_sendOn`), so the places must be right at every point of its script; by
induction on the stages left they are. `Raises` says at which stage an error begins, and
`sendTo_unwinds` that the chain is as it was afterwards, that an error comes out with the
passes that it left behind it, the innermost first, and that no pass is ever found away. -/
namespace TracePeel.Optimizer

/-! ### Runs of a script -/

namespace Script
variable {α : Type} {emit emit' : Operation → Optimize Unit} {s : Script α} {o : Optimizer}

/-- The script comes to a failure of its own. -/
inductive Fails (emit : Operation → Optimize Unit) : Script α → Optimizer → OptError → Prop
  | fail {e : OptError} {o : Optimizer} : Fails emit (fail e) o e
  | own {after : Optimizer → Optimizer} {next : Optimizer → Script α} {o : Optimizer}
    {e : OptError} (h : Fails emit (next o) (after o) e) : Fails emit (own after next) o e
  | hand {op : Operation} {next : Script α} {o o₁ : Optimizer} {e : OptError}
    (hemit : (emit op).run.run o = (.ok (), o₁)) (h : Fails emit next o₁ e) :
    Fails emit (hand op next) o e

/-- The script comes to hand on an operation, in a state. -/
inductive Hands (emit : Operation → Optimize Unit) :
    Script α → Optimizer → Operation → Optimizer → Prop
  | here {op : Operation} {next : Script α} {o : Optimizer} : Hands emit (hand op next) o op o
  | own {after : Optimizer → Optimizer} {next : Optimizer → Script α} {o o' : Optimizer}
    {op : Operation} (h : Hands emit (next o) (after o) op o') : Hands emit (own after next) o op o'
  | hand {op op' : Operation} {next : Script α} {o o₁ o' : Optimizer}
    (hemit : (emit op).run.run o = (.ok (), o₁)) (h : Hands emit next o₁ op' o') :
    Hands emit (hand op next) o op' o'

theorem run_own (after : Optimizer → Optimizer) (next : Optimizer → Script α) (o : Optimizer) :
    ((own after next).run emit).run.run o = ((next o).run emit).run.run (after o) :=
  rfl

/-- A script fails by itself or because it handed on an operation that failed. -/
theorem error_iff {e : OptError} : ((s.run emit).run.run o).1 = .error e ↔
    s.Fails emit o e ∨
      ∃ op o', s.Hands emit o op o' ∧ ((emit op).run.run o').1 = .error e := by
  induction s generalizing o with
  | done a =>
    constructor
    · intro h
      cases h
    · rintro (h | ⟨_, _, h, _⟩) <;> cases h
  | own after next ih =>
    rw [run_own, ih]
    constructor
    · rintro (h | ⟨op, o', h, herror⟩)
      · exact .inl (.own h)
      · exact .inr ⟨op, o', .own h, herror⟩
    · rintro (h | ⟨op, o', h, herror⟩)
      · cases h with
        | own h => exact .inl h
      · cases h with
        | own h => exact .inr ⟨op, o', h, herror⟩
  | fail e' =>
    constructor
    · intro h
      cases h
      exact .inl .fail
    · rintro (h | ⟨_, _, h, _⟩)
      · cases h
        rfl
      · cases h
  | hand op next ih =>
    rw [run, Optimizer.run_bind]
    rcases hemit : (emit op).run.run o with ⟨e' | _, o₁⟩
    · constructor
      · intro h
        cases h
        exact .inr ⟨op, o, .here, by rw [hemit]⟩
      · rintro (h | ⟨_, _, h, herror⟩)
        · cases h with
          | hand hok => cases hemit.symm.trans hok
        · cases h with
          | here =>
            rw [hemit] at herror
            cases herror
            rfl
          | hand hok => cases hemit.symm.trans hok
    · rw [ih]
      constructor
      · rintro (h | ⟨op', o', h, herror⟩)
        · exact .inl (.hand hemit h)
        · exact .inr ⟨op', o', .hand hemit h, herror⟩
      · rintro (h | ⟨op', o', h, herror⟩)
        · cases h with
          | hand hok h =>
            cases hemit.symm.trans hok
            exact .inl h
        · cases h with
          | here =>
            rw [hemit] at herror
            cases herror
          | hand hok h =>
            cases hemit.symm.trans hok
            exact .inr ⟨op', o', h, herror⟩

/-- What is handed on, wherever the passes stand as they do here, moves none of them. -/
def Kept (emit : Operation → Optimize Unit) (o : Optimizer) : Prop :=
  ∀ op o₁, SamePlaces o o₁ → SamePlaces o₁ ((emit op).run.run o₁).2

theorem Kept.of_same {o₁ : Optimizer} (h : Kept emit o) (hsame : SamePlaces o o₁) :
    Kept emit o₁ :=
  fun op _ hsame' => h op _ (hsame.trans hsame')

theorem Proper.samePlaces (hs : s.Proper) (hkept : Kept emit o) :
    SamePlaces o ((s.run emit).run.run o).2 := by
  induction s generalizing o with
  | done a => exact .refl o
  | own after next ih =>
    obtain ⟨hafter, hnext⟩ := hs o
    exact hafter.trans (ih o hnext (hkept.of_same hafter))
  | fail e => exact .refl o
  | hand op next ih =>
    have hemit := hkept op o (.refl o)
    rw [run, Optimizer.run_bind]
    rcases hrun : (emit op).run.run o with ⟨e | _, o₁⟩
    · rw [hrun] at hemit
      exact hemit
    · rw [hrun] at hemit
      exact hemit.trans (ih hs (hkept.of_same hemit))

/-- Only what is handed on from where the passes stand counts. -/
theorem Proper.run_congr (hs : s.Proper) (hkept : Kept emit o)
    (heq : ∀ op o₁, SamePlaces o o₁ → (emit op).run.run o₁ = (emit' op).run.run o₁) :
    (s.run emit).run.run o = (s.run emit').run.run o := by
  induction s generalizing o with
  | done a => rfl
  | own after next ih =>
    obtain ⟨hafter, hnext⟩ := hs o
    exact ih o hnext (hkept.of_same hafter) fun op o₁ hsame => heq op o₁ (hafter.trans hsame)
  | fail e => rfl
  | hand op next ih =>
    have hemit := hkept op o (.refl o)
    rw [run, run, Optimizer.run_bind, Optimizer.run_bind, ← heq op o (.refl o)]
    rcases hrun : (emit op).run.run o with ⟨e | _, o₁⟩
    · rfl
    · rw [hrun] at hemit
      exact ih hs (hkept.of_same hemit) fun op o₂ hsame => heq op o₂ (hemit.trans hsame)

theorem Proper.samePlaces_hands (hs : s.Proper) (hkept : Kept emit o) {op : Operation}
    {o' : Optimizer} (h : s.Hands emit o op o') : SamePlaces o o' := by
  induction h with
  | here => exact .refl _
  | @own after next o o' op h ih =>
    obtain ⟨hafter, hnext⟩ := hs o
    exact hafter.trans (ih hnext (hkept.of_same hafter))
  | @hand op op' next o o₁ o' hemit h ih =>
    have hsame := hkept op o (.refl o)
    rw [hemit] at hsame
    exact hsame.trans (ih hs (hkept.of_same hsame))

theorem Proper.not_reentered (hs : s.Proper) {e : OptError} (h : s.Fails emit o e) (stage : Nat) :
    e.cause ≠ .reenteredPass stage := by
  induction h with
  | fail => exact hs stage
  | @own after next o e h ih => exact ih (hs o).2
  | hand hemit h ih => exact ih hs

end Script

/-! ### One stage -/

theorem passes_modify (chain : Array Stage) (stage : Nat) (pass : Option Pass) :
    (chain.modify stage fun s => {s with pass}).toList.map (·.pass) =
      (chain.toList.map (·.pass)).set stage pass := by
  refine List.ext_getElem (by simp) fun i hi hi' => ?_
  simp only [List.getElem_map, Array.getElem_toList, Array.getElem_modify, List.getElem_set]
  split <;> rfl

/-- The pass at a stage is out of its place, and the cursor is on it. -/
def running (o : Optimizer) (stage : Nat) : Optimizer :=
  {o with chain := o.chain.modify stage fun s => {s with pass := none}, cursor := stage}

theorem passes_running (o : Optimizer) (stage : Nat) :
    (o.running stage).passes = o.passes.set stage none :=
  passes_modify o.chain stage none

theorem running_zero {o : Optimizer} {pass : Pass} {n : Peeling} {rest : List Stage}
    (hchain : o.chain = (⟨some pass, n⟩ :: rest).toArray) :
    o.running 0 = {o with chain := (⟨none, n⟩ :: rest).toArray, cursor := 0} := by
  rw [running, hchain]
  rfl

/-- A pass is back in its place and the cursor where it was, and an error has left the
pass. -/
def restored (o : Optimizer) (stage : Nat) (pass : Pass) :
    Except OptError Unit × Optimizer → Except OptError Unit × Optimizer
  | (outcome, o') =>
    (outcome.mapError (·.leaving pass),
      {o' with
        chain := o'.chain.modify stage fun s => {s with pass := some pass}
        cursor := o.cursor})

theorem run_restored (m : Optimize Unit) (pass : Pass) (stage : Nat) (o : Optimizer)
    {ends : Except OptError Unit → Optimize Unit} (hends : ∀ outcome o',
      (ends outcome).run.run o' = (outcome.mapError (·.leaving pass), o')) :
    (do
      setPass stage none
      setCursor stage
      let outcome ← ExceptT.lift m.run
      setCursor o.cursor
      setPass stage (some pass)
      ends outcome : Optimize Unit).run.run o =
        o.restored stage pass (m.run.run (o.running stage)) := by
  rw [Optimizer.run_bind]
  show (liftM (setCursor stage) >>= _ : Optimize Unit).run.run _ = _
  rw [Optimizer.run_bind]
  show (ExceptT.lift m.run >>= _ : Optimize Unit).run.run (o.running stage) = _
  have hlift : (ExceptT.lift m.run : Optimize (Except OptError Unit)).run.run (o.running stage) =
      (.ok (m.run.run (o.running stage)).1, (m.run.run (o.running stage)).2) := rfl
  rw [Optimizer.run_bind, hlift]
  exact hends _ _

theorem sendTo_eq_restored {o : Optimizer} {stage : Nat} {pass : Pass}
    (hpass : o.passes[stage]? = some (some pass)) (op : Operation) :
    (sendTo stage op).run.run o = o.restored stage pass
      ((runPass pass (send (o.chain.size - (stage + 1))) stage op).run.run (o.running stage)) := by
  have hlt : stage < o.chain.size := by
    have := (List.getElem?_eq_some_iff.1 hpass).1
    simpa [passes] using this
  have hleft : o.chain.size - stage = o.chain.size - (stage + 1) + 1 := by omega
  have hstage : o.chain.size - (o.chain.size - (stage + 1) + 1) = stage := by omega
  have hat : o.chain[stage]?.bind (·.pass) = some pass := by
    rw [passes, List.getElem?_map, Array.getElem?_toList, Option.map_eq_some_iff] at hpass
    obtain ⟨s, hs, hsp⟩ := hpass
    rw [hs, Option.bind_some, hsp]
  have hget : (get : Optimize Optimizer).run.run o = (.ok o, o) := rfl
  show (send (o.chain.size - stage) op).run.run o = _
  rw [hleft, send, Optimizer.run_bind, hget]
  simp only [hstage, hat]
  refine run_restored _ pass stage o fun outcome o' => ?_
  cases outcome <;> rfl

theorem size_running (o : Optimizer) (stage : Nat) :
    (o.running stage).chain.size = o.chain.size :=
  Array.size_modify

/-- Behind the last stage an operation is written. -/
theorem sendTo_of_size_le {o : Optimizer} {stage : Nat} (h : o.chain.size ≤ stage)
    (op : Operation) : (sendTo stage op).run.run o = (.ok (), ((emit op).run o).2) := by
  show (send (o.chain.size - stage) op).run.run o = _
  rw [Nat.sub_eq_zero_of_le h]
  rfl

variable {o : Optimizer} {stage : Nat}

theorem SamePlaces.restored {pass : Pass} (hpass : o.passes[stage]? = some (some pass))
    {result : Except OptError Unit × Optimizer} (h : SamePlaces (o.running stage) result.2) :
    SamePlaces o (o.restored stage pass result).2 := by
  refine ⟨?_, rfl⟩
  obtain ⟨outcome, o'⟩ := result
  have hset : o.passes.set stage (some pass) = o.passes := by
    obtain ⟨hlt, hget⟩ := List.getElem?_eq_some_iff.1 hpass
    rw [← hget, List.set_getElem_self]
  calc ((o'.chain.modify stage fun s => {s with pass := some pass}).toList.map (·.pass))
      = o'.passes.set stage (some pass) := passes_modify ..
    _ = (o.passes.set stage none).set stage (some pass) := by rw [h.passes, passes_running]
    _ = o.passes := by rw [List.set_set, hset]

/-- From a stage on every stage has its pass. -/
def MannedFrom (o : Optimizer) (stage : Nat) : Prop :=
  none ∉ o.passes.drop stage

theorem MannedFrom.exists_pass (h : o.MannedFrom stage) (hlt : stage < o.chain.size) :
    ∃ pass, o.passes[stage]? = some (some pass) := by
  have hlt' : stage < o.passes.length := by simpa [passes] using hlt
  cases hpass : o.passes[stage] with
  | none =>
    rw [MannedFrom, List.drop_eq_getElem_cons hlt', hpass] at h
    exact absurd (List.mem_cons_self ..) h
  | some pass => exact ⟨pass, by rw [List.getElem?_eq_getElem hlt', hpass]⟩

/-- Whoever stands behind the pass that runs has its pass. -/
theorem MannedFrom.behind (h : o.MannedFrom stage) {o₁ : Optimizer}
    (hsame : SamePlaces (o.running stage) o₁) : o₁.MannedFrom (stage + 1) := by
  rw [MannedFrom, hsame.passes, passes_running, List.drop_set_of_lt (Nat.lt_add_one stage),
    ← List.drop_drop]
  exact fun hmem => h (List.mem_of_mem_drop hmem)

/-! ### Every stage -/

theorem sendTo_samePlaces (h : o.MannedFrom stage) (op : Operation) :
    SamePlaces o ((sendTo stage op).run.run o).2 := by
  induction hn : o.chain.size - stage generalizing o stage op with
  | zero =>
    rw [sendTo_of_size_le (Nat.le_of_sub_eq_zero hn)]
    exact (emit_keeps op o).samePlaces
  | succ n ih =>
    obtain ⟨pass, hpass⟩ := h.exists_pass (by omega)
    have hs := runPass_enacts pass stage op
    rw [sendTo_eq_restored hpass, hs.run]
    refine SamePlaces.restored hpass (hs.proper.samePlaces ?_)
    intro op' o₁ hsame
    have hsize : o₁.chain.size = o.chain.size := hsame.size.trans (size_running o stage)
    rw [← hsize]
    exact ih (h.behind hsame) op' (by omega)

/-- While a pass runs, what it hands on goes to the stage behind the cursor. -/
theorem sendOn_kept (h : o.MannedFrom stage) : Script.Kept sendOn (o.running stage) := by
  intro op o₁ hsame
  show SamePlaces o₁ ((sendTo (o₁.cursor + 1) op).run.run o₁).2
  rw [show o₁.cursor = stage from hsame.cursor]
  exact sendTo_samePlaces (h.behind hsame) op

/-- Sending to a stage runs its pass, which sends on, and puts it back. -/
theorem sendTo_eq_sendOn {pass : Pass} (h : o.MannedFrom stage)
    (hpass : o.passes[stage]? = some (some pass)) (op : Operation) :
    (sendTo stage op).run.run o =
      o.restored stage pass ((runPass pass sendOn stage op).run.run (o.running stage)) := by
  have hs := runPass_enacts pass stage op
  rw [sendTo_eq_restored hpass, hs.run, hs.run]
  congr 1
  symm
  apply hs.proper.run_congr (sendOn_kept h)
  intro op' o₁ hsame
  show (send (o₁.chain.size - (o₁.cursor + 1)) op').run.run o₁ = _
  rw [show o₁.cursor = stage from hsame.cursor, hsame.size, size_running]

/-! ### Which way an error takes -/

/-- The pass at stage `k` fails by itself, with this error, on an operation that came to
it from the one sent to `stage`. -/
inductive Raises : Nat → Operation → Optimizer → Nat → OptError → Prop
  | here {stage : Nat} {op : Operation} {o : Optimizer} {pass : Pass} {s : Script Unit}
    {e : OptError} (hpass : o.passes[stage]? = some (some pass))
    (hs : Enacts (runPass pass · stage op) s) (h : s.Fails sendOn (o.running stage) e) :
    Raises stage op o stage e
  | behind {stage k : Nat} {op op' : Operation} {o o' : Optimizer} {pass : Pass}
    {s : Script Unit} {e : OptError} (hpass : o.passes[stage]? = some (some pass))
    (hs : Enacts (runPass pass · stage op) s) (hhand : s.Hands sendOn (o.running stage) op' o')
    (h : Raises (stage + 1) op' o' k e) : Raises stage op o k e

theorem Raises.le {op : Operation} {k : Nat} {e : OptError} (h : Raises stage op o k e) :
    stage ≤ k := by
  induction h with
  | here => exact Nat.le_refl _
  | behind _ _ _ _ ih => exact Nat.le_of_succ_le ih

theorem Raises.not_reentered {op : Operation} {k : Nat} {e : OptError}
    (h : Raises stage op o k e) (i : Nat) : e.cause ≠ .reenteredPass i := by
  induction h with
  | here _ hs h => exact hs.proper.not_reentered h i
  | behind _ _ _ _ ih => exact ih

/-- The passes that an error leaves on its way from stage `k` out of `stage`. -/
def wayOut (o : Optimizer) (stage k : Nat) : List Pass :=
  ((o.passes.take (k + 1)).drop stage).reverse.reduceOption

theorem wayOut_self {pass : Pass} (hpass : o.passes[stage]? = some (some pass)) :
    o.wayOut stage stage = [pass] := by
  obtain ⟨hlt, hget⟩ := List.getElem?_eq_some_iff.1 hpass
  rw [wayOut, List.drop_take, Nat.add_sub_cancel_left, List.drop_eq_getElem_cons hlt, hget]
  rfl

theorem wayOut_of_lt {k : Nat} {pass : Pass} (hpass : o.passes[stage]? = some (some pass))
    (hlt : stage < k) : o.wayOut stage k = o.wayOut (stage + 1) k ++ [pass] := by
  obtain ⟨hlen, hget⟩ := List.getElem?_eq_some_iff.1 hpass
  have hcons : (o.passes.take (k + 1)).drop stage =
      some pass :: (o.passes.take (k + 1)).drop (stage + 1) := by
    rw [List.drop_eq_getElem_cons (by simp only [List.length_take]; omega), List.getElem_take, hget]
  rw [wayOut, wayOut, hcons, List.reverse_cons, List.reduceOption_append]
  rfl

/-- Behind the pass that runs the passes are the same ones. -/
theorem wayOut_behind {o₁ : Optimizer} (hsame : SamePlaces (o.running stage) o₁) (k : Nat) :
    o₁.wayOut (stage + 1) k = o.wayOut (stage + 1) k := by
  rw [wayOut, hsame.passes, passes_running, List.take_set,
    List.drop_set_of_lt (Nat.lt_add_one stage), wayOut]

theorem restored_error_iff {pass : Pass} {result : Except OptError Unit × Optimizer}
    {e' : OptError} : (o.restored stage pass result).1 = .error e' ↔
      ∃ e, result.1 = .error e ∧ e' = e.leaving pass := by
  obtain ⟨outcome, o'⟩ := result
  cases outcome with
  | ok _ =>
    constructor
    · intro h
      cases h
    · rintro ⟨_, h, _⟩
      cases h
  | error e =>
    constructor
    · intro h
      cases h
      exact ⟨e, rfl, rfl⟩
    · rintro ⟨_, h, rfl⟩
      cases h
      rfl

/-- An error is raised by some pass, and on its way out it collects the passes from there
to where the operation was sent to. -/
theorem sendTo_error_iff (h : o.MannedFrom stage) (op : Operation) (e' : OptError) :
    ((sendTo stage op).run.run o).1 = .error e' ↔
      ∃ k e, Raises stage op o k e ∧ e' = {e with passes := e.passes ++ o.wayOut stage k} := by
  induction hn : o.chain.size - stage generalizing o stage op e' with
  | zero =>
    have hle := Nat.le_of_sub_eq_zero hn
    have hnone : o.passes[stage]? = none := by
      rw [List.getElem?_eq_none_iff]
      simpa [passes] using hle
    rw [sendTo_of_size_le hle]
    constructor
    · intro h
      cases h
    · rintro ⟨k, e, hraises, -⟩
      cases hraises with
      | here hpass | behind hpass => cases hnone.symm.trans hpass
  | succ n ih =>
    obtain ⟨pass, hpass⟩ := h.exists_pass (by omega)
    have hbehind {s : Script Unit} (hs : Enacts (runPass pass · stage op) s) {op' : Operation}
        {o₁ : Optimizer} (hhand : s.Hands sendOn (o.running stage) op' o₁) (e₁ : OptError) :
        ((sendOn op').run.run o₁).1 = .error e₁ ↔ ∃ k e, Raises (stage + 1) op' o₁ k e ∧
          e₁ = {e with passes := e.passes ++ o.wayOut (stage + 1) k} := by
      have hsame := hs.proper.samePlaces_hands (sendOn_kept h) hhand
      have hcursor : o₁.cursor = stage := hsame.cursor
      have hsize : o₁.chain.size = o.chain.size := hsame.size.trans (size_running o stage)
      have := ih (h.behind hsame) op' e₁ (by omega)
      simp only [wayOut_behind hsame] at this
      rw [← this, ← hcursor]
      rfl
    rw [sendTo_eq_sendOn h hpass, restored_error_iff]
    constructor
    · rintro ⟨e₁, herror, rfl⟩
      have hs := runPass_enacts pass stage op
      rw [hs.run, Script.error_iff] at herror
      rcases herror with hfails | ⟨op', o₁, hhand, herror⟩
      · refine ⟨stage, e₁, .here hpass hs hfails, ?_⟩
        rw [wayOut_self hpass]
        rfl
      · obtain ⟨k, e, hraises, rfl⟩ := (hbehind hs hhand e₁).1 herror
        refine ⟨k, e, .behind hpass hs hhand hraises, ?_⟩
        rw [wayOut_of_lt hpass hraises.le, ← List.append_assoc]
        rfl
    · rintro ⟨k, e, hraises, rfl⟩
      cases hraises with
      | @here _ _ _ pass' s _ hpass' hs hfails =>
        cases hpass.symm.trans hpass'
        refine ⟨e, ?_, by rw [wayOut_self hpass]; rfl⟩
        rw [hs.run, Script.error_iff]
        exact .inl hfails
      | @behind _ _ _ op' _ o₁ pass' s _ hpass' hs hhand hraises =>
        cases hpass.symm.trans hpass'
        refine ⟨{e with passes := e.passes ++ o.wayOut (stage + 1) k}, ?_, ?_⟩
        · rw [hs.run, Script.error_iff]
          exact .inr ⟨op', o₁, hhand, (hbehind hs hhand _).2 ⟨k, e, hraises, rfl⟩⟩
        · rw [wayOut_of_lt hpass hraises.le, ← List.append_assoc]
          rfl

/-! ### One send after the other -/

/-- The states that sends lead to, whatever became of them. -/
inductive AfterSends (o : Optimizer) : Optimizer → Prop
  | refl : AfterSends o o
  | send {o' : Optimizer} (h : AfterSends o o') (stage : Nat) (op : Operation) :
    AfterSends o ((sendTo stage op).run.run o').2

theorem AfterSends.samePlaces {o' : Optimizer} (hmanned : none ∉ o.passes) (h : AfterSends o o') :
    SamePlaces o o' := by
  induction h with
  | refl => exact .refl o
  | @send o' h stage op ih =>
    refine ih.trans (sendTo_samePlaces (fun hmem => ?_) op)
    rw [ih.passes] at hmem
    exact hmanned (List.mem_of_mem_drop hmem)

/-- A chain without a gap survives whatever is sent through it. After a send the passes
and the cursor are in their places. An error that comes out is one that a pass raised,
with the passes on its way out behind it, and each one that a pass raises comes out so.
No later send finds a pass away. -/
theorem sendTo_unwinds (h : none ∉ o.passes) (stage : Nat) (op : Operation) :
    (((sendTo stage op).run.run o).2.passes = o.passes ∧
      ((sendTo stage op).run.run o).2.cursor = o.cursor) ∧
    (∀ e', ((sendTo stage op).run.run o).1 = .error e' ↔
      ∃ k e, Raises stage op o k e ∧ e' = {e with passes := e.passes ++ o.wayOut stage k}) ∧
    ∀ o', AfterSends o o' → ∀ stage op e i, ((sendTo stage op).run.run o').1 = .error e →
      e.cause ≠ .reenteredPass i := by
  have hmanned (stage : Nat) : o.MannedFrom stage := fun hmem => h (List.mem_of_mem_drop hmem)
  have hplaces := sendTo_samePlaces (hmanned stage) op
  refine ⟨⟨hplaces.passes, hplaces.cursor⟩, sendTo_error_iff (hmanned stage) op, ?_⟩
  intro o' hafter stage' op' e i herror
  have hmanned' : o'.MannedFrom stage' := by
    rw [MannedFrom, (hafter.samePlaces h).passes]
    exact hmanned stage'
  obtain ⟨k, e₀, hraises, rfl⟩ := (sendTo_error_iff hmanned' op' e).1 herror
  exact hraises.not_reentered i

/-- A trace whose guard can pass the first time through only. -/
def contrary : Trace :=
  let (i, t) := (Trace.start "contrary").input .int
  let t := t.recordGuard .guardFalse [.box i] [.box i]
  t.close [.const (.int 1)]

/-- Sent to the head of the chain, the jump of that trace runs into the guard a second
time, behind peeling. -/
theorem sendTo_unwinds_contrary : none ∉ (Config.begin {} contrary).passes ∧
    ∃ jump ∈ contrary.ops, ∃ k e, Raises 0 jump (Config.begin {} contrary) k e ∧
      {e with passes := e.passes ++ (Config.begin {} contrary).wayOut 0 k} =
        (⟨.alwaysFails .guardFalse (.const (.int 1)), [.rewrite, .peel]⟩ : OptError) := by
  have hmanned : none ∉ (Config.begin {} contrary).passes := by decide
  refine ⟨hmanned, .jumpTo contrary.token [.const (.int 1)], by decide, ?_⟩
  obtain ⟨-, hiff, -⟩ := sendTo_unwinds hmanned 0 (.jumpTo contrary.token [.const (.int 1)])
  obtain ⟨k, e, hraises, he⟩ := (hiff
    ⟨.alwaysFails .guardFalse (.const (.int 1)), [.rewrite, .peel]⟩).1 (by decide +kernel)
  exact ⟨k, e, hraises, he.symm⟩

end TracePeel.Optimizer
