import TracePeel.Optimize.Loop
import TracePeel.Proofs.Keeping

/-! A straight list through the chain.

Up to the jump that closes the loop, each operation is dealt with by the passes behind
peeling, whether peeling stands in front of them or not. `processed_ends` follows a
list of such operations; no pass is missing or run twice, so only a guard that can
never pass stops it. -/
namespace TracePeel

namespace Config

/-- The chain once every pass was given what it needs. -/
def chain (c : Config) (t : Trace) : List Stage :=
  (if c.peel then [⟨some .peel, { recorded := t.ops }⟩] else []) ++
    c.behind.map fun p => ⟨some p, {}⟩

/-- The optimizer when the first operation is sent. -/
def begin (c : Config) (t : Trace) : Optimizer :=
  {c.optimizer t with chain := (c.chain t).toArray, pending := []}

end Config

namespace Optimizer

theorem setUpAll_run (c : Config) (t : Trace) :
    setUpAll.run.run (c.optimizer t) =
      (.ok (), {c.optimizer t with chain := (c.chain t).toArray}) := by
  obtain ⟨peel, rewrite, virtualize, verify, maxOps⟩ := c
  cases peel <;> cases rewrite <;> cases virtualize <;> rfl

/-- Sending all recorded operations is sending them one after the other. -/
theorem run_eq (c : Config) (t : Trace) :
    run.run.run (c.optimizer t) = (t.ops.forM (sendTo 0)).run.run (c.begin t) := by
  unfold run
  rw [run_bind, setUpAll_run]
  rfl

/-- The state before anything was sent. -/
theorem working_begin (c : Config) {t : Trace} (h : t.Recorded) :
    Working t.frameTable t.inputs [] t.inputs (c.begin t) where
  built := {
    table := {
      inRange := by rintro _ _ ⟨⟩
      slots := by rintro _ ⟨⟩
      kind := by rintro _ _ ⟨⟩
      keeps := by rintro _ _ ⟨⟩
      own := by rintro _ ⟨⟩
      met := by rintro _ _ ⟨⟩
      waiting := fun b hb _ => List.mem_append_left _ hb
      subset := fun b hb => (List.mem_append.1 hb).elim id (by rintro ⟨⟩)
      begun := by rintro _ ⟨⟩
      later := by rintro _ _ _ _ ⟨⟩ }
    accepts := trivial
    neat := by rintro _ ⟨⟩
    marked := by rintro _ ⟨⟩ }
  known := by rintro _ _ ⟨⟩
  ids b hb := h.boxes b (by simp [Trace.boxes, hb])
  sink := .empty h.drawn.below true

/-! ### One operation -/

/-- The chain holds the passes of the settings. -/
def Ready (c : Config) (o : Optimizer) : Prop :=
  o.chain.toList.map (·.pass) = c.passes.map some

theorem ready_begin (c : Config) (t : Trace) : Ready c (c.begin t) := by
  obtain ⟨peel, rewrite, virtualize, verify, maxOps⟩ := c
  cases peel <;> cases rewrite <;> cases virtualize <;> rfl

theorem passes_eq (c : Config) :
    c.passes = (if c.peel then [.peel] else []) ++ c.behind := by
  simp [Config.passes, Config.behind, List.append_assoc]

theorem peel_not_mem_behind (c : Config) : Pass.peel ∉ c.behind := by
  unfold Config.behind
  cases c.rewrite <;> cases c.virtualize <;> decide

theorem rewrite_of_mem_behind {c : Config} (h : Pass.rewrite ∈ c.behind) : c.rewrite = true := by
  unfold Config.behind at h
  revert h
  cases c.rewrite <;> cases c.virtualize <;> decide

/-- A chain whose last stages hold the passes, whatever stands in front. -/
theorem inPlace_of_append {chain : Array Stage} {front : List (Option Pass)} {ps : List Pass}
    (h : chain.toList.map (·.pass) = front ++ ps.map some) : InPlace ps chain := by
  have hsize : chain.size = front.length + ps.length := by
    have := congrArg List.length h
    simpa using this
  refine ⟨by omega, fun i p hp => ?_⟩
  have hi : (chain.toList.map (·.pass))[chain.size - ps.length + i]? = some (some p) := by
    rw [h, hsize, Nat.add_sub_cancel, List.getElem?_append_right (by omega)]
    simp [hp]
  rw [List.getElem?_map, Array.getElem?_toList] at hi
  rw [Option.map_eq_some_iff] at hi
  obtain ⟨s, hs, hsp⟩ := hi
  rw [hs, Option.bind_some, hsp]

/-- Where there is peeling, it stands first. -/
theorem Ready.eq_cons {c : Config} {o : Optimizer} (h : Ready c o) (hpeel : c.peel = true) :
    ∃ notes rest, o.chain = (⟨some .peel, notes⟩ :: rest).toArray ∧
      rest.map (·.pass) = c.behind.map some := by
  rw [Ready, passes_eq, hpeel] at h
  cases hl : o.chain.toList with
  | nil => simp [hl] at h
  | cons s rest =>
    obtain ⟨pass, notes⟩ := s
    simp only [hl, List.map_cons, if_true, List.singleton_append, List.cons.injEq] at h
    refine ⟨notes, rest, ?_, h.2⟩
    rw [← h.1, ← hl]

section
variable {C : OptCause → Prop}

/-- An operation at the head of a chain that begins with peeling. -/
theorem head_ends {c : Config} {o : Optimizer} {notes : Peeling} {rest : List Stage}
    (hchain : o.chain = (⟨some .peel, notes⟩ :: rest).toArray)
    (hrest : rest.map (·.pass) = c.behind.map some) {op : Operation}
    {Q : Unit → Optimizer → Prop}
    (h : Ends (fun e => C e.cause) (Peel.step (send c.behind.length) 0 op)
      {o with chain := (⟨none, notes⟩ :: rest).toArray, cursor := 0} fun _ o' =>
        Q () {o' with
          cursor := o.cursor, chain := o'.chain.modify 0 fun s => {s with pass := some .peel}}) :
    Ends (fun e => C e.cause) (sendTo 0 op) o Q := by
  have hlen : rest.length = c.behind.length := by simpa using congrArg List.length hrest
  unfold sendTo
  rw [ends_bind, ends_get]
  have hsize : o.chain.size - 0 = c.behind.length + 1 := by simp [hchain, hlen]
  have hstage : o.chain.size - (c.behind.length + 1) = 0 := by simp [hchain, hlen]
  have hfirst : o.chain[0]?.bind (·.pass) = some .peel := by rw [hchain]; rfl
  have hmodify : (o.chain.modify 0 fun s => {s with pass := none}) =
      (⟨none, notes⟩ :: rest).toArray := by rw [hchain]; rfl
  rw [hsize, send, ends_bind, ends_get]
  simp only [hstage, hfirst]
  apply ends_caught
  rw [hmodify]
  exact h

variable {c : Config} (hC : c.rewrite = true → ∀ cause, cause.isGuardFailure = true → C cause)
include hC

theorem behind_ends {o : Optimizer} {front : List (Option Pass)}
    (hchain : o.chain.toList.map (·.pass) = front ++ c.behind.map some)
    (hr : o.values.InRange) (op : Operation) :
    Ends (fun e => C e.cause) (send c.behind.length op) o fun _ o' =>
      Handled c.behind op o o' :=
  send_ends (fun h => hC (rewrite_of_mem_behind h)) (peel_not_mem_behind c)
    (inPlace_of_append hchain) hr

/-- An operation that is not the jump back goes to the passes behind peeling. -/
theorem sendTo_ends {o : Optimizer} (hready : Ready c o)
    (hr : o.values.InRange) {op : Operation}
    (hopen : c.peel = true → op.closes o.token = false) :
    Ends (fun e => C e.cause) (sendTo 0 op) o fun _ o' => Handled c.behind op o o' := by
  cases hpeel : c.peel with
  | false =>
    unfold sendTo
    rw [ends_bind, ends_get]
    rw [Ready, passes_eq, hpeel] at hready
    have hsize : o.chain.size - 0 = c.behind.length := by
      simpa using congrArg List.length hready
    rw [hsize]
    have hready' : o.chain.toList.map (·.pass) = [] ++ c.behind.map some := by simpa using hready
    exact behind_ends hC hready' hr op
  | true =>
    obtain ⟨notes, rest, hchain, hrest⟩ := hready.eq_cons hpeel
    refine head_ends hchain hrest ?_
    unfold Peel.step
    rw [ends_bind, ends_get]
    simp only [hopen hpeel, Bool.false_eq_true, if_false]
    have hchain' : (⟨none, notes⟩ :: rest).toArray.toList.map Stage.pass =
        [none] ++ c.behind.map some := by simp [hrest]
    have hinner := behind_ends hC
      (o := {o with chain := (⟨none, notes⟩ :: rest).toArray, cursor := 0}) hchain' hr op
    refine hinner.mono fun _ o' h => ?_
    refine .of_placed ⟨_, _, o', h, ?_⟩
    rw [h.keeps.chain, hchain]
    rfl

end

/-! ### A list of operations -/

/-- One operation after the other is dealt with. -/
inductive Processed (ps : List Pass) : List Operation → Optimizer → Optimizer → Prop
  | nil {o : Optimizer} : Processed ps [] o o
  | cons {op : Operation} {ops : List Operation} {o o₁ o' : Optimizer} :
      Handled ps op o o₁ → Processed ps ops o₁ o' → Processed ps (op :: ops) o o'

theorem Processed.keeps {ps : List Pass} {ops : List Operation} {o o' : Optimizer}
    (h : Processed ps ops o o') : Keeps o o' := by
  induction h with
  | nil => exact .refl _
  | cons h _ ih => exact h.keeps.trans ih

theorem Processed.exists_last {ps : List Pass} {ops : List Operation} {op : Operation}
    {o o' : Optimizer} (h : Processed ps (ops ++ [op]) o o') :
    ∃ o₁, Processed ps ops o o₁ ∧ Handled ps op o₁ o' := by
  induction ops generalizing o with
  | nil =>
    cases h with
    | cons hs hnil =>
      cases hnil
      exact ⟨o, .nil, hs⟩
  | cons op' ops ih =>
    cases h with
    | cons hs hrest =>
      obtain ⟨o₁, hops, hlast⟩ := ih hrest
      exact ⟨o₁, .cons hs hops, hlast⟩

/-- The operations may come one behind the other. -/
structure Coming (T : FrameTable) (defined : List Box) (nextGuard nextBox : Nat)
    (ops : List Operation) : Prop where
  accepts : Accepts defined ops
  neat : ∀ op ∈ ops, op.Neat nextGuard T
  number : ∀ r ∈ results ops, r.id < nextBox

theorem Coming.head {T : FrameTable} {defined : List Box} {n m : Nat} {op : Operation}
    {ops : List Operation} (h : Coming T defined n m (op :: ops)) : op.Comes T defined n m where
  fits := h.accepts.1
  ordinary := h.accepts.2.1
  neat := h.neat op (List.mem_cons_self ..)
  number r hr := h.number r (by simp [hr])

theorem Coming.tail {T T' : FrameTable} {defined : List Box} {n m : Nat} {op : Operation}
    {ops : List Operation} (hT : T.Extends T') (h : Coming T defined n m (op :: ops)) :
    Coming T' (op.result.toList ++ defined) n m ops where
  accepts := h.accepts.2.2
  neat op' hop' := (h.neat op' (.tail _ hop')).mono (Nat.le_refl _) hT
  number r hr := h.number r (by simp [hr])

theorem Coming.take {T : FrameTable} {defined : List Box} {n m : Nat} {ops : List Operation}
    (h : Coming T defined n m ops) (k : Nat) : Coming T defined n m (ops.take k) := by
  have hops := List.take_append_drop k ops
  refine ⟨(accepts_append.1 (hops.symm ▸ h.accepts)).1,
    fun op hop => h.neat op (List.mem_of_mem_take hop), fun r hr => h.number r ?_⟩
  rw [← hops, results_append]
  exact List.mem_append_left _ hr

theorem Working.congr {T : FrameTable} {base start defined defined' : List Box} {o : Optimizer}
    (hd : ∀ b, b ∈ defined ↔ b ∈ defined') (h : Working T base start defined o) :
    Working T base start defined' o :=
  { h with
    built := { h.built with table := h.built.table.congr hd fun _ => .rfl }
    ids := fun b hb => h.ids b ((hd b).2 hb) }

/-- Operations that come one behind the other are dealt with. -/
theorem Processed.working {c : Config} {T : FrameTable} {base start defined : List Box}
    {ops : List Operation} {o o' : Optimizer} (h : Processed c.behind ops o o')
    (hw : Working T base start defined o)
    (hops : Coming T defined o.pool.nextGuard o.pool.nextBox ops) :
    ∃ T', T.Extends T' ∧ Working T' base start (defined ++ results ops) o' ∧ Extends o o' := by
  induction h generalizing T defined with
  | nil => exact ⟨T, .refl T, by simpa using hw, .refl _⟩
  | @cons op ops o o₁ o' hop _ ih =>
    obtain ⟨T₁, hT₁, hw₁, he₁⟩ := sends_handled c hw hops.head hop
    have hk := hop.keeps
    obtain ⟨T₂, hT₂, hw₂, he₂⟩ := ih hw₁ (by
      rw [hk.nextGuard, hk.nextBox]
      exact hops.tail hT₁)
    refine ⟨T₂, hT₁.trans hT₂, hw₂.congr fun b => ?_, he₁.trans he₂⟩
    simp only [List.mem_append, results_cons]
    tauto

/-- Operations none of which is the jump back are dealt with or refused. -/
theorem processed_ends {C : OptCause → Prop}
    (hC : ∀ cause, cause.isGuardFailure = true → C cause) {c : Config} {T : FrameTable}
    {base start defined : List Box} {ops : List Operation} {o : Optimizer} (hready : Ready c o)
    (hw : Working T base start defined o)
    (hops : Coming T defined o.pool.nextGuard o.pool.nextBox ops) :
    Ends (fun e => C e.cause) (ops.forM (sendTo 0)) o fun _ o' =>
      Processed c.behind ops o o' := by
  induction ops generalizing T defined o with
  | nil => exact .nil
  | cons op ops ih =>
    show Ends _ (sendTo 0 op >>= fun _ => ops.forM (sendTo 0)) o _
    rw [ends_bind]
    refine (sendTo_ends (fun _ => hC) hready hw.inRange fun _ =>
      Operation.closes_of_not_final hops.accepts.2.1 _).mono
      fun _ o₁ h₁ => ?_
    have hk := h₁.keeps
    obtain ⟨T₁, hT₁, hw₁, _⟩ := sends_handled c hw hops.head h₁
    refine (ih (by rwa [Ready, hk.chain]) hw₁ ?_).mono fun _ o' h => .cons h₁ h
    rw [hk.nextGuard, hk.nextBox]
    exact hops.tail hT₁

end Optimizer
end TracePeel
