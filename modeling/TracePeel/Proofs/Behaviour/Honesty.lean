import TracePeel.Proofs.Behaviour.World

/-! Where a guard teaches no more than its passing shows.

Behind `guard_true` an integer is taken for one, behind `guard_isnull` a value for the zero
of its kind, and no exception is taken to be pending when a list begins. Each holds of most
values and of most beginnings, and not of all: `Honest` says of one operation where it
does, `HonestRun` of all that a list comes to, and `HonestLaps` of so many iterations. -/
namespace TracePeel

/-- What a guard teaches beyond its passing is true: an integer that is no zero is one, a
value that is no object is the zero of its kind, and nothing is pending at the beginning.
`called` says whether a call was made since the list began. -/
structure Honest (called : Bool) (V : Env) (op : Operation) (s : Course) : Prop where
  truth : op.opcode = .guardTrue → ∀ a rest, op.args = a :: rest → a.kind = .int →
    (V.value a).isTrue = true → V.value a = .ofBool true
  null : op.opcode = .guardIsnull → ∀ a rest, op.args = a :: rest →
    (V.value a).isTrue = false → V.value a = .zero a.kind
  raise : op.opcode = .guardNoException → called = false → s.pending = false

/-- The first operand that an operation is written with is one of the same value. -/
theorem Alike.exists_head {V V' : Env} {op op' : Operation} (h : Alike V V' op op')
    (hk : op'.args.map (·.kind) = op.args.map (·.kind)) {a' : Operand} {rest' : List Operand}
    (ha : op'.args = a' :: rest') :
    ∃ a rest, op.args = a :: rest ∧ V'.value a' = V.value a ∧ a'.kind = a.kind := by
  have hargs := h.args
  rw [ha] at hargs hk
  cases hop : op.args with
  | nil => simp [hop] at hargs
  | cons a rest =>
    rw [hop, List.map_cons, List.map_cons, List.cons.injEq] at hargs hk
    exact ⟨a, rest, rfl, hargs.1, hk.1⟩

theorem Honest.alike {called : Bool} {V V' : Env} {op op' : Operation} {s : Course}
    (h : Honest called V op s) (ha : Alike V V' op op')
    (hk : op'.args.map (·.kind) = op.args.map (·.kind)) : Honest called V' op' s where
  truth hop a' rest' hargs hkind := by
    obtain ⟨a, rest, hargs, hvalue, hsame⟩ := ha.exists_head hk hargs
    rw [hvalue]
    exact h.truth (ha.opcode.symm.trans hop) a rest hargs (hsame.symm.trans hkind)
  null hop a' rest' hargs := by
    obtain ⟨a, rest, hargs, hvalue, hsame⟩ := ha.exists_head hk hargs
    rw [hvalue, hsame]
    exact h.null (ha.opcode.symm.trans hop) a rest hargs
  raise hop := h.raise (ha.opcode.symm.trans hop)

namespace World
variable (w : World)

/-- Every operation that a list comes to is honest. -/
def HonestRun : Bool → List Operation → Env → Course → Prop
  | _, [], _, _ => True
  | called, op :: ops, V, s => Honest called V op s ∧ ∀ s', w.outcome V op s = .ok s' →
      HonestRun (called || op.opcode.canRaise) ops (V.define op.result (w.result V op s)) s'

/-- Every operation that so many iterations of a trace come to is honest. -/
def HonestLaps (t : Trace) : Nat → Point → Prop
  | 0, _ => True
  | n + 1, p => w.HonestRun false t.ops (.enter t.inputs p.values) p.course ∧
      ∀ e q, w.lap t.inputs t.ops p = .error e → e.again? t.token = some q → HonestLaps t n q

/-- Every operation that a list comes to is honest, in an environment that stays. -/
def HonestAt (V : Env) : Bool → List Operation → Course → Prop
  | _, [], _ => True
  | called, op :: ops, s => Honest called V op s ∧ ∀ s', w.outcome V op s = .ok s' →
      HonestAt V (called || op.opcode.canRaise) ops s'

variable {w : World} {V V' : Env} {defined : List Box} {ops rest : List Operation} {s : Course}

/-- A run is as honest as it was foreseen to be. -/
theorem HonestRun.foreseen {called : Bool} (h : w.HonestRun called (ops ++ rest) V s)
    (ha : Accepts defined ops) (hV : ∀ b ∈ defined, V b = V' b) (he : w.Explains V' ops s) :
    w.HonestAt V' called ops s := by
  induction ops generalizing defined called V s with
  | nil => trivial
  | cons op ops ih =>
    obtain ⟨hop, _, hrest⟩ := ha
    have halike := alike_of_fits hop hV
    refine ⟨h.1.alike halike rfl, fun s' hs' => ?_⟩
    obtain ⟨hr, he'⟩ := he s' hs'
    rw [halike.outcome] at hs'
    exact ih (h.2 s' hs') hrest (define_agrees hop hV hr) he'

/-! ### Environments that agree on a list -/

/-- A list does the same where its boxes hold the same. -/
theorem runAt_congr (ha : Accepts defined ops)
    (hV : ∀ b ∈ defined ++ results ops, V b = V' b) (s : Course) :
    w.runAt V ops s = w.runAt V' ops s := by
  induction ops generalizing defined s with
  | nil => rfl
  | cons op ops ih =>
    obtain ⟨hop, _, hrest⟩ := ha
    have halike := alike_of_fits hop fun b hb => hV b (List.mem_append_left _ hb)
    unfold runAt
    rw [halike.outcome]
    have hrest' : ∀ s', w.runAt V ops s' = w.runAt V' ops s' :=
      ih hrest fun b hb => hV b (mem_append_results_cons.2 hb)
    exact congrArg _ (funext hrest')

theorem Explains.congr (he : w.Explains V ops s) (ha : Accepts defined ops)
    (hV : ∀ b ∈ defined ++ results ops, V b = V' b) : w.Explains V' ops s := by
  induction ops generalizing defined s with
  | nil => trivial
  | cons op ops ih =>
    obtain ⟨hop, _, hrest⟩ := ha
    have halike := alike_of_fits hop fun b hb => hV b (List.mem_append_left _ hb)
    intro s' hs'
    rw [halike.outcome] at hs'
    obtain ⟨hr, he'⟩ := he s' hs'
    refine ⟨fun r hres => ?_, ih he' hrest fun b hb => hV b (mem_append_results_cons.2 hb)⟩
    rw [halike.result (isGuard_of_result hop hres), ← hr r hres]
    exact (hV r (by simp [hres])).symm

theorem HonestAt.congr {called : Bool} (h : w.HonestAt V called ops s) (ha : Accepts defined ops)
    (hV : ∀ b ∈ defined ++ results ops, V b = V' b) : w.HonestAt V' called ops s := by
  induction ops generalizing defined called s with
  | nil => trivial
  | cons op ops ih =>
    obtain ⟨hop, _, hrest⟩ := ha
    have hagree : ∀ b ∈ defined, V b = V' b := fun b hb => hV b (List.mem_append_left _ hb)
    refine ⟨h.1.alike (alike_of_fits hop hagree) rfl, fun s' hs' => ?_⟩
    rw [(alike_of_fits hop hagree).outcome] at hs'
    exact ih (h.2 s' hs') hrest fun b hb => hV b (mem_append_results_cons.2 hb)

end World
end TracePeel
