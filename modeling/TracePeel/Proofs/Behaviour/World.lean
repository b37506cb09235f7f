import TracePeel.Optimize.Fold
import TracePeel.Proofs.Recorded
import TracePeel.Proofs.Sink

/-! What operation lists do.

A list runs over the values of its boxes. A pure operation yields what its operands
determine, any other operation is an effect that the rest of the world answers, and a
guard that fails or a final operation leaves the list. `Explains` says that an
environment holds from the start what the list is going to compute: running the list
then changes nothing but the history, and `run_of_explains` shows that this is how the
list runs. -/
namespace TracePeel

/-- The values of all boxes. -/
abbrev Env := Box → Const

namespace Env

def value (V : Env) : Operand → Const
  | .box b => V b
  | .const c => c

@[simp] theorem value_box (V : Env) (b : Box) : V.value (.box b) = V b := rfl

@[simp] theorem value_const (V : Env) (c : Const) : V.value (.const c) = c := rfl

/-- Every box holds a value of its kind. -/
def Kinds (V : Env) : Prop :=
  ∀ b, (V b).kind = b.kind

theorem Kinds.value {V : Env} (h : V.Kinds) (a : Operand) : (V.value a).kind = a.kind := by
  cases a with
  | box b => exact h b
  | const c => rfl

/-- The environment in which a result, if there is one, holds a value made for its kind. -/
def define (V : Env) (result : Option Box) (f : Kind → Const) : Env :=
  fun b => if result = some b then f b.kind else V b

/-- The environment in which some boxes hold some values and all others nothing. -/
def enter (inputs : List Box) (values : List Const) : Env :=
  fun b => ((Bindings.ofList (inputs.zip values)).get? b).getD (.zero b.kind)

end Env

/-- An operation that the world saw. -/
structure Effect where
  opcode : Opcode
  args : List Const
  descr : Option Descr

/-- What happened so far, and whether an exception that a call raised is pending. -/
structure Course where
  history : List Effect
  pending : Bool

/-- How a list is left: by a failing guard or by its final operation. -/
structure Exit where
  opcode : Opcode
  args : List Const
  failArgs : Option (List Const)
  frames : List (List Const)
  token : Option LoopToken
  course : Course

/-- All that a list does not determine: what a pure operation yields where it is not
computed, what the effects so far yield, when a call raises, and the classes of objects. -/
structure World where
  compute : Opcode → Option String → Kind → List Const → Const
  answer : List Effect → Kind → Const
  raises : List Effect → Bool
  classOf : Const → Const
  kind_compute : ∀ o name k args, (compute o name k args).kind = k
  kind_answer : ∀ h k, (answer h k).kind = k

namespace World
variable (w : World)

/-- What a pure operation yields. -/
def computed (o : Opcode) (name : Option String) (k : Kind) (args : List Const) : Const :=
  if o = .sameAs then args.headD (.zero k) else (fold o args).getD (w.compute o name k args)

/-- Whether a guard passes. -/
def passes (o : Opcode) (args : List Const) (pending : Bool) : Bool :=
  match o, args with
  | .guardTrue, a :: _ | .guardNonnull, a :: _ => a.isTrue
  | .guardFalse, a :: _ | .guardIsnull, a :: _ => !a.isTrue
  | .guardValue, a :: b :: _ => a = b
  | .guardClass, a :: c :: _ => a.isTrue && w.classOf a = c
  | .guardNoException, _ => !pending
  | _, _ => true

/-- How the list is left at an operation. -/
def leave (V : Env) (op : Operation) (s : Course) : Exit where
  opcode := op.opcode
  args := op.args.map V.value
  failArgs := op.failArgs.map (·.map V.value)
  frames := op.snapshot.map (·.entries.map V.value)
  token := op.token?
  course := s

/-- The course behind an operation that is no guard. -/
def advance (V : Env) (op : Operation) (s : Course) : Course :=
  if op.opcode.isAlwaysPure then s
  else
    let history := s.history ++ [⟨op.opcode, op.args.map V.value, op.descr⟩]
    ⟨history, s.pending || op.opcode.canRaise && w.raises history⟩

/-- What an operation produces. -/
def result (V : Env) (op : Operation) (s : Course) (k : Kind) : Const :=
  if op.opcode.isAlwaysPure then w.computed op.opcode op.descrName? k (op.args.map V.value)
  else w.answer (w.advance V op s).history k

/-- One operation: the course behind it, or how the list is left there. -/
def outcome (V : Env) (op : Operation) (s : Course) : Except Exit Course :=
  if op.isGuard then
    if w.passes op.opcode (op.args.map V.value) s.pending then .ok s else .error (leave V op s)
  else if op.opcode.isFinal then .error (leave V op s)
  else .ok (w.advance V op s)

/-- Some operations, one after the other. -/
def run : List Operation → Env → Course → Except Exit (Env × Course)
  | [], V, s => .ok (V, s)
  | op :: ops, V, s => do
    let s' ← w.outcome V op s
    run ops (V.define op.result (w.result V op s)) s'

end World

/-! ### Laps -/

/-- Where a list begins: the values of its inputs and the course so far. -/
structure Point where
  values : List Const
  course : Course

/-- Where the next lap begins, when the list was left by its jump to `token`. -/
def Exit.again? (e : Exit) (token : LoopToken) : Option Point :=
  if e.opcode = .jump ∧ e.token = some token then some ⟨e.args, e.course⟩ else none

namespace World
variable (w : World)

/-- How a list runs that begins with some inputs. -/
def lap (inputs : List Box) (ops : List Operation) (p : Point) : Except Exit (Env × Course) :=
  w.run ops (.enter inputs p.values) p.course

/-- One lap, and what comes after it when it ends in the jump back. -/
def around (token : LoopToken) (inputs : List Box) (ops : List Operation)
    (next : Point → Except Exit Point) (p : Point) : Except Exit Point :=
  match w.lap inputs ops p with
  | .ok _ => .ok p
  | .error e =>
    match e.again? token with
    | some q => next q
    | none => .error e

/-- A list that goes round, for so many laps unless it is left before. -/
def laps (token : LoopToken) (inputs : List Box) (ops : List Operation) :
    Nat → Point → Except Exit Point
  | 0 => .ok
  | n + 1 => w.around token inputs ops (laps token inputs ops n)

/-- A trace, iteration by iteration. -/
def runTrace (t : Trace) : Nat → Point → Except Exit Point :=
  w.laps t.token t.inputs t.ops

/-- A loop, iteration by iteration: the preamble is the first. -/
def runLoop (l : Loop) : Nat → Point → Except Exit Point :=
  match l.preamble with
  | none => w.laps l.token l.inputs l.ops
  | some preamble => fun
    | 0 => .ok
    | n + 1 => w.around l.token preamble.inputs preamble.ops (w.laps l.token l.inputs l.ops n)

end World

/-! ### Operations that read the same values -/

/-- The operations differ only in what they call the values that they read. -/
structure Alike (V V' : Env) (op op' : Operation) : Prop where
  opcode : op'.opcode = op.opcode
  args : op'.args.map V'.value = op.args.map V.value
  failArgs : op'.failArgs.map (·.map V'.value) = op.failArgs.map (·.map V.value)
  frames : op'.snapshot.map (·.entries.map V'.value) = op.snapshot.map (·.entries.map V.value)
  token : op'.token? = op.token?
  descr : op.isGuard = false → op'.descr = op.descr

theorem map_value_eq {V V' : Env} {as as' : List Operand}
    (h : List.Forall₂ (fun a a' => V'.value a' = V.value a) as as') :
    as'.map V'.value = as.map V.value := by
  induction h with
  | nil => rfl
  | cons h _ ih => rw [List.map_cons, List.map_cons, h, ih]

namespace Alike
variable {V V' : Env} {op op' : Operation}

theorem isGuard (h : Alike V V' op op') : op'.isGuard = op.isGuard := by
  rw [Operation.isGuard, h.opcode, Operation.isGuard]

theorem leave (h : Alike V V' op op') (s : Course) : World.leave V' op' s = World.leave V op s := by
  simp only [World.leave, h.opcode, h.args, h.failArgs, h.frames, h.token]

theorem advance (h : Alike V V' op op') (hop : op.isGuard = false) (w : World) (s : Course) :
    w.advance V' op' s = w.advance V op s := by
  simp only [World.advance, h.opcode, h.args, h.descr hop]

theorem outcome (h : Alike V V' op op') (w : World) (s : Course) :
    w.outcome V' op' s = w.outcome V op s := by
  unfold World.outcome
  rw [h.isGuard, h.leave, h.opcode, h.args]
  cases hop : op.isGuard with
  | true => rfl
  | false => rw [h.advance hop]

theorem result (h : Alike V V' op op') (hop : op.isGuard = false) (w : World) (s : Course)
    (k : Kind) : w.result V' op' s k = w.result V op s k := by
  unfold World.result
  rw [h.advance hop, h.opcode, h.args, Operation.descrName?, h.descr hop, Operation.descrName?]

end Alike

/-- What an operation is written as reads the same values. -/
theorem Operation.Renders.alike {R : Operand → Operand → Prop} {T : FrameTable} {V V' : Env}
    {op op' : Operation} (h : op.Renders R T op') (hR : ∀ a a', R a a' → V'.value a' = V.value a)
    (hop : op.Plain) : Alike V V' op op' where
  opcode := h.opcode
  args := map_value_eq (h.args.imp hR)
  failArgs := by
    have hfail := h.failArgs
    generalize op.failArgs = fs, op'.failArgs = fs' at hfail ⊢
    cases hfail with
    | none => rfl
    | some hf => exact congrArg some (map_value_eq (hf.imp hR))
  frames := by
    have hframes := h.snapshot
    generalize op.snapshot = s, op'.snapshot = s' at hframes ⊢
    induction hframes with
    | nil => rfl
    | cons hf _ ih => rw [List.map_cons, List.map_cons, ih, map_value_eq (hf.imp hR)]
  token := h.token?
  descr hg := by
    have hdescr := h.descr
    have hno := (hop hg).2
    unfold Operation.guard? at hno
    generalize op.descr = d, op'.descr = d' at hdescr hno ⊢
    cases hdescr with
    | same => rfl
    | guard => cases hno

/-- An operation reads the same values where its boxes hold the same. -/
theorem alike_of_reads {V V' : Env} {op : Operation}
    (h : ∀ b, .box b ∈ op.usedArgs → V' b = V b) : Alike V V' op op := by
  have hvalue : ∀ a ∈ op.usedArgs, V'.value a = V.value a := by
    intro a ha
    cases a with
    | box b => exact h b ha
    | const c => rfl
  refine ⟨rfl, ?_, ?_, ?_, rfl, fun _ => rfl⟩
  · exact List.map_congr_left fun a ha => hvalue a (by simp [Operation.usedArgs, ha])
  · cases hf : op.failArgs with
    | none => rfl
    | some as =>
      exact congrArg some (List.map_congr_left fun a ha =>
        hvalue a (by simp [Operation.usedArgs, hf, ha]))
  · exact List.map_congr_left fun frame hframe => List.map_congr_left fun a ha =>
      hvalue a (List.mem_append_right _ (List.mem_flatMap.2 ⟨frame, hframe, ha⟩))

/-! ### Running in an environment that explains the list -/

namespace World
variable (w : World)

/-- The operations, one after the other, in an environment that stays. -/
def runAt (V : Env) : List Operation → Course → Except Exit Course
  | [], s => .ok s
  | op :: ops, s => do runAt V ops (← w.outcome V op s)

/-- The environment holds what each operation that is reached is going to produce. -/
def Explains (V : Env) : List Operation → Course → Prop
  | [], _ => True
  | op :: ops, s => ∀ s', w.outcome V op s = .ok s' →
    (∀ r, op.result = some r → V r = w.result V op s r.kind) ∧ Explains V ops s'

theorem runAt_append (V : Env) (xs ys : List Operation) (s : Course) :
    w.runAt V (xs ++ ys) s = w.runAt V xs s >>= w.runAt V ys := by
  induction xs generalizing s with
  | nil => rfl
  | cons op xs ih =>
    simp only [List.cons_append, runAt, bind_assoc]
    exact congrArg _ (funext ih)

theorem explains_append {V : Env} {xs ys : List Operation} {s : Course} :
    w.Explains V (xs ++ ys) s ↔
      w.Explains V xs s ∧ ∀ s', w.runAt V xs s = .ok s' → w.Explains V ys s' := by
  induction xs generalizing s with
  | nil => simp [Explains, runAt]
  | cons op xs ih =>
    simp only [List.cons_append, Explains, runAt, ih]
    constructor
    · intro h
      refine ⟨fun s' hs => ⟨(h s' hs).1, (h s' hs).2.1⟩, fun s'' hs => ?_⟩
      obtain ⟨s', hs', hrun⟩ := Verify.bind_ok.1 hs
      exact (h s' hs').2.2 s'' hrun
    · rintro ⟨h₁, h₂⟩ s' hs
      exact ⟨(h₁ s' hs).1, (h₁ s' hs).2, fun s'' hrun =>
        h₂ s'' (Verify.bind_ok.2 ⟨s', hs, hrun⟩)⟩

theorem run_append (xs ys : List Operation) (V : Env) (s : Course) :
    w.run (xs ++ ys) V s = w.run xs V s >>= fun r => w.run ys r.1 r.2 := by
  induction xs generalizing V s with
  | nil => rfl
  | cons op xs ih =>
    simp only [List.cons_append, run, bind_assoc]
    exact congrArg _ (funext fun s' => ih ..)

/-- Running ends as foreseen, with the boxes that are defined holding what was foreseen. -/
inductive Meets (defined : List Box) (V' : Env) :
    Except Exit (Env × Course) → Except Exit Course → Prop
  | left {e : Exit} : Meets defined V' (.error e) (.error e)
  | through {V : Env} {s : Course} : (∀ b ∈ defined, V b = V' b) →
      Meets defined V' (.ok (V, s)) (.ok s)

theorem Meets.congr {d d' : List Box} {V' : Env} (h : ∀ b, b ∈ d' → b ∈ d)
    {x : Except Exit (Env × Course)} {y : Except Exit Course} (hxy : Meets d V' x y) :
    Meets d' V' x y := by
  cases hxy with
  | left => exact .left
  | through hV => exact .through fun b hb => hV b (h b hb)

variable {w : World} {V V' : Env} {defined : List Box}

/-- An operation that fits reads the same where what is defined is the same. -/
theorem alike_of_fits {op : Operation} (hop : op.Fits defined)
    (hV : ∀ b ∈ defined, V b = V' b) : Alike V V' op op :=
  alike_of_reads fun b hb => (hV b (hop.reads b hb)).symm

theorem isGuard_of_result {op : Operation} (hop : op.Fits defined) {r : Box}
    (hr : op.result = some r) : op.isGuard = false := by
  cases hg : op.isGuard with
  | false => rfl
  | true =>
    have := (hop.produced r hr).1
    rw [Opcode.hasResult_eq_false_of_isGuard hg] at this
    cases this

/-- A list that goes on from an environment that agrees with what is foreseen. -/
theorem define_agrees {op : Operation} (hop : op.Fits defined) {s : Course}
    (hV : ∀ b ∈ defined, V b = V' b)
    (hr : ∀ r, op.result = some r → V' r = w.result V' op s r.kind) :
    ∀ b ∈ op.result.toList ++ defined, V.define op.result (w.result V op s) b = V' b := by
  intro b hb
  unfold Env.define
  split
  next he =>
    rw [hr b he, (alike_of_fits hop hV).result (isGuard_of_result hop he)]
  next hne =>
    rcases List.mem_append.1 hb with hb | hb
    · exact absurd (by simpa using hb) hne
    · exact hV b hb

theorem run_of_explains {ops : List Operation} {s : Course} (h : Accepts defined ops)
    (hV : ∀ b ∈ defined, V b = V' b) (he : w.Explains V' ops s) :
    Meets (defined ++ results ops) V' (w.run ops V s) (w.runAt V' ops s) := by
  induction ops generalizing defined V s with
  | nil => exact .through (by simpa using hV)
  | cons op ops ih =>
    obtain ⟨hop, _, hrest⟩ := h
    have halike := alike_of_fits hop hV
    unfold run runAt
    rw [halike.outcome]
    cases hs : w.outcome V op s with
    | error e => exact .left
    | ok s' =>
      obtain ⟨hr, he'⟩ := he s' (by rw [halike.outcome, hs])
      have := ih hrest (define_agrees hop hV hr) he'
      refine this.congr fun b hb => ?_
      simp only [List.mem_append, results_cons] at hb ⊢
      tauto

theorem kind_result {op : Operation} (hop : op.Fits defined) (hV : V.Kinds) {r : Box}
    (hr : op.result = some r) (s : Course) : (w.result V op s r.kind).kind = r.kind := by
  obtain ⟨_, hkind, _⟩ := hop.produced r hr
  unfold result
  split
  next hpure =>
    unfold computed
    split
    next hsame =>
      have hlen := hop.arity 1 (by simp [hsame, Opcode.arity?])
      have hkinds := hop.kinds
      obtain ⟨a, hargs⟩ := List.length_eq_one_iff.1 hlen
      simp only [Verify.kindsAgree, hsame, hargs, hr, beq_iff_eq] at hkinds
      rw [hargs]
      exact (hV.value a).trans hkinds
    next =>
      cases hf : fold op.opcode (op.args.map V.value) with
      | none => exact w.kind_compute ..
      | some c => exact hkind _ (kind_fold hf)
  next => exact w.kind_answer ..

theorem kinds_define {op : Operation} (hop : op.Fits defined) (hV : V.Kinds) (s : Course) :
    (V.define op.result (w.result V op s)).Kinds := by
  intro b
  unfold Env.define
  split
  next he => exact kind_result hop hV he s
  next => exact hV b

/-- There is an environment that holds from the start what the list is going to compute. -/
theorem exists_explains {ops : List Operation} (h : Accepts defined ops) (hV : V.Kinds)
    (s : Course) :
    ∃ V' : Env, V'.Kinds ∧ (∀ b ∈ defined, V b = V' b) ∧ w.Explains V' ops s := by
  induction ops generalizing defined V s with
  | nil => exact ⟨V, hV, fun _ _ => rfl, trivial⟩
  | cons op ops ih =>
    obtain ⟨hop, _, hrest⟩ := h
    cases hs : w.outcome V op s with
    | error e =>
      refine ⟨V, hV, fun _ _ => rfl, fun s' hs' => ?_⟩
      rw [hs] at hs'
      cases hs'
    | ok s' =>
      obtain ⟨V', hV', hagree, he⟩ := ih hrest (kinds_define hop hV s) s'
      have hold : ∀ b ∈ defined, V b = V' b := by
        intro b hb
        rw [← hagree b (List.mem_append_right _ hb), Env.define, if_neg]
        exact fun he => (hop.produced b he).2.2 hb
      have halike := alike_of_fits hop hold
      refine ⟨V', hV', hold, fun s'' hs'' => ?_⟩
      rw [halike.outcome, hs] at hs''
      cases hs''
      refine ⟨fun r hr => ?_, he⟩
      rw [halike.result (isGuard_of_result hop hr), ← hagree r (by simp [hr]), Env.define, if_pos hr]

/-! ### Lists that end -/

/-- A final operation leaves the list. -/
theorem outcome_of_isFinal {op : Operation} (hop : op.opcode.isFinal = true) (s : Course) :
    w.outcome V op s = .error (leave V op s) := by
  have hguard : op.isGuard = false := Opcode.isGuard_eq_false_of_isFinal hop
  simp [outcome, hguard, hop]

/-- A list that ends in a final operation is left as foreseen. -/
theorem run_final {body : List Operation} {last : Operation} {s : Course}
    (h : Accepts defined body) (hlast : last.Fits (defined ++ results body))
    (hfinal : last.opcode.isFinal = true) (hV : ∀ b ∈ defined, V b = V' b)
    (he : w.Explains V' body s) :
    w.run (body ++ [last]) V s =
      w.runAt V' body s >>= fun s' => .error (leave V' last s') := by
  have hmeets := run_of_explains h hV he
  rw [run_append]
  generalize w.run body V s = x, w.runAt V' body s = y at hmeets
  cases hmeets with
  | left => rfl
  | @through V₁ s₁ hV₁ =>
    have hleave := (alike_of_fits hlast hV₁).leave s₁
    show (do let s' ← w.outcome V₁ last s₁; _) = _
    rw [outcome_of_isFinal hfinal]
    exact congrArg Except.error hleave.symm

end World
end TracePeel
