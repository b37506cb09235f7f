import Mathlib.Data.List.Basic
import Mathlib.Logic.Function.Basic
import TracePeel.Operation

/-! Lists that run over a heap.

A value is a constant or an object that the list made, and an object is told by the box it
was made for. What is not settled by the list itself, the world answers: pure operations from
their operands, guards and calls from the part of the heap that is in reach. A call may change
that part, and no other; nothing in the world makes up an object of the list that it was not
given. What a run shows are its calls, its guards and how it was left, each with what was in
reach there. -/
namespace TracePeel.Machine

inductive Value where
  | const (c : Const)
  | made (r : Box)
  deriving DecidableEq

/-- What was written to the fields of each value. A field has the name of its descriptor. -/
abbrev Heap := Value → Option String → Option Value

/-- What some values lead to. -/
inductive Reached (heap : Heap) (start : Value → Prop) : Value → Prop
  | start {a : Value} : start a → Reached heap start a
  | field {a b : Value} {name : Option String} : Reached heap start a → heap a name = some b →
      Reached heap start b

/-- A part of a heap that leads to nothing outside it. -/
@[ext]
structure View where
  seen : Value → Prop
  holds : Heap
  closed : ∀ a name b, seen a → holds a name = some b → seen b

open Classical in
/-- The part of a heap that some values lead to. -/
noncomputable def view (heap : Heap) (start : Value → Prop) : View where
  seen := Reached heap start
  holds a name := if Reached heap start a then heap a name else none
  closed a name b ha hb := by
    rw [if_pos ha] at hb
    exact .field ha hb

/-- A constant, or one of the given values. -/
def Given (p : Value → Prop) (a : Value) : Prop :=
  (∃ c, a = .const c) ∨ p a

/-- What a call answers: its result, what the part of the heap that it saw holds afterwards,
and the world behind it. -/
structure Reply (σ : Type) where
  result : Value
  heap : Heap
  outside : σ

/-- What answers all that a list does not settle, itself in one of the states `σ`. -/
structure Outside (σ : Type) where
  compute : Opcode → Option Descr → Kind → List Value → Value
  test : σ → Opcode → List Value → View → Bool
  call : σ → Option Descr → Option Kind → List Value → View → Reply σ
  given_compute : ∀ o d k args, Given (· ∈ args) (compute o d k args)
  given_result : ∀ w d k args v, Given v.seen (call w d k args v).result
  given_heap : ∀ w d k args v a name b, v.seen a → (call w d k args v).heap a name = some b →
    Given v.seen b

/-- Calls that change nothing and give zero, pure operations that give one, and guards that
fail on a constant that is not true. -/
def Outside.idle : Outside Unit where
  compute _ _ _ _ := .const (.int 1)
  test
    | _, _, .const c :: _, _ => c.isTrue
    | _, _, _, _ => true
  call _ _ k _ v := ⟨.const (.zero (k.getD .int)), v.holds, ()⟩
  given_compute _ _ _ _ := .inl ⟨_, rfl⟩
  given_result _ _ _ _ _ := .inl ⟨_, rfl⟩
  given_heap _ _ _ _ v a name b ha hb := .inr (v.closed a name b ha hb)

/-- Where a run stands. What the start or a call could reach is exposed for good. -/
structure State (σ : Type) where
  env : Box → Value
  heap : Heap
  exposed : Value → Prop
  outside : σ

namespace State
variable {σ : Type} (s : State σ)

/-- Constants in all boxes and fields; all constants are exposed. -/
def start (env : Box → Const) (heap : Const → Option String → Option Const) (outside : σ) :
    State σ where
  env b := .const (env b)
  heap
    | .const c, name => (heap c name).map .const
    | .made _, _ => none
  exposed a := ∃ c, a = .const c
  outside

def value : Operand → Value
  | .box b => s.env b
  | .const c => .const c

/-- The part of the heap that some values and the exposed ones lead to. -/
noncomputable def sees (values : List Value) : View :=
  view s.heap fun a => a ∈ values ∨ s.exposed a

def define (result : Option Box) (f : Box → Value) : State σ :=
  {s with env := fun b => if result = some b then f b else s.env b}

/-- A new object, none of whose fields was written. -/
def make : Option Box → State σ
  | some r => {s.define (some r) .made with
      heap := Function.update s.heap (.made r) fun _ => none}
  | none => s

def write (name : Option String) : List Value → State σ
  | a :: b :: _ => {s with
      heap := Function.update s.heap a (Function.update (s.heap a) name (some b))}
  | _ => s

/-- What a field holds. One that was not written reads as zero. -/
def read (name : Option String) (args : List Value) (kind : Kind) : Value :=
  (args.head?.bind (s.heap · name)).getD (.const (.zero kind))

open Classical in
/-- The state behind a call that saw a part of the heap. -/
noncomputable def answered (result : Option Box) (v : View) (reply : Reply σ) : State σ where
  env := (s.define result fun _ => reply.result).env
  heap a := if v.seen a then reply.heap a else s.heap a
  exposed := v.seen
  outside := reply.outside

end State

/-- What a run shows. -/
inductive Observation where
  | called (descr : Option Descr) (args : List Value) (v : View)
  | guarded (opcode : Opcode) (number : Option Nat) (args : List Value)
      (failArgs : Option (List Value)) (frames : List (List Value)) (v : View) (passed : Bool)
  | left (opcode : Opcode) (token : Option LoopToken) (args : List Value) (v : View)

/-- What was shown up to some point and where the run stands there, unless it was left. -/
abbrev Progress (σ : Type) := List Observation × Option (State σ)

/-- A run goes on unless it was left. -/
def Progress.andThen {σ : Type} : Progress σ → (State σ → Progress σ) → Progress σ
  | (shown, none), _ => (shown, none)
  | (shown, some s), f => (shown ++ (f s).1, (f s).2)

/-- The ways in which operations act. -/
inductive Act where
  | make
  | write
  | read
  | call
  | test
  | leave
  | compute
  deriving DecidableEq

def act (o : Opcode) : Act :=
  match o with
  | .new => .make
  | .setfieldGc => .write
  | .getfieldGc | .getfieldGcPure => .read
  | .call => .call
  | .jump | .finish => .leave
  | o => if o.isGuard then .test else .compute

theorem eq_new_of_act {o : Opcode} (h : act o = .make) : o = .new := by
  revert h
  cases o <;> simp [act, Opcode.isGuard]

theorem eq_setfieldGc_of_act {o : Opcode} (h : act o = .write) : o = .setfieldGc := by
  revert h
  cases o <;> simp [act, Opcode.isGuard]

theorem isGuard_iff_act {o : Opcode} : o.isGuard = true ↔ act o = .test := by
  cases o <;> simp [act, Opcode.isGuard]

namespace Outside
variable {σ : Type} (w : Outside σ)

noncomputable def step (op : Operation) (s : State σ) : Progress σ :=
  let args := op.args.map s.value
  match act op.opcode with
  | .make => ([], some (s.make op.result))
  | .write => ([], some (s.write op.descrName? args))
  | .read => ([], some (s.define op.result fun r => s.read op.descrName? args r.kind))
  | .call =>
    let v := s.sees args
    ([.called op.descr args v], some (s.answered op.result v
      (w.call s.outside op.descr (op.result.map (·.kind)) args v)))
  | .test =>
    let failArgs := op.failArgs.map (·.map s.value)
    let frames := op.snapshot.map (·.entries.map s.value)
    let passed := w.test s.outside op.opcode args (s.sees args)
    ([.guarded op.opcode (op.guard?.map (·.1)) args failArgs frames
        (s.sees (args ++ failArgs.getD [] ++ frames.flatten)) passed],
      if passed then some s else none)
  | .leave => ([.left op.opcode op.token? args (s.sees args)], none)
  | .compute =>
    ([], some (s.define op.result fun r => w.compute op.opcode op.descr r.kind args))

noncomputable def run : List Operation → State σ → Progress σ
  | [], s => ([], some s)
  | op :: ops, s => (w.step op s).andThen (run ops)

/-- All that the run of a list shows. -/
noncomputable def shows (ops : List Operation) (s : State σ) : List Observation :=
  (w.run ops s).1

end Outside

/-! ### Runs -/

section
variable {σ : Type} {w : Outside σ}

theorem andThen_assoc (p : Progress σ) (f g : State σ → Progress σ) :
    (p.andThen f).andThen g = p.andThen fun s => (f s).andThen g := by
  obtain ⟨shown, _ | s⟩ := p
  · rfl
  · rcases h : f s with ⟨shown', _ | s'⟩ <;> simp [Progress.andThen, h]

theorem andThen_start (p : Progress σ) : (p.andThen fun s => ([], some s)) = p := by
  obtain ⟨shown, _ | s⟩ := p <;> simp [Progress.andThen]

theorem run_append (xs ys : List Operation) (s : State σ) :
    w.run (xs ++ ys) s = (w.run xs s).andThen (w.run ys) := by
  induction xs generalizing s with
  | nil => simp [Outside.run, Progress.andThen]
  | cons op xs ih =>
    show (w.step op s).andThen (w.run (xs ++ ys)) = ((w.step op s).andThen (w.run xs)).andThen _
    rw [andThen_assoc]
    congr 1
    exact funext ih

theorem run_snoc (xs : List Operation) (op : Operation) (s : State σ) :
    w.run (xs ++ [op]) s = (w.run xs s).andThen (w.step op) := by
  rw [run_append]
  congr 1
  funext s'
  exact andThen_start _

/-- A run that was left goes on no further. -/
theorem run_of_left {xs ys : List Operation} {s : State σ} {shown : List Observation}
    (h : w.run xs s = (shown, none)) (hgrow : xs <+: ys) : w.run ys s = (shown, none) := by
  obtain ⟨new, rfl⟩ := hgrow
  rw [run_append, h]
  rfl

/-! ### Values that a run keeps to -/

/-- Some values hold no others, and no others are exposed. -/
structure Within (N : Value → Prop) (s : State σ) : Prop where
  const : ∀ c, N (.const c)
  heap : ∀ a name b, N a → s.heap a name = some b → N b
  exposed : ∀ a, s.exposed a → N a

variable {N : Value → Prop} {s s' s₁ : State σ} {op op' : Operation}

theorem reached_within {heap : Heap} (h : ∀ a name b, N a → heap a name = some b → N b)
    {start : Value → Prop} (hstart : ∀ a, start a → N a) {a : Value} (ha : Reached heap start a) :
    N a := by
  induction ha with
  | start h => exact hstart _ h
  | field _ hfield ih => exact h _ _ _ ih hfield

theorem Within.sees (h : Within N s) {values : List Value} (hvalues : ∀ a ∈ values, N a) {a : Value}
    (ha : (s.sees values).seen a) : N a :=
  reached_within h.heap (fun a ha => ha.elim (hvalues a) (h.exposed a)) ha

theorem Within.given (h : Within N s) {p : Value → Prop} (hp : ∀ a, p a → N a) {a : Value}
    (ha : Given p a) : N a :=
  ha.elim (fun ⟨c, hc⟩ => hc ▸ h.const c) (hp a)

theorem Within.read (h : Within N s) {args : List Value} (hargs : ∀ a ∈ args, N a)
    (name : Option String) (kind : Kind) : N (s.read name args kind) := by
  unfold State.read
  cases hfield : args.head?.bind (s.heap · name) with
  | none => exact h.const _
  | some b =>
    obtain ⟨a, ha, hb⟩ := Option.bind_eq_some_iff.1 hfield
    exact h.heap a name b (hargs a (List.mem_of_head? ha)) hb

/-- What an operation changes when it keeps to some values: the box it defines, and what
these values hold. -/
structure Steps (N : Value → Prop) (op : Operation) (s s₁ : State σ) : Prop where
  within : Within N s₁
  result : ∀ r, op.result = some r → N (s₁.env r)
  env : ∀ b, op.result ≠ some b → s₁.env b = s.env b
  heap : ∀ a, ¬ N a → s₁.heap a = s.heap a

theorem Within.define (h : Within N s) {f : Box → Value}
    (hf : ∀ r, op.result = some r → N (f r)) : Steps N op s (s.define op.result f) :=
  ⟨⟨h.const, h.heap, h.exposed⟩, fun r hr => by simpa [State.define, hr] using hf r hr,
    fun b hb => if_neg hb, fun _ _ => rfl⟩

theorem Within.make (h : Within N s) (hmade : ∀ r, op.result = some r → N (.made r)) :
    Steps N op s (s.make op.result) := by
  cases hr : op.result with
  | none => exact ⟨h, by simp [hr], fun _ _ => rfl, fun _ _ => rfl⟩
  | some r =>
    have hdefine := h.define (f := .made) hmade
    rw [hr] at hdefine
    refine ⟨⟨h.const, fun a name b ha hb => ?_, h.exposed⟩, hdefine.result, hdefine.env,
      fun a ha => ?_⟩
    · by_cases he : a = .made r
      · simp [State.make, he] at hb
      · exact h.heap a name b ha (by simpa [State.make, he] using hb)
    · exact Function.update_of_ne (fun (he : a = .made r) => ha (he ▸ hmade r hr)) ..

theorem Within.write (h : Within N s) {args : List Value} (hargs : ∀ a ∈ args, N a)
    (hr : op.result = none) (name : Option String) : Steps N op s (s.write name args) := by
  rcases args with _ | ⟨a, _ | ⟨b, rest⟩⟩
  · exact ⟨h, by simp [hr], fun _ _ => rfl, fun _ _ => rfl⟩
  · exact ⟨h, by simp [hr], fun _ _ => rfl, fun _ _ => rfl⟩
  · refine ⟨⟨h.const, fun a' name' b' ha' hb' => ?_, h.exposed⟩, by simp [hr], fun _ _ => rfl,
      fun a' ha' => ?_⟩
    · by_cases he : a' = a
      · by_cases hn : name' = name
        · simp only [State.write, he, hn, Function.update_self, Option.some.injEq] at hb'
          exact hb' ▸ hargs b (by simp)
        · exact h.heap a' name' b' ha' (by simpa [State.write, he, hn] using hb')
      · exact h.heap a' name' b' ha' (by simpa [State.write, he] using hb')
    · exact Function.update_of_ne (fun (he : a' = a) => ha' (he ▸ hargs a (by simp))) ..

theorem Within.answered (h : Within N s) {args : List Value} (hargs : ∀ a ∈ args, N a)
    (d : Option Descr) (k : Option Kind) : Steps N op s
      (s.answered op.result (s.sees args) (w.call s.outside d k args (s.sees args))) := by
  have hseen : ∀ a, (s.sees args).seen a → N a := fun a => h.sees hargs
  have hdefine : Steps N op s
      (s.define op.result fun _ => (w.call s.outside d k args (s.sees args)).result) :=
    h.define fun r _ => h.given hseen (w.given_result ..)
  refine ⟨⟨h.const, fun a name b ha hb => ?_, hseen⟩, hdefine.result, hdefine.env, fun a ha => ?_⟩
  · simp only [State.answered] at hb
    split at hb
    next ha' => exact h.given hseen (w.given_heap _ _ _ _ _ a name b ha' hb)
    next => exact h.heap a name b ha hb
  · simp only [State.answered]
    rw [if_neg fun hs => ha (hseen a hs)]

/-- An operation that reads some values keeps to them. -/
theorem Within.step (h : Within N s) (hargs : ∀ a ∈ op.args, N (s.value a))
    (hmade : op.opcode = .new → ∀ r, op.result = some r → N (.made r))
    (hresult : op.opcode = .setfieldGc ∨ op.isGuard = true → op.result = none)
    (hstep : (w.step op s).2 = some s₁) : Steps N op s s₁ := by
  have hvalues : ∀ a ∈ op.args.map s.value, N a := by simpa using hargs
  unfold Outside.step at hstep
  cases hact : act op.opcode <;> simp only [hact] at hstep
  case make =>
    cases hstep
    exact h.make (hmade (eq_new_of_act hact))
  case write =>
    cases hstep
    exact h.write hvalues (hresult (.inl (eq_setfieldGc_of_act hact))) _
  case read =>
    cases hstep
    exact h.define fun r _ => h.read hvalues _ _
  case call =>
    cases hstep
    exact h.answered hvalues _ _
  case test =>
    split at hstep <;> cases hstep
    have hnone := hresult (.inr (isGuard_iff_act.2 hact))
    exact ⟨h, by simp [hnone], fun _ _ => rfl, fun _ _ => rfl⟩
  case leave => cases hstep
  case compute =>
    cases hstep
    exact h.define fun r _ => h.given hvalues (w.given_compute ..)

/-- All objects of the list that a run holds are those of some boxes. -/
structure Born (met : List Box) (s : State σ) : Prop where
  env : ∀ b r, s.env b = .made r → r ∈ met
  heap : ∀ a name r, s.heap a name = some (.made r) → r ∈ met
  exposed : ∀ r, s.exposed (.made r) → r ∈ met

/-- An operation makes no object but that of its result. -/
theorem Born.step {met : List Box} (h : Born met s)
    (hresult : op.opcode = .setfieldGc ∨ op.isGuard = true → op.result = none)
    (hstep : (w.step op s).2 = some s₁) : Born (op.result.toList ++ met) s₁ := by
  let N : Value → Prop := fun a => ∀ r, a = .made r → r ∈ op.result.toList ++ met
  have hwithin : Within N s := ⟨by rintro c r ⟨⟩,
    fun a name b _ hb r he => List.mem_append_right _ (h.heap a name r (he ▸ hb)),
    fun a ha r he => List.mem_append_right _ (h.exposed r (he ▸ ha))⟩
  have hvalue : ∀ a, N (s.value a) := fun a => by
    cases a with
    | const c => exact hwithin.const c
    | box b => exact fun r he => List.mem_append_right _ (h.env b r he)
  have hs := hwithin.step (fun a _ => hvalue a)
    (fun _ r hr r' he => by cases he; simp [hr]) hresult hstep
  refine ⟨fun b r he => ?_, fun a name r he => ?_, fun r hr => hs.within.exposed _ hr r rfl⟩
  · by_cases hb : op.result = some b
    · exact hs.result b hb r he
    · exact hvalue (.box b) r ((hs.env b hb).symm.trans he)
  · by_cases ha : N a
    · exact hs.within.heap a name _ ha he r rfl
    · exact List.mem_append_right _ (h.heap a name r (by rw [← hs.heap a ha]; exact he))

/-! ### Two heaps -/

/-- Two states hold the same in some values. -/
structure Agree (N : Value → Prop) (s s' : State σ) : Prop where
  heap : ∀ a, N a → s'.heap a = s.heap a
  exposed : s'.exposed = s.exposed
  outside : s'.outside = s.outside

theorem Reached.agree {heap heap' : Heap} (hagree : ∀ a, N a → heap' a = heap a)
    (h : ∀ a name b, N a → heap a name = some b → N b) {start : Value → Prop}
    (hstart : ∀ a, start a → N a) {a : Value} (ha : Reached heap start a) :
    Reached heap' start a := by
  induction ha with
  | start h => exact .start h
  | field hreached hfield ih =>
    exact .field ih ((congrFun (hagree _ (reached_within h hstart hreached)) _).trans hfield)

/-- What is in reach of some values is the same in both heaps. -/
theorem Agree.sees (hagree : Agree N s s') (h : Within N s) {values : List Value}
    (hvalues : ∀ a ∈ values, N a) : s'.sees values = s.sees values := by
  have hstart : ∀ a, (a ∈ values ∨ s.exposed a) → N a :=
    fun a ha => ha.elim (hvalues a) (h.exposed a)
  have hclosed' : ∀ a name b, N a → s'.heap a name = some b → N b := fun a name b ha hb =>
    h.heap a name b ha (hagree.heap a ha ▸ hb)
  have hreached : ∀ a, Reached s'.heap (fun a => a ∈ values ∨ s'.exposed a) a ↔
      Reached s.heap (fun a => a ∈ values ∨ s.exposed a) a := fun a => by
    rw [hagree.exposed]
    exact ⟨.agree (fun a ha => (hagree.heap a ha).symm) hclosed' hstart,
      .agree hagree.heap h.heap hstart⟩
  unfold State.sees view
  refine View.ext (funext fun a => propext (hreached a)) (funext fun a => funext fun name => ?_)
  dsimp only
  by_cases ha : Reached s.heap (fun a => a ∈ values ∨ s.exposed a) a
  · rw [if_pos ha, if_pos ((hreached a).2 ha), hagree.heap a (reached_within h.heap hstart ha)]
  · rw [if_neg ha, if_neg fun hr => ha ((hreached a).1 hr)]

/-- Two operations read the same values, each in its state. -/
structure ReadsAlike (s s' : State σ) (op op' : Operation) : Prop where
  opcode : op'.opcode = op.opcode
  result : op'.result = op.result
  args : op'.args.map s'.value = op.args.map s.value
  failArgs : op'.failArgs.map (·.map s'.value) = op.failArgs.map (·.map s.value)
  frames : op'.snapshot.map (·.entries.map s'.value) = op.snapshot.map (·.entries.map s.value)
  number : op'.guard?.map (·.1) = op.guard?.map (·.1)
  descr : op.isGuard = false → op'.descr = op.descr

theorem Agree.define (h : Agree N s s') (result : Option Box) (f : Box → Value) :
    Agree N (s.define result f) (s'.define result f) :=
  ⟨h.heap, h.exposed, h.outside⟩

theorem Agree.make (h : Agree N s s') (result : Option Box) :
    Agree N (s.make result) (s'.make result) := by
  cases result with
  | none => exact h
  | some r =>
    refine ⟨fun a ha => ?_, h.exposed, h.outside⟩
    by_cases he : a = .made r
    · simp [State.make, he]
    · simpa [State.make, he] using h.heap a ha

theorem Agree.write (h : Agree N s s') {args : List Value} (hargs : ∀ a ∈ args, N a)
    (name : Option String) : Agree N (s.write name args) (s'.write name args) := by
  rcases args with _ | ⟨a, _ | ⟨b, rest⟩⟩
  · exact h
  · exact h
  · refine ⟨fun a' ha' => ?_, h.exposed, h.outside⟩
    by_cases he : a' = a
    · simp [State.write, he, h.heap a (hargs a (by simp))]
    · simpa [State.write, he] using h.heap a' ha'

theorem Agree.read (h : Agree N s s') {args : List Value} (hargs : ∀ a ∈ args, N a)
    (name : Option String) (kind : Kind) : s'.read name args kind = s.read name args kind := by
  unfold State.read
  cases args with
  | nil => rfl
  | cons a rest => simp [h.heap a (hargs a (by simp))]

/-- What two runs do at operations that read the same values: they show the same, and both
are left or both go on. -/
structure InStep (N : Value → Prop) (op : Operation) (s s' : State σ) (p p' : Progress σ) :
    Prop where
  shown : p'.1 = p.1
  next : p.2 = none ∧ p'.2 = none ∨ ∃ s₁ s₁', p.2 = some s₁ ∧ p'.2 = some s₁' ∧ Agree N s₁ s₁' ∧
    (∀ r, op.result = some r → s₁'.env r = s₁.env r) ∧
    ∀ b, op.result ≠ some b → s₁'.env b = s'.env b

theorem InStep.go {shown : List Observation} {s₁ s₁' : State σ} (h : Agree N s₁ s₁')
    (hresult : ∀ r, op.result = some r → s₁'.env r = s₁.env r)
    (henv : ∀ b, op.result ≠ some b → s₁'.env b = s'.env b) :
    InStep N op s s' (shown, some s₁) (shown, some s₁') :=
  ⟨rfl, .inr ⟨s₁, s₁', rfl, rfl, h, hresult, henv⟩⟩

theorem Agree.inStep_define (h : Agree N s s') (f : Box → Value) (shown : List Observation) :
    InStep N op s s' (shown, some (s.define op.result f)) (shown, some (s'.define op.result f)) :=
  .go (h.define op.result f) (fun r hr => by simp [State.define, hr]) fun _ hb => if_neg hb

theorem Agree.inStep_make (h : Agree N s s') (shown : List Observation) :
    InStep N op s s' (shown, some (s.make op.result)) (shown, some (s'.make op.result)) := by
  refine .go (h.make op.result) (fun r hr => by simp [State.make, State.define, hr])
    fun b hb => ?_
  cases hr : op.result with
  | none => rfl
  | some r => exact if_neg (hr ▸ hb)

/-- The values that a guard shows are those that the operation uses. -/
theorem within_used (hused : ∀ a ∈ op.usedArgs, N (s.value a)) :
    ∀ a ∈ op.args.map s.value ++ (op.failArgs.map (·.map s.value)).getD [] ++
      (op.snapshot.map (·.entries.map s.value)).flatten, N a := by
  have hsame : op.args.map s.value ++ (op.failArgs.map (·.map s.value)).getD [] ++
      (op.snapshot.map (·.entries.map s.value)).flatten = op.usedArgs.map s.value := by
    cases hfail : op.failArgs <;>
      simp [Operation.usedArgs, Snapshot.operands, List.flatMap_def, List.map_flatten, hfail,
        Function.comp_def]
  rw [hsame]
  simpa using hused

/-- Operations that read the same values do the same in states that hold the same there. -/
theorem Agree.step (hagree : Agree N s s') (h : Within N s) (halike : ReadsAlike s s' op op')
    (hused : ∀ a ∈ op.usedArgs, N (s.value a))
    (hresult : op.opcode = .setfieldGc ∨ op.isGuard = true → op.result = none) :
    InStep N op s s' (w.step op s) (w.step op' s') := by
  have hargs : ∀ a ∈ op.args.map s.value, N a := by
    simp only [List.mem_map, forall_exists_index, and_imp, forall_apply_eq_imp_iff₂]
    exact fun a ha => hused a (by simp [Operation.usedArgs, ha])
  have hdescr : act op.opcode ≠ .test → op'.descr = op.descr := fun hact =>
    halike.descr (Bool.eq_false_iff.2 fun hg => hact (isGuard_iff_act.1 hg))
  have hname : act op.opcode ≠ .test → op'.descrName? = op.descrName? := fun hact => by
    unfold Operation.descrName?
    rw [hdescr hact]
  simp only [Outside.step, halike.opcode, halike.args, halike.result, hagree.sees h hargs,
    hagree.outside]
  cases hact : act op.opcode <;> dsimp only
  case make => exact hagree.inStep_make _
  case write =>
    have hnone := hresult (.inl (eq_setfieldGc_of_act hact))
    rw [hname (by simp [hact])]
    refine .go (hagree.write hargs _) (by simp [hnone]) fun b _ => ?_
    generalize op.args.map s.value = args
    rcases args with _ | ⟨a, _ | ⟨b, rest⟩⟩ <;> rfl
  case read =>
    rw [hname (by simp [hact]), show (fun r : Box => s'.read op.descrName? (op.args.map s.value) r.kind) =
      fun r => s.read op.descrName? (op.args.map s.value) r.kind from
        funext fun r => hagree.read hargs _ _]
    exact hagree.inStep_define _ _
  case call =>
    rw [hdescr (by simp [hact])]
    refine .go ⟨fun a ha => ?_, rfl, rfl⟩ (fun r hr => ?_) fun b hb => if_neg hb
    · simp only [State.answered]
      rw [hagree.heap a ha]
    · simp [State.answered, State.define, hr]
  case test =>
    have hnone := hresult (.inr (isGuard_iff_act.2 hact))
    rw [halike.number, halike.failArgs, halike.frames, hagree.sees h (within_used hused)]
    refine ⟨rfl, ?_⟩
    dsimp only
    split
    · exact .inr ⟨s, s', rfl, rfl, hagree, by simp [hnone], fun _ _ => rfl⟩
    · exact .inl ⟨rfl, rfl⟩
  case leave =>
    rw [show op'.token? = op.token? by unfold Operation.token?; rw [hdescr (by simp [hact])]]
    exact ⟨rfl, .inl ⟨rfl, rfl⟩⟩
  case compute =>
    rw [hdescr (by simp [hact])]
    exact hagree.inStep_define _ _

end
end TracePeel.Machine
