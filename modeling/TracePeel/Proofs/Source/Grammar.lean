import TracePeel.Proofs.Source.Spelling

/-! The grammar of traces.

A script is the phrase structure of a trace: its parts have the names and literals that stand in
the text and nothing of what they stand for. `Script.Spells` says which tokens spell a script;
line ends, blanks and comments are no tokens, so the layout plays no role. `Script.Allowed` says
what must hold besides: each box is defined once and before it is used, and each operation has
what its tables ask of it. `Script.trace` is the trace that a script denotes. None of the three
speaks of a reader. -/
namespace TracePeel
namespace Grammar

/-! ### Phrases -/

/-- An operand as it is written. -/
inductive Term where
  | int (value : Int64)
  | float (bits : UInt64)
  | pointer (address : Int64)
  | box (name : String)

/-- What stands between the parentheses of an operation. -/
inductive Entry where
  | term (t : Term)
  | descr (name : String)

def Entry.term? : Entry → Option Term
  | .term t => some t
  | .descr _ => none

def Entry.descr? : Entry → Option String
  | .term _ => none
  | .descr name => some name

/-- An operation as it is written, with the lists behind its parentheses. -/
structure Statement where
  result : Option String
  opcode : Opcode
  entries : List Entry
  failArgs : Option (List Term)
  frames : Option (List (List Term))

namespace Statement

/-- The operands between the parentheses. -/
def terms (st : Statement) : List Term :=
  st.entries.filterMap Entry.term?

/-- The name of the descriptor; the last one counts. -/
def descr? (st : Statement) : Option String :=
  (st.entries.filterMap Entry.descr?).getLast?

/-- The fail-args of a guard, none if they are left out. -/
def leaving (st : Statement) : List Term :=
  st.failArgs.getD []

/-- The frames of a guard, innermost first; one frame of the fail-args if they are left out. -/
def chain (st : Statement) : List (List Term) :=
  st.frames.getD [st.leaving]

end Statement

structure Script where
  name : Option String
  inputs : List String
  statements : List Statement

/-! ### Spelling -/

section Spelling
variable {α : Type} (spells : α → List Token → Prop)

/-- Phrases with commas between them; one more comma may stand behind the last. -/
inductive Separated : List α → List Token → Prop
  | nil : Separated [] []
  | last {a : α} {ts : List Token} (h : spells a ts) : Separated [a] ts
  | cons {a : α} {as : List α} {ts us : List Token} (h : spells a ts) (hrest : Separated as us) :
    Separated (a :: as) (ts ++ .comma :: us)

/-- Phrases one behind the other. -/
inductive Successive : List α → List Token → Prop
  | nil : Successive [] []
  | cons {a : α} {as : List α} {ts us : List Token} (h : spells a ts) (hrest : Successive as us) :
    Successive (a :: as) (ts ++ us)

/-- A phrase that may be left out. -/
inductive Possible : Option α → List Token → Prop
  | none : Possible none []
  | some {a : α} {ts : List Token} (h : spells a ts) : Possible (some a) ts

end Spelling

inductive Term.Spells : Term → List Token → Prop
  | int (value : Int64) : Spells (.int value) [.int value]
  | float (bits : UInt64) : Spells (.float bits) [.float bits]
  | pointer (address : Int64) :
    Spells (.pointer address) [.name "ConstPtr", .lparen, .int address, .rparen]
  | box (name : String) : Spells (.box name) [.name name]

inductive Entry.Spells : Entry → List Token → Prop
  | term {t : Term} {ts : List Token} (h : t.Spells ts) : Spells (.term t) ts
  | bare (name : String) : Spells (.descr name) [.name "descr", .assign, .name name]
  | angled (name : String) :
    Spells (.descr name) [.name "descr", .assign, .lt, .name name, .gt]

/-- Operands in brackets. -/
inductive Listed : List Term → List Token → Prop
  | mk {terms : List Term} {ts : List Token} (h : Separated Term.Spells terms ts) :
    Listed terms (.lbracket :: (ts ++ [.rbracket]))

/-- The lists behind `@`. -/
inductive Framed : List (List Term) → List Token → Prop
  | mk {frames : List (List Term)} {ts : List Token} (h : Successive Listed frames ts) :
    Framed frames (.atSign :: ts)

/-- A name in front of `=`. -/
inductive Assigned : String → List Token → Prop
  | mk (name : String) : Assigned name [.name name, .assign]

inductive Statement.Spells : Statement → List Token → Prop
  | mk {st : Statement} {result entries failArgs frames : List Token}
    (hresult : Possible Assigned st.result result)
    (hentries : Separated Entry.Spells st.entries entries)
    (hfailArgs : Possible Listed st.failArgs failArgs)
    (hframes : Possible Framed st.frames frames) :
    Spells st (result ++ .name st.opcode.name :: .lparen ::
      (entries ++ .rparen :: (failArgs ++ frames)))

/-- The name of a trace. -/
inductive Titled : String → List Token → Prop
  | mk (name : String) : Titled name [.loop, .name name]

/-- The name of an input. -/
inductive Named : String → List Token → Prop
  | mk (name : String) : Named name [.name name]

inductive Script.Spells : Script → List Token → Prop
  | mk {s : Script} {name inputs statements : List Token}
    (hname : Possible Titled s.name name)
    (hinputs : Separated Named s.inputs inputs)
    (hstatements : Successive Statement.Spells s.statements statements) :
    Spells s (name ++ .lbracket :: (inputs ++ .rbracket :: statements))

/-! ### Names and what they stand for -/

/-- The kind of the boxes that a name can stand for, by its first letter. -/
def boxKind? (name : String) : Option Kind :=
  name.toList.head?.bind Kind.ofLetter?

/-- What was named in front of a place, and how many guards and frames stand there. -/
structure Scope where
  /-- The boxes, in the order in which they are defined. -/
  names : List String := []
  /-- The trace itself and the other loops jumped to, in the order in which they are met. -/
  loops : List String
  guards : Nat := 0
  frames : Nat := 0

namespace Scope

/-- The box of a name: its number is the place of the name. A new name has the next number. -/
def box (s : Scope) (name : String) : Box :=
  ⟨s.names.idxOf name, (boxKind? name).getD .int⟩

/-- The loop of a name: its number is the place of the name. A new name has the next number. -/
def token (s : Scope) (name : String) : LoopToken :=
  ⟨s.loops.idxOf name⟩

def operand (s : Scope) : Term → Operand
  | .int value => .const (.int value)
  | .float bits => .const (.float bits)
  | .pointer address => .const (.ref address.toUInt64)
  | .box name => .box (s.box name)

/-- The numbers that are free at the place. -/
def pool (s : Scope) : Pool where
  nextBox := s.names.length
  nextGuard := s.guards
  nextToken := s.loops.length
  nextFrame := s.frames

/-- The scope behind a statement. -/
def after (s : Scope) (st : Statement) : Scope where
  names := s.names ++ st.result.toList
  loops := match st.opcode, st.descr? with
    | .jump, some name => if name ∈ s.loops then s.loops else s.loops ++ [name]
    | _, _ => s.loops
  guards := if st.opcode.isGuard then s.guards + 1 else s.guards
  frames := if st.opcode.isGuard then s.frames + st.chain.length else s.frames

end Scope

namespace Statement

/-- The snapshot of a guard. -/
def snapshot (s : Scope) (st : Statement) : Snapshot :=
  (s.pool.chainOf (st.chain.map (·.map s.operand))).1

def descr (s : Scope) (st : Statement) : Option Descr :=
  if st.opcode.isGuard then some (.guard s.guards (st.snapshot s))
  else match st.opcode, st.descr? with
    | .jump, none => some (.loop ⟨0⟩)
    | .jump, some name => some (.loop (s.token name))
    | .new, none => some (.size "object")
    | opcode, some name => if opcode.isAccess then some (.field name) else some (.size name)
    | _, none => none

/-- The operation that a statement denotes where `s` is in scope. -/
def operation (s : Scope) (st : Statement) : Operation where
  opcode := st.opcode
  args := st.terms.map s.operand
  result := st.result.map s.box
  descr := st.descr s
  failArgs := if st.opcode.isGuard then some (st.leaving.map s.operand) else none

end Statement

/-! ### What must hold besides -/

/-- An address is not negative, and a box is defined. -/
def Term.Allowed (s : Scope) : Term → Prop
  | .pointer address => 0 ≤ address.toInt
  | .box name => name ∈ s.names
  | _ => True

/-- What must hold of a statement where `s` is in scope. -/
structure Statement.Allowed (s : Scope) (st : Statement) : Prop where
  terms : ∀ t ∈ st.terms, t.Allowed s
  arity : ∀ n, st.opcode.arity? = some n → st.terms.length = n
  tail : st.opcode.isGuard = false → st.failArgs = none ∧ st.frames = none
  failArgs : ∀ t ∈ st.leaving, t.Allowed s
  frames : ∀ frame ∈ st.chain, ∀ t ∈ frame, t.Allowed s
  field : st.opcode.isAccess = true → st.descr?.isSome = true
  produced : ∀ name, st.result = some name → st.opcode.hasResult = true ∧ name ∉ s.names ∧
    ∃ kind, boxKind? name = some kind ∧ ∀ k, st.opcode.resultKind? = some k → k = kind
  unproduced : st.result = none →
    st.opcode.hasResult = false ∨ st.opcode = .call ∨ st.opcode = .callPure

/-- Each statement is allowed behind those in front of it. -/
def AllAllowed : Scope → List Statement → Prop
  | _, [] => True
  | s, st :: rest => st.Allowed s ∧ AllAllowed (s.after st) rest

/-- The operations that some statements denote. -/
def operations : Scope → List Statement → List Operation
  | _, [] => []
  | s, st :: rest => st.operation s :: operations (s.after st) rest

namespace Script

/-- The name of the trace. -/
def title (s : Script) : String :=
  s.name.getD "Loop0"

/-- The scope behind the inputs: the name of the trace stands for the trace itself. -/
def scope (s : Script) : Scope where
  names := s.inputs
  loops := [s.title]

structure Allowed (s : Script) : Prop where
  distinct : s.inputs.Nodup
  inputs : ∀ name ∈ s.inputs, (boxKind? name).isSome = true
  statements : AllAllowed s.scope s.statements

/-- The trace that a script denotes. -/
def trace (s : Script) : Trace where
  name := s.title
  token := ⟨0⟩
  inputs := s.inputs.map s.scope.box
  ops := operations s.scope s.statements
  pool := (s.statements.foldl Scope.after s.scope).pool

end Script
end Grammar
end TracePeel
