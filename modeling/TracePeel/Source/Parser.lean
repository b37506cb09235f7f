import TracePeel.Source.Lexer
import TracePeel.Source.ParseError
import TracePeel.Trace

/-! From tokens to a trace.

A trace is an optional name, the list of inputs and the operations. The layout is
free: line ends separate nothing. They matter after an error only, when reading
goes on at the first token that begins on a later line than the failed operation;
what the failed operation defined and numbered stays so. -/
namespace TracePeel

/-- The state of reading: the token at hand and those behind it, the fresh names,
and what the names of boxes and loops stand for. -/
structure Reader where
  here : Lexed
  rest : List Lexed
  pool : Pool
  boxes : Bindings String Box := {}
  loops : Bindings String LoopToken := {}
  self : LoopToken

/-- A part of the reading. An error leaves the reader where it was found. -/
abbrev Parse := ExceptT ParseError (StateM Reader)

namespace Parse

def token : Parse Token := do
  return (← get).here.token

def span : Parse Span := do
  return (← get).here.span

/-- The token behind the one at hand; behind the end there is the end. -/
def lookahead : Parse Token := do
  let r ← get
  return (r.rest.headD r.here).token

/-- Goes on to the next token. -/
def advance : Parse Unit :=
  modify fun r =>
    match r.rest with
    | [] => r
    | next :: rest => {r with here := next, rest}

def failAt {α : Type} (span : Span) (cause : ParseCause) : Parse α :=
  throw ⟨cause, span⟩

def fail {α : Type} (cause : ParseCause) : Parse α := do
  failAt (← span) cause

/-- The token at hand is one. -/
def checkLexed : Parse Unit := do
  match ← token with
  | .invalid reason => fail (.lexical reason)
  | _ => pure ()

def expect (wanted : Token) : Parse Unit := do
  checkLexed
  let got ← token
  if got = wanted then advance else fail (.expected wanted got)

def expectName : Parse String := do
  checkLexed
  match ← token with
  | .name text => advance; pure text
  | got => fail (.expectedName got)

/-- Skips the token if it stands here and says whether it did. -/
def accept (wanted : Token) : Parse Bool := do
  if (← token) = wanted then
    advance
    pure true
  else pure false

/-- Items separated by commas up to the closing token, which stays; a comma may
stand before it. Every item takes a token, so the tokens left bound their number. -/
def itemsWithin {α : Type} (close : Token) (item : Parse α) : Nat → Parse (List α)
  | 0 => pure []
  | fuel + 1 => do
    if (← token) = close then return []
    let first ← item
    if ← accept .comma then return first :: (← itemsWithin close item fuel)
    else return [first]

def items {α : Type} (close : Token) (item : Parse α) : Parse (List α) := do
  itemsWithin close item ((← get).rest.length + 1)

/-- Makes a box for a name that was just read. An error is found at the token
behind the name. -/
def defineBox (name : String) : Parse Box := do
  let place ← span
  match name.toList.head?.bind Kind.ofLetter? with
  | none => failAt place (.badBoxName name)
  | some kind =>
    if (← get).boxes.contains name then failAt place (.redefinedBox name)
    let (b, pool) := (← get).pool.freshBox kind
    modify fun r => {r with pool, boxes := r.boxes.set name b}
    pure b

/-- The address in parentheses behind `ConstPtr`. -/
def address : Parse Operand := do
  expect .lparen
  match ← token with
  | .int value =>
    if value.toInt < 0 then fail (.badAddress (.int value))
    else
      advance
      expect .rparen
      pure (.const (.ref value.toUInt64))
  | got => fail (.badAddress got)

def operand : Parse Operand := do
  checkLexed
  match ← token with
  | .int value => advance; pure (.const (.int value))
  | .float bits => advance; pure (.const (.float bits))
  | .name name =>
    if name = "ConstPtr" then
      advance
      address
    else
      match (← get).boxes.get? name with
      | some b => advance; pure (.box b)
      | none => fail (.undefinedBox name)
  | got => fail (.expectedOperand got)

/-- Operands in brackets. -/
def operandList : Parse (List Operand) := do
  expect .lbracket
  let list ← items .rbracket operand
  expect .rbracket
  pure list

/-- The name of a descriptor, in angle brackets or bare. -/
def descrName : Parse String := do
  if ← accept .lt then
    let name ← expectName
    expect .gt
    pure name
  else expectName

/-- What stands between the parentheses of an operation. -/
inductive Item where
  | operand (a : Operand)
  | descr (name : String)

def Item.operand? : Item → Option Operand
  | .operand a => some a
  | .descr _ => none

def Item.descr? : Item → Option String
  | .operand _ => none
  | .descr name => some name

def item : Parse Item := do
  if (← token) = .name "descr" ∧ (← lookahead) = .assign then
    advance
    advance
    return .descr (← descrName)
  else return .operand (← operand)

/-- The lists behind `@`, one for each frame. -/
def framesWithin : Nat → Parse (List (List Operand))
  | 0 => pure []
  | fuel + 1 => do
    if (← token) = .lbracket then
      let entries ← operandList
      return entries :: (← framesWithin fuel)
    else pure []

/-- Makes the frames of a snapshot, listed innermost first. -/
def snapshotOf (frames : List (List Operand)) : Parse Snapshot := do
  let (snapshot, pool) := (← get).pool.chainOf frames
  modify fun r => {r with pool}
  pure snapshot

/-- What stands behind a guard: its fail-args, none if they are left out, and its
snapshot, one frame of the fail-args if it is left out. -/
def guardTail : Parse (List Operand × Snapshot) := do
  let failArgs ← if (← token) = .lbracket then operandList else pure []
  let frames ←
    if ← accept .atSign then framesWithin ((← get).rest.length + 1) else pure [failArgs]
  return (failArgs, ← snapshotOf frames)

/-- The loop of a jump: the trace itself where no name is given, and one new token
for each other name. -/
def loopNamed : Option String → Parse LoopToken
  | none => return (← get).self
  | some name => do
    match (← get).loops.get? name with
    | some t => pure t
    | none =>
      let (t, pool) := (← get).pool.freshToken
      modify fun r => {r with pool, loops := r.loops.set name t}
      pure t

/-- The descriptor of an operation that begins at `start`. -/
def descrOf (start : Span) (opcode : Opcode) (name : Option String)
    (guard : Option (List Operand × Snapshot)) : Parse (Option Descr) := do
  match guard with
  | some (_, snapshot) =>
    let (number, pool) := (← get).pool.freshGuard
    modify fun r => {r with pool}
    return some (.guard number snapshot)
  | none =>
    match opcode with
    | .jump => return some (.loop (← loopNamed name))
    | .setfieldGc | .getfieldGc | .getfieldGcPure =>
      match name with
      | some field => return some (.field field)
      | none => failAt start (.missingField opcode)
    | .new => return some (.size (name.getD "object"))
    | _ => return name.map .size

/-- The box that an operation beginning at `start` produces. -/
def resultOf (start : Span) (opcode : Opcode) (name : Option String) : Parse (Option Box) := do
  match name with
  | some name =>
    if !opcode.hasResult then failAt start (.unwantedResult opcode)
    let b ← defineBox name
    match opcode.resultKind? with
    | some kind => if kind ≠ b.kind then failAt start (.wrongKind opcode kind name b.kind)
    | none => pure ()
    return some b
  | none =>
    if opcode.needsResult then failAt start (.missingResult opcode)
    return none

/-- The name in front of `=`, if the operation has one. -/
def resultName? : Parse (Option String) := do
  match ← token, ← lookahead with
  | .name name, .assign =>
    advance
    advance
    return some name
  | _, _ => return none

def opcode : Parse Opcode := do
  let place ← span
  let name ← expectName
  match Opcode.ofName? name with
  | some opcode => pure opcode
  | none => failAt place (.unknownOpcode name)

def operation : Parse Operation := do
  checkLexed
  let start ← span
  let name ← resultName?
  let opcode ← opcode
  expect .lparen
  let items ← items .rparen item
  expect .rparen
  let args := items.filterMap Item.operand?
  match opcode.arity? with
  | some expected =>
    if args.length ≠ expected then failAt start (.badArity opcode expected args.length)
  | none => pure ()
  let guard ← if opcode.isGuard then pure (some (← guardTail)) else pure none
  let descr ← descrOf start opcode (items.filterMap Item.descr?).getLast? guard
  let result ← resultOf start opcode name
  return { opcode, args, result, descr, failArgs := guard.map (·.1) }

/-- The name of the trace, if it has one, and its inputs. -/
def header : Parse (String × List Box) := do
  let name ← if ← accept .loop then expectName else pure "Loop0"
  modify fun r => {r with loops := r.loops.set name r.self}
  expect .lbracket
  let inputs ← items .rbracket (do defineBox (← expectName))
  expect .rbracket
  pure (name, inputs)

end Parse

/-- The first token, from the one at hand on, that begins behind a line. -/
def Reader.skipLine (line : Nat) : Lexed → List Lexed → Lexed × List Lexed
  | here, next :: rest =>
    if here.token ≠ .eof ∧ here.span.start.line ≤ line then skipLine line next rest
    else (here, next :: rest)
  | here, [] => (here, [])

/-- Reads one operation, or goes past the line it fails on. -/
def Reader.round (r : Reader) : Except ParseError Operation × Reader :=
  match Parse.operation.run.run r with
  | (.ok op, r') => (.ok op, r')
  | (.error e, r') =>
    let (here, rest) := skipLine r.here.span.start.line r'.here r'.rest
    (.error e, {r' with here, rest})

/-- Reads operations up to the end, past the ones that fail. Each round takes a
token, so the tokens left bound the number of rounds. -/
def Reader.operations : Nat → Reader → List Operation × List ParseError × Reader
  | 0, r => ([], [], r)
  | fuel + 1, r =>
    if r.here.token = .eof then ([], [], r)
    else
      let (result, r) := r.round
      let (ops, errors, last) := operations fuel r
      match result with
      | .ok op => (op :: ops, errors, last)
      | .error e => (ops, e :: errors, last)

/-- The reader in front of a text. -/
def Reader.start (source : String) : Reader :=
  let (self, pool) := ({} : Pool).freshToken
  match Lexer.tokens source with
  | here :: rest => { here, rest, pool, self }
  | [] => { here := ⟨.eof, {}, {}⟩, rest := [], pool, self }

/-- The trace that a text describes. -/
def Trace.parse (source : String) : Except ParseFailure Trace :=
  match Parse.header.run.run (Reader.start source) with
  | (.error e, _) => .error (.one e)
  | (.ok (name, inputs), r) =>
    match r.operations (r.rest.length + 1) with
    | (ops, [], last) => .ok { name, token := last.self, inputs, ops, pool := last.pool }
    | (_, [e], _) => .error (.one e)
    | (_, errors, _) => .error (.several errors)

end TracePeel
