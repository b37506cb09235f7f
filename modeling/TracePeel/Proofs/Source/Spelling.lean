import TracePeel.Proofs.Source.Printing
import TracePeel.Source.Parser

/-! The tokens of a dump.

`Dump.tokens` says token by token what a dump writes. The text of the dump falls into
just those tokens (`lexes_text`), as long as the names in it are names and the
addresses fit a literal. -/
namespace TracePeel

open Lexer (Lexes IsName Breaks isName_numbered)

/-! ### The form of what is read -/

namespace Opcode

/-- Whether the operation is about a field. -/
def isAccess (o : Opcode) : Bool :=
  o == setfieldGc || o == getfieldGc || o == getfieldGcPure

/-- The descriptor is of the sort that the operation takes. -/
inductive Carries (o : Opcode) : Option Descr → Prop
  | guard {number : Nat} {snapshot : Snapshot} (h : o.isGuard = true) :
    Carries o (some (.guard number snapshot))
  | loop {token : LoopToken} (h : o = jump) : Carries o (some (.loop token))
  | field {name : String} (h : o.isAccess = true) (hname : IsName name) :
    Carries o (some (.field name))
  | size {name : String} (hguard : o.isGuard = false) (hjump : o ≠ jump)
    (haccess : o.isAccess = false) (hname : IsName name) : Carries o (some (.size name))
  | none (hguard : o.isGuard = false) (hjump : o ≠ jump) (haccess : o.isAccess = false)
    (hnew : o ≠ new) : Carries o none

instance (o : Opcode) (descr : Option Descr) : Decidable (o.Carries descr) :=
  match descr with
  | some (.guard ..) => decidable_of_iff (o.isGuard = true) ⟨.guard, fun | .guard h => h⟩
  | some (.loop _) => decidable_of_iff (o = jump) ⟨.loop, fun | .loop h => h⟩
  | some (.field name) => decidable_of_iff (o.isAccess = true ∧ IsName name)
      ⟨fun ⟨h, hname⟩ => .field h hname, fun | .field h hname => ⟨h, hname⟩⟩
  | some (.size name) =>
    decidable_of_iff (o.isGuard = false ∧ o ≠ jump ∧ o.isAccess = false ∧ IsName name)
      ⟨fun ⟨hg, hj, ha, hname⟩ => .size hg hj ha hname, fun | .size hg hj ha hname => ⟨hg, hj, ha, hname⟩⟩
  | .none => decidable_of_iff (o.isGuard = false ∧ o ≠ jump ∧ o.isAccess = false ∧ o ≠ new)
      ⟨fun ⟨hg, hj, ha, hn⟩ => .none hg hj ha hn, fun | .none hg hj ha hn => ⟨hg, hj, ha, hn⟩⟩

end Opcode

/-- An address that an integer literal can hold. -/
def Operand.Literal : Operand → Prop
  | .const (.ref address) => address.toNat < 2 ^ 63
  | _ => True

instance (a : Operand) : Decidable a.Literal :=
  match a with
  | .const (.ref address) => inferInstanceAs (Decidable (address.toNat < 2 ^ 63))
  | .const (.int _) | .const (.float _) | .box _ => .isTrue trivial

/-- An operation as the parser makes them. -/
structure Operation.InForm (op : Operation) : Prop where
  descr : op.opcode.Carries op.descr
  failArgs : op.failArgs.isSome = op.isGuard
  literal : ∀ a ∈ op.usedArgs, a.Literal

/-! ### Tokens -/

/-- The tokens of a constant. What is not finite is written as a word. -/
def Const.tokens : Const → List Token
  | int value => [.int value]
  | ref address => [.name "ConstPtr", .lparen, .int address.toInt64, .rparen]
  | float bits =>
    if Binary64.magnitude bits < Binary64.infinity then [.float bits]
    else if Binary64.isNaN bits then [.name "NaN"]
    else if Binary64.isNegative bits then [.invalid (.unexpected '-'), .name "inf"]
    else [.name "inf"]

def Operand.tokens : Operand → List Token
  | box b => [.name b.name]
  | const c => c.tokens

namespace Dump

/-- Lists of tokens with commas between them. -/
def separated (items : List (List Token)) : List Token :=
  [Token.comma].intercalate items

def listTokens (args : List Operand) : List Token :=
  .lbracket :: separated (args.map Operand.tokens) ++ [.rbracket]

def descrTokens? (d : Dump) : Descr → Option (List Token)
  | .loop t => some [.name (if t = d.token then d.name else t.text)]
  | .guard number _ =>
    if d.options.guardNumbers then some [.lt, .name ("Guard" ++ toString number), .gt] else none
  | .field name => some [.name name]
  | .size name => some [.name name]

/-- The name that a descriptor is written under. -/
def written? (d : Dump) : Descr → Option String
  | .loop t => some (if t = d.token then d.name else t.text)
  | .guard number _ => if d.options.guardNumbers then some ("Guard" ++ toString number) else none
  | .field name => some name
  | .size name => some name

def itemTokens (d : Dump) (op : Operation) : List (List Token) :=
  op.args.map Operand.tokens ++
    ((op.descr.bind d.descrTokens?).map (.name "descr" :: .assign :: ·)).toList

def framesTokens : Snapshot → List Token
  | [] => []
  | frame :: outer => listTokens frame.entries ++ framesTokens outer

def resultTokens (op : Operation) : List Token :=
  match op.result with
  | none => []
  | some r => [.name r.name, .assign]

def failTokens (op : Operation) : List Token :=
  match op.failArgs with
  | none => []
  | some failArgs => listTokens failArgs

def snapshotTokens (d : Dump) (op : Operation) : List Token :=
  if d.options.snapshots && !op.snapshot.isEmpty then .atSign :: framesTokens op.snapshot else []

def lineTokens (d : Dump) (op : Operation) : List Token :=
  resultTokens op ++ .name op.opcode.name :: .lparen :: separated (d.itemTokens op) ++
    .rparen :: failTokens op ++ d.snapshotTokens op

def linesTokens (d : Dump) : List Operation → List Token
  | [] => []
  | op :: rest => d.lineTokens op ++ d.linesTokens rest

def tokens (d : Dump) (inputs : List Box) (ops : List Operation) : List Token :=
  .loop :: .name d.name :: .lbracket :: separated (inputs.map fun b => [.name b.name]) ++
    .rbracket :: d.linesTokens ops

/-! ### From the text to the tokens -/

/-- The text has the tokens wherever it ends. -/
def Spelt (text : String) (toks : List Token) : Prop :=
  ∀ cs ts, Breaks cs → Lexes cs ts → Lexes (text.toList ++ cs) (toks ++ ts)

theorem spelt_name {name : String} (h : IsName name) : Spelt name [.name name] :=
  fun _ _ hcs hlex => hlex.name h hcs

theorem spelt_number {text : String} {token : Token} (h : Number.Spells text.toList token) :
    Spelt text [token] :=
  fun _ _ hcs hlex => hlex.number h hcs

/-- The characters of the format that are tokens by themselves. -/
def marks : List (Char × Token) :=
  [(',', .comma), ('(', .lparen), (')', .rparen), ('[', .lbracket), (']', .rbracket),
    ('=', .assign), ('<', .lt), ('>', .gt), ('@', .atSign)]

section Marks
variable {c : Char} {token : Token} {cs : List Char} {ts : List Token}

theorem lexes_mark (h : (c, token) ∈ marks) (hlex : Lexes cs ts) :
    Lexes (c :: cs) (token :: ts) := by
  have hall : ∀ m ∈ marks, Lexer.startsGap m.1 = false ∧ Lexer.startsName m.1 = false ∧
      m.1.isDigit = false ∧ m.1 ≠ '-' ∧ Lexer.charToken m.1 = m.2 := by decide
  obtain ⟨hgap, hname, hdigit, hsign, htoken⟩ := hall _ h
  exact hlex.mark hgap hname hdigit hsign htoken

theorem breaks_mark (h : (c, token) ∈ marks) : Breaks (c :: cs) := by
  have hall : ∀ m ∈ marks, Lexer.continuesName m.1 = false ∧ m.1 ≠ '.' := by decide
  exact Lexer.breaks_cons (hall _ h).1 (hall _ h).2

theorem lexes_space (h : Lexes cs ts) : Lexes (' ' :: cs) ts :=
  h.blank (by decide)

theorem breaks_space : Breaks (' ' :: cs) :=
  Lexer.breaks_cons (by decide) (by decide)

end Marks

@[simp] theorem separated_nil : separated [] = [] := rfl

@[simp] theorem separated_singleton (item : List Token) : separated [item] = item := by
  simp [separated]

theorem separated_cons {items : List (List Token)} (item : List Token) (h : items ≠ []) :
    separated (item :: items) = item ++ .comma :: separated items := by
  obtain ⟨next, rest, rfl⟩ := List.exists_cons_of_ne_nil h
  simp [separated, List.intercalate]

theorem spelt_separated {texts : List String} {items : List (List Token)}
    (h : List.Forall₂ Spelt texts items) : Spelt (", ".intercalate texts) (separated items) := by
  induction h with
  | nil => exact fun _ _ _ hlex => hlex
  | @cons text item texts items hhead htail ih =>
    cases htail with
    | nil => simpa using hhead
    | cons hnext hrest =>
      intro cs ts hcs hlex
      have hcomma : (',', Token.comma) ∈ marks := by decide
      rw [String.intercalate_cons_of_ne_nil (List.cons_ne_nil _ _),
        separated_cons _ (List.cons_ne_nil _ _)]
      simp only [String.toList_append, List.append_assoc, List.cons_append]
      exact hhead _ _ (breaks_mark hcomma) (lexes_mark hcomma (lexes_space (ih cs ts hcs hlex)))

/-! ### The parts of a line -/

theorem isName_box (b : Box) : IsName b.name := by
  have hname : b.name = String.ofList [b.kind.letter] ++ toString b.id := by
    rw [← String.toList_inj]
    simp [Box.name]
  rw [hname]
  refine isName_numbered ?_ _
  cases b.kind <;> decide

theorem isName_opcode (o : Opcode) : IsName o.name := by
  have hall : ∀ o ∈ Opcode.all, Lexer.nameChars o.name.toList = true ∧ o.name ≠ "loop" := by
    decide +kernel
  obtain ⟨hchars, hne⟩ := hall o (Opcode.mem_all o)
  exact ⟨hchars, hne⟩

theorem isName_token (t : LoopToken) : IsName t.text :=
  isName_numbered (by decide) t.number

theorem toInt_toInt64 {address : UInt64} (h : address.toNat < 2 ^ 63) :
    address.toInt64.toInt = address.toNat := by
  show address.toBitVec.toInt = _
  rw [BitVec.toInt_eq_toNat_of_lt (by rw [UInt64.toNat_toBitVec]; omega), UInt64.toNat_toBitVec]

/-- An address in parentheses, whether or not its literal has a value. -/
theorem spelt_pointer {n : Nat} {token : Token} (h : Number.Spells (toString n).toList token) :
    Spelt ("ConstPtr(" ++ toString n ++ ")") [.name "ConstPtr", .lparen, token, .rparen] := by
  intro cs ts hcs hlex
  have hname : IsName "ConstPtr" := ⟨by decide, by decide⟩
  have hopen : ('(', Token.lparen) ∈ marks := by decide
  have hclose : (')', Token.rparen) ∈ marks := by decide
  have hlex := spelt_name hname _ _ (breaks_mark hopen) (lexes_mark hopen
    (spelt_number h _ _ (breaks_mark hclose) (lexes_mark hclose hlex)))
  simpa using hlex

theorem spelt_const {c : Const} (h : (Operand.const c).Literal) : Spelt c.text c.tokens := by
  cases c with
  | int value => exact spelt_number (Number.spells_int value)
  | ref address =>
    have hvalue := Number.spells_int address.toInt64
    rw [toInt_toInt64 h] at hvalue
    exact spelt_pointer hvalue
  | float bits =>
    simp only [Const.tokens, Const.text]
    split
    case isTrue hfinite => exact spelt_number (Number.spells_float hfinite)
    case isFalse hfinite =>
      rw [Number.write_of_not_finite hfinite]
      split_ifs
      · exact spelt_name ⟨by decide, by decide⟩
      · intro cs ts hcs hlex
        have hinf : IsName "inf" := ⟨by decide, by decide⟩
        have hlex := spelt_name hinf cs ts hcs hlex
        refine Lexer.Lexes.scanned [] hlex (by decide) ?_
        rfl
      · exact spelt_name ⟨by decide, by decide⟩

theorem spelt_operand {a : Operand} (h : a.Literal) : Spelt a.text a.tokens := by
  cases a with
  | box b => exact spelt_name (isName_box b)
  | const c => exact spelt_const h

theorem spelt_operands {args : List Operand} (h : ∀ a ∈ args, a.Literal) :
    List.Forall₂ Spelt (args.map Operand.text) (args.map Operand.tokens) := by
  rw [List.forall₂_map_left_iff, List.forall₂_map_right_iff, List.forall₂_same]
  exact fun a ha => spelt_operand (h a ha)

variable {cs : List Char} {ts : List Token}

theorem lexes_list {args : List Operand} (h : ∀ a ∈ args, a.Literal) (hlex : Lexes cs ts) :
    Lexes ((listText args).toList ++ cs) (listTokens args ++ ts) := by
  have hopen : ('[', Token.lbracket) ∈ marks := by decide
  have hclose : (']', Token.rbracket) ∈ marks := by decide
  have hlex := lexes_mark hopen (spelt_separated (spelt_operands h) _ _ (breaks_mark hclose)
    (lexes_mark hclose hlex))
  simpa [listText, listTokens] using hlex

theorem lexes_frames {s : Snapshot} (h : ∀ a ∈ s.operands, a.Literal) (hlex : Lexes cs ts) :
    Lexes ((framesText s).toList ++ cs) (framesTokens s ++ ts) := by
  induction s with
  | nil => exact hlex
  | cons frame outer ih =>
    have hframe : ∀ a ∈ frame.entries, a.Literal := fun a ha => h a (List.mem_append_left _ ha)
    have houter : ∀ a ∈ Snapshot.operands outer, a.Literal := fun a ha =>
      h a (List.mem_append_right _ ha)
    have hlex := lexes_space (lexes_list hframe (ih houter))
    simpa [framesText, framesTokens] using hlex

/-- A descriptor is a name, the number of a guard one in angle brackets. -/
theorem spelt_descr {d : Dump} (hname : IsName d.name) {o : Opcode} {descr : Option Descr}
    (h : o.Carries descr) :
    Option.Rel Spelt (descr.bind d.descr?) (descr.bind d.descrTokens?) := by
  cases h with
  | none => exact .none
  | field _ hfield => exact .some (spelt_name hfield)
  | size _ _ _ hsize => exact .some (spelt_name hsize)
  | @loop token _ =>
    refine .some ?_
    split
    · exact spelt_name hname
    · exact spelt_name (isName_token token)
  | @guard number snapshot _ =>
    simp only [Option.bind_some, descr?, descrTokens?]
    split
    case isFalse => exact .none
    case isTrue =>
      refine .some fun cs ts hcs hlex => ?_
      have hopen : ('<', Token.lt) ∈ marks := by decide
      have hclose : ('>', Token.gt) ∈ marks := by decide
      have hguard : IsName ("Guard" ++ toString number) := isName_numbered (by decide) number
      have hlex := lexes_mark hopen (spelt_name hguard _ _ (breaks_mark hclose)
        (lexes_mark hclose hlex))
      show Lexes (("<Guard" ++ toString number ++ ">").toList ++ cs) _
      simpa using hlex

theorem spelt_items {d : Dump} (hname : IsName d.name) {op : Operation} (hop : op.InForm) :
    Spelt (", ".intercalate (d.itemTexts op)) (separated (d.itemTokens op)) := by
  refine spelt_separated ((List.rel_append (spelt_operands fun a ha => hop.literal a ?_)) ?_)
  · exact List.mem_append_left _ (List.mem_append_left _ ha)
  · have hdescr := spelt_descr hname hop.descr
    generalize op.descr.bind d.descr? = text at hdescr
    generalize op.descr.bind d.descrTokens? = toks at hdescr
    cases hdescr with
    | none => exact .nil
    | some h =>
      refine .cons (fun cs ts hcs hlex => ?_) .nil
      have hmark : ('=', Token.assign) ∈ marks := by decide
      have hdescr : IsName "descr" := ⟨by decide, by decide⟩
      have hlex := spelt_name hdescr _ _ (breaks_mark hmark)
        (lexes_mark hmark (h cs ts hcs hlex))
      simpa using hlex

theorem lexes_line {d : Dump} (hname : IsName d.name) {op : Operation} (hop : op.InForm)
    (hlex : Lexes cs ts) : Lexes ((d.lineText op).toList ++ cs) (d.lineTokens op ++ ts) := by
  have hsnap : Lexes ((d.snapshotText op).toList ++ cs) (d.snapshotTokens op ++ ts) := by
    unfold snapshotText snapshotTokens
    split
    case isTrue =>
      have hmark : ('@', Token.atSign) ∈ marks := by decide
      have hlex := lexes_space (lexes_mark hmark (lexes_frames (s := op.snapshot)
        (fun a ha => hop.literal a (List.mem_append_right _ ha)) hlex))
      simpa using hlex
    case isFalse => exact hlex
  have hfail : Lexes ((failText op).toList ++ ((d.snapshotText op).toList ++ cs))
      (failTokens op ++ (d.snapshotTokens op ++ ts)) := by
    cases hfailArgs : op.failArgs with
    | none => simpa [failText, failTokens, hfailArgs] using hsnap
    | some failArgs =>
      have hliteral : ∀ a ∈ failArgs, a.Literal := fun a ha =>
        hop.literal a (List.mem_append_left _ (List.mem_append_right _ (by rwa [hfailArgs])))
      simpa [failText, failTokens, hfailArgs] using lexes_space (lexes_list hliteral hsnap)
  have hopen : ('(', Token.lparen) ∈ marks := by decide
  have hclose : (')', Token.rparen) ∈ marks := by decide
  have hcall := spelt_name (isName_opcode op.opcode) _ _ (breaks_mark hopen) (lexes_mark hopen
    (spelt_items hname hop _ _ (breaks_mark hclose) (lexes_mark hclose hfail)))
  have hresult : Lexes ((resultText op).toList ++ (op.opcode.name.toList ++ '(' ::
      ((", ".intercalate (d.itemTexts op)).toList ++ ')' :: ((failText op).toList ++
        ((d.snapshotText op).toList ++ cs)))))
      (resultTokens op ++ (.name op.opcode.name :: .lparen :: (separated (d.itemTokens op) ++
        .rparen :: (failTokens op ++ (d.snapshotTokens op ++ ts))))) := by
    cases hresult : op.result with
    | none => simpa [resultText, resultTokens, hresult] using hcall
    | some r =>
      have hmark : ('=', Token.assign) ∈ marks := by decide
      have hlex := spelt_name (isName_box r) _ _ breaks_space
        (lexes_space (lexes_mark hmark (lexes_space hcall)))
      simpa [resultText, resultTokens, hresult] using hlex
  simpa [lineText, lineTokens] using hresult

theorem lexes_lines {d : Dump} (hname : IsName d.name) {ops : List Operation}
    (hops : ∀ op ∈ ops, op.InForm) : Lexes (d.linesText ops).toList (d.linesTokens ops ++ [.eof]) := by
  induction ops with
  | nil => exact Lexer.lexes_nil
  | cons op rest ih =>
    have hrest := ih fun op hop => hops op (List.mem_cons_of_mem _ hop)
    have hline := lexes_line hname (hops op (List.mem_cons_self ..))
      (hrest.blank (c := '\n') (by decide))
    simpa [linesText, linesTokens] using hline

/-- The text of a section falls into its tokens. -/
theorem lexes_text {d : Dump} (hname : IsName d.name) (inputs : List Box) {ops : List Operation}
    (hops : ∀ op ∈ ops, op.InForm) :
    Lexes (d.text inputs ops).toList (d.tokens inputs ops ++ [.eof]) := by
  have hopen : ('[', Token.lbracket) ∈ marks := by decide
  have hclose : (']', Token.rbracket) ∈ marks := by decide
  have hboxes : List.Forall₂ Spelt (inputs.map Box.name) (inputs.map fun b => [.name b.name]) := by
    rw [List.forall₂_map_left_iff, List.forall₂_map_right_iff, List.forall₂_same]
    exact fun b _ => spelt_name (isName_box b)
  have hbody := (lexes_lines hname hops).blank (c := '\n') (by decide)
  have hinputs := lexes_mark hopen (spelt_separated hboxes _ _ (breaks_mark hclose)
    (lexes_mark hclose hbody))
  have hnewline : Breaks ('\n' :: ('[' :: ((", ".intercalate (inputs.map Box.name)).toList ++
      ']' :: '\n' :: (d.linesText ops).toList))) := Lexer.breaks_cons (by decide) (by decide)
  have hheader := spelt_name hname _ _ hnewline (hinputs.blank (c := '\n') (by decide))
  have hword : Lexes ("loop".toList ++ ' ' :: _) (Lexer.nameToken (String.ofList "loop".toList) :: _) :=
    (lexes_space hheader).word (by decide) breaks_space
  have hloop : Lexer.nameToken (String.ofList "loop".toList) = .loop := by decide
  rw [hloop] at hword
  simpa [text, tokens] using hword

end Dump
end TracePeel
