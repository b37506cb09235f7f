import TracePeel.Proofs.Source.Recovering

/-! Which place an error names.

An operation that is refused as a whole is refused at its first token. A box whose name is refused
is refused one token too late: at the token right behind the name of an input, and right behind the
last token of an operation that produces the box, which belongs to the next operation or is the end
of the text (`Trace.error_places`). So an error about a name never points into it. -/
namespace TracePeel

open Grammar

/-- The errors that are given. -/
def ParseFailure.errors : ParseFailure → List ParseError
  | .one e => [e]
  | .several es => es

/-! ### Places in a text -/

namespace Lexer

/-- The place is that of the token right behind the name of an input, in front of the bracket that
closes the inputs, and begins where the name ends or later. -/
def BehindInput (source name : String) (place : Span) : Prop :=
  ∃ front named l rest, tokens source = front ++ ⟨.name name, named⟩ :: l :: rest ∧
    .rbracket ∉ front.map (·.token) ∧ place = l.span ∧ named.stop.byte ≤ place.start.byte

/-- The place is that of the token right behind an operation that produces the box, and begins where
the operation ends or later. -/
def BehindResult (source name : String) (place : Span) : Prop :=
  ∃ front ls l rest, ∃ st : Statement, tokens source = front ++ ls ++ l :: rest ∧
    st.Spells (ls.map (·.token)) ∧ st.result = some name ∧ place = l.span ∧
    ∀ l' ∈ ls, l'.span.stop.byte ≤ place.start.byte

/-- The place is that of the first token of an operation. -/
def AtOperation (source : String) (opcode : Opcode) (place : Span) : Prop :=
  ∃ front l ls rest, ∃ st : Statement, tokens source = front ++ (l :: ls) ++ rest ∧
    st.Spells ((l :: ls).map (·.token)) ∧ st.opcode = opcode ∧ place = l.span

end Lexer

/-! ### Operations that were read -/

namespace Parse

variable {r r₁ r₂ : Reader} {x : Option String × Opcode × List Item}

/-- The tokens up to the closing parenthesis spell an operation. -/
theorem spells_of_takes_head (h : r.InScope) (hhead : Takes head r x r₁) : ∃ st us,
    Statement.Spells st us ∧ st.opcode = x.2.1 ∧ r.tokens = us ++ r₁.tokens := by
  obtain ⟨s, hs⟩ := h
  obtain ⟨⟨name, opcode, entries⟩, _, vs, htokens, ⟨us, ws, rfl, hus, hws⟩, -, rfl, h₁⟩ :=
    (head_derives s).sound hs hhead
  refine ⟨⟨name, opcode, entries, none, none⟩, _, .mk hus hws .none .none, rfl, ?_⟩
  rw [htokens, h₁.tokens]
  simp

/-- So do those up to the end of what stands behind it. -/
theorem spells_of_takes_tail (h : r.InScope) {guard : Option (List Operand × Snapshot)}
    (hhead : Takes head r x r₁) (htail : Takes (possibleTail x.2.1) r₁ guard r₂) : ∃ st us,
      Statement.Spells st us ∧ st.result = x.1 ∧ r.tokens = us ++ r₂.tokens := by
  obtain ⟨s, hs⟩ := h
  obtain ⟨⟨name, opcode, entries⟩, _, vs, htokens, ⟨us, ws, rfl, hus, hws⟩, -, rfl, h₁⟩ :=
    (head_derives s).sound hs hhead
  obtain ⟨⟨failArgs, frames⟩, _, vs, rfl, ⟨us', ws', rfl, hus', hws'⟩, -, -, h₂⟩ :=
    (possibleTail_derives _ _).sound h₁ htail
  refine ⟨⟨name, opcode, entries, failArgs, frames⟩, _, .mk hus hws hus' hws', rfl, ?_⟩
  rw [htokens, h₂.tokens]
  simp

end Parse

namespace Reader

variable {source : String} {r r' : Reader} {us : List Token}

/-- The tokens between two readers, with their places. -/
theorem Upto.exists_left (h : r.Upto r') (htokens : r.tokens = us ++ r'.tokens) :
    ∃ ls, r.left = ls ++ r'.left ∧ ls.map (·.token) = us := by
  obtain ⟨ls, hls⟩ := h.left
  refine ⟨ls, hls.symm, ?_⟩
  have hmap := congrArg (List.map Lexed.token) hls
  rw [List.map_append] at hmap
  exact List.append_cancel_right (hmap.trans htokens)

theorem atOperation {x : Option String × Opcode × List Parse.Item} (h : r.InScope)
    (hleft : r.left <:+ Lexer.tokens source) (hhead : Parse.Takes Parse.head r x r') :
    Lexer.AtOperation source x.2.1 r.here.span := by
  obtain ⟨st, us, hspells, hopcode, htokens⟩ := Parse.spells_of_takes_head h hhead
  obtain ⟨ls, hls, rfl⟩ := (Parse.goesOn_head.takes hhead).exists_left htokens
  obtain ⟨front, hfront⟩ := hleft
  obtain ⟨name, rest, hstart⟩ := Parse.starts_with_name hspells
  cases ls with
  | nil => cases hstart
  | cons l ls =>
    have hhere : r.here = l := (List.cons.inj hls).1
    exact ⟨front, l, ls, r'.left, st, by rw [← hfront, hls, List.append_assoc], hspells, hopcode,
      by rw [hhere]⟩

theorem behindResult {x : Option String × Opcode × List Parse.Item} {r₁ : Reader} {name : String}
    {guard : Option (List Operand × Snapshot)} (h : r.InScope)
    (hleft : r.left <:+ Lexer.tokens source) (hhead : Parse.Takes Parse.head r x r₁)
    (htail : Parse.Takes (Parse.possibleTail x.2.1) r₁ guard r') (hname : x.1 = some name) :
    Lexer.BehindResult source name r'.here.span := by
  obtain ⟨st, us, hspells, hresult, htokens⟩ := Parse.spells_of_takes_tail h hhead htail
  have hon := (Parse.goesOn_head.takes hhead).trans ((Parse.goesOn_possibleTail _).takes htail)
  obtain ⟨ls, hls, rfl⟩ := hon.exists_left htokens
  have hordered := (Lexer.tokens_ordered source).of_suffix hleft
  rw [hls] at hordered
  obtain ⟨front, hfront⟩ := hleft
  refine ⟨front, ls, r'.here, r'.rest, st, ?_, hspells, hresult.trans hname, rfl, fun l hl => ?_⟩
  · rw [← hfront, hls, List.append_assoc]
    rfl
  · exact (List.pairwise_append.1 hordered.inFront).2.2 l hl _ (List.mem_cons_self ..)

end Reader

/-! ### The errors of a text -/

/-- A header that fails for a name fails behind it. -/
theorem Parse.HeaderFailed.behindInput {source name : String} {e : ParseError} {r : Reader}
    (h : Parse.HeaderFailed (Reader.start source) e r) (hname : e.cause.boxName? = some name) :
    Lexer.BehindInput source name e.span := by
  cases h with
  | token hcause => cases hcause.1.symm.trans hname
  | input hleft hopen hplace hcause =>
    obtain rfl := Option.some.inj (hcause.symm.trans hname)
    rw [Reader.left_start] at hleft
    refine ⟨_, _, r.here, r.rest, hleft, hopen, hplace, ?_⟩
    have hpairwise := (Lexer.tokens_ordered source).inFront
    rw [hleft] at hpairwise
    rw [hplace]
    exact List.rel_of_pairwise_cons (List.pairwise_append.1 hpairwise).2.1 (List.mem_cons_self ..)

theorem ParseCause.whole?_eq_none {cause : ParseCause} {name : String}
    (h : cause.boxName? = some name) : cause.whole? = none := by
  cases cause <;> first | rfl | cases h

/-- A text whose header is read fails in one of its rounds. -/
theorem Reader.Rounds.exists_failed {source title : String} {inputs : List Box} {r last : Reader}
    {rounds : List Reader} {failure : ParseFailure} {e : ParseError}
    (h : Parse.header.run.run (Reader.start source) = (.ok (title, inputs), r))
    (hrounds : r.Rounds rounds last) (hparse : Trace.parse source = .error failure)
    (he : e ∈ failure.errors) : ∃ r' ∈ rounds, r'.failure? = some e := by
  rw [Trace.parse_eq_of_rounds h hrounds] at hparse
  refine List.mem_filterMap.1 ?_
  split at hparse
  · cases hparse
  · rename_i e' herrors
    obtain rfl := Except.error.inj hparse
    rwa [herrors]
  · obtain rfl := Except.error.inj hparse
    exact he

/-- Where the errors of a text are found: a name that is refused is behind the place, and an
operation that is refused as a whole begins there. -/
theorem Trace.error_places {source : String} {failure : ParseFailure} {e : ParseError}
    (h : Trace.parse source = .error failure) (he : e ∈ failure.errors) :
    (∀ name, e.cause.boxName? = some name →
      Lexer.BehindInput source name e.span ∨ Lexer.BehindResult source name e.span) ∧
    ∀ opcode, e.cause.whole? = some opcode → Lexer.AtOperation source opcode e.span := by
  have hstart := Parse.untitled_start source
  rcases hheader : Parse.header.run.run (Reader.start source) with ⟨e' | ⟨title, inputs⟩, r⟩
  · simp only [Trace.parse, hheader, Except.error.injEq] at h
    obtain rfl : e = e' := by simpa [← h, ParseFailure.errors] using he
    have hfailed := (Parse.header_fails hstart.ended).of_fails hheader
    refine ⟨fun name hname => .inl (hfailed.behindInput hname), fun opcode hopcode => ?_⟩
    cases hfailed with
    | token hcause => cases hcause.2.symm.trans hopcode
    | input _ _ _ hcause => cases (ParseCause.whole?_eq_none hcause).symm.trans hopcode
  · obtain ⟨_, _, _, _, _, -, -, -, -, -, -, -, hs⟩ := Parse.header_sound hstart hheader
    have hscope : r.InScope := ⟨_, hs.tokens ▸ hs⟩
    obtain ⟨hended, hleft⟩ := Reader.left_of_header hheader
    obtain ⟨rounds, last, hrounds⟩ := Reader.exists_rounds hended
    obtain ⟨r', hmem, hfailure⟩ := hrounds.exists_failed hheader h he
    have hon := hrounds.upto r' hmem
    have hleft' := hon.left.trans hleft
    obtain ⟨r'', hfailed, -⟩ := Reader.failure?_eq_some hfailure
    cases hfailed with
    | token _ hcause =>
      refine ⟨fun name hname => ?_, fun opcode hopcode => ?_⟩
      · cases hcause.1.symm.trans hname
      · cases hcause.2.symm.trans hopcode
    | whole hhead _ hplace hcause =>
      refine ⟨fun name hname => ?_, fun opcode hopcode => ?_⟩
      · cases (ParseCause.whole?_eq_none hname).symm.trans hcause
      · obtain rfl := Option.some.inj (hcause.symm.trans hopcode)
        exact hplace ▸ Reader.atOperation (hon.inScope hscope) hleft' hhead
    | result hhead htail hstays hplace hname hcause =>
      refine ⟨fun name hgiven => .inr ?_, fun opcode hopcode => ?_⟩
      · rw [hplace, hstays.here]
        exact Reader.behindResult (hon.inScope hscope) hleft' hhead htail (hcause.symm.trans hgiven)
      · obtain ⟨name, hgiven⟩ := Option.isSome_iff_exists.1 hname
        cases (ParseCause.whole?_eq_none (hcause.trans hgiven)).symm.trans hopcode

/-- A text whose first operation lacks a field and whose second one produces a box anew. -/
theorem Trace.error_places_repeated_result : ∃ e e',
    Trace.parse "[p0]\ni1 = getfield_gc(p0)\np0 = new(descr=Node)\njump(p0)\n" =
      .error (.several [e, e']) ∧
    e.cause = .missingField .getfieldGc ∧ e'.cause = .redefinedBox "p0" ∧
    Lexer.AtOperation "[p0]\ni1 = getfield_gc(p0)\np0 = new(descr=Node)\njump(p0)\n" .getfieldGc
      e.span ∧
    (Lexer.BehindInput "[p0]\ni1 = getfield_gc(p0)\np0 = new(descr=Node)\njump(p0)\n" "p0" e'.span ∨
      Lexer.BehindResult "[p0]\ni1 = getfield_gc(p0)\np0 = new(descr=Node)\njump(p0)\n" "p0"
        e'.span) := by
  let e : ParseError := ⟨.missingField .getfieldGc, ⟨5, 2, 1⟩, ⟨7, 2, 3⟩⟩
  let e' : ParseError := ⟨.redefinedBox "p0", ⟨47, 4, 1⟩, ⟨51, 4, 5⟩⟩
  have h : Trace.parse "[p0]\ni1 = getfield_gc(p0)\np0 = new(descr=Node)\njump(p0)\n" =
      .error (.several [e, e']) := by decide +kernel
  have hfirst : e ∈ (ParseFailure.several [e, e']).errors := List.mem_cons_self ..
  have hsecond : e' ∈ (ParseFailure.several [e, e']).errors := .tail _ (List.mem_cons_self ..)
  exact ⟨e, e', h, rfl, rfl, (Trace.error_places h hfirst).2 _ rfl,
    (Trace.error_places h hsecond).1 _ rfl⟩

/-- A repeated input is blamed on the bracket behind it, not on a part of its own name, and a repeated
result on the operation behind it. -/
theorem Trace.repeated_name_not_blamed :
    (∃ e, Trace.parse "[i0, i0]\njump(i0, i0)\n" = .error (.one e) ∧
      e.cause = .redefinedBox "i0" ∧
      ∀ l ∈ Lexer.tokens "[i0, i0]\njump(i0, i0)\n", l.token = .name "i0" →
        ¬(l.span.start.byte ≤ e.span.start.byte ∧ e.span.stop.byte ≤ l.span.stop.byte)) ∧
    ∃ e, Trace.parse "[i0]\ni0 = int_neg(i0)\njump(i0)\n" = .error (.one e) ∧
      e.cause = .redefinedBox "i0" ∧
      ∀ l ∈ Lexer.tokens "[i0]\ni0 = int_neg(i0)\njump(i0)\n", l.span.start.line = 2 →
        l.span.stop.byte ≤ e.span.start.byte := by
  refine ⟨⟨⟨.redefinedBox "i0", ⟨7, 1, 8⟩, ⟨8, 1, 9⟩⟩, ?_⟩,
    ⟨.redefinedBox "i0", ⟨22, 3, 1⟩, ⟨26, 3, 5⟩⟩, ?_⟩ <;> decide +kernel

end TracePeel
