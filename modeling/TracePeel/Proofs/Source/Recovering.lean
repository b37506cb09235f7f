import TracePeel.Proofs.Source.Finding
import TracePeel.Proofs.Source.Placing

/-! Reading on after an error.

Behind the header a text is read in rounds up to its end. Each round takes at least one token,
whether it reads an operation or fails and goes past the line that it began on
(`Reader.beyond_round`), so there are finitely many, and the bound on their number, like the bounds
on the loops inside of a round, is never reached (`Reader.operations_eq`, `Parse.Unbounded`). Every
round that fails gives one error, and the errors come in the order of the text
(`Trace.parse_recovers`). -/
namespace TracePeel

namespace Reader

variable {r r' r'' last : Reader} {rounds : List Reader}

/-! ### Going on -/

/-- `r'` stands at least one token behind `r`. -/
def Beyond (r r' : Reader) : Prop :=
  r'.left <:+ r.rest

theorem Beyond.length_lt (h : r.Beyond r') : r'.rest.length < r.rest.length :=
  h.length_le

theorem Beyond.upto (h : r.Beyond r') (hon : r'.Upto r'') : r.Beyond r'' :=
  hon.left.trans h

theorem Upto.beyond (hon : r.Upto r') (h : r'.Beyond r'') : r.Beyond r'' := by
  obtain ⟨ls, hls⟩ := hon.left
  cases ls with
  | nil =>
    obtain ⟨-, hrest⟩ := List.cons.inj hls
    rw [Beyond, ← hrest]
    exact h
  | cons l ls =>
    obtain ⟨-, hrest⟩ := List.cons.inj hls
    exact h.trans ⟨ls ++ [r'.here], by rw [List.append_assoc]; exact hrest⟩

theorem Ended.of_left (h : r.Ended) (hleft : r'.left <:+ r.left) : r'.Ended := by
  obtain ⟨ts, hts, hnone⟩ := h
  obtain ⟨ls, hls⟩ := hleft
  have htokens : ls.map (·.token) ++ r'.tokens = ts ++ [.eof] := by
    rw [← hts, Reader.tokens, ← List.map_append]
    exact congrArg (List.map Lexed.token) hls
  rcases List.append_eq_append_iff.1 htokens with ⟨us, rfl, hus⟩ | ⟨us, -, hus⟩
  · exact ⟨us, hus, fun hmem => hnone (List.mem_append_right _ hmem)⟩
  · cases us with
    | nil => exact ⟨[], hus.symm, List.not_mem_nil⟩
    | cons u us =>
      have hlength := congrArg List.length hus
      simp [Reader.tokens] at hlength

theorem Ended.upto (h : r.Ended) (hon : r.Upto r') : r'.Ended :=
  h.of_left hon.left

theorem Ended.beyond (h : r.Ended) (hhere : r.here.token ≠ .eof) (hon : r.next.Upto r') :
    r.Beyond r' := by
  show r'.left <:+ r.rest
  rw [← h.left_next hhere]
  exact hon.left

/-- Going on in the text changes no name and no number. -/
theorem Behind.upto {ts : List Token} (h : r.Behind ts r') (hleft : r'.left <:+ r.left) :
    r.Upto r' := by
  refine ⟨hleft, fun ⟨s, hs⟩ => ⟨s, rfl, hs.ended.of_left hleft, h.pool.trans hs.pool, ?_, ?_,
    h.self.trans hs.self, hs.kinds⟩⟩
  · rw [h.boxes]
    exact hs.boxes
  · rw [h.loops]
    exact hs.loops

/-! ### Skipping a line -/

theorem skipLine_suffix (line : Nat) (here : Lexed) (rest : List Lexed) :
    (skipLine line here rest).1 :: (skipLine line here rest).2 <:+ here :: rest := by
  induction rest generalizing here with
  | nil => exact List.suffix_rfl
  | cons next rest ih =>
    unfold skipLine
    split
    · exact (ih next).trans (List.suffix_cons ..)
    · exact List.suffix_rfl

/-- A token on the line is skipped. -/
theorem skipLine_suffix_rest {line : Nat} {here : Lexed} {rest : List Lexed} (hrest : rest ≠ [])
    (hhere : here.token ≠ .eof) (hline : here.span.start.line ≤ line) :
    (skipLine line here rest).1 :: (skipLine line here rest).2 <:+ rest := by
  cases rest with
  | nil => exact absurd rfl hrest
  | cons next rest =>
    rw [skipLine, if_pos ⟨hhere, hline⟩]
    exact skipLine_suffix line next rest

/-! ### One round -/

/-- What a round that fails gives. -/
def failure? (r : Reader) : Option ParseError :=
  match r.round.1 with
  | .error e => some e
  | .ok _ => none

/-- Where a round that fails stops, and how it goes on from there. -/
theorem round_of_fails {e : ParseError} (h : Parse.operation.run.run r = (.error e, r')) :
    r.round.1 = .error e ∧ r'.Upto r.round.2 := by
  unfold round
  rw [h]
  exact ⟨rfl, Behind.upto ⟨rfl, rfl, rfl, rfl, rfl⟩
    (skipLine_suffix r.here.span.start.line r'.here r'.rest)⟩

theorem failure?_eq_some {e : ParseError} (h : r.failure? = some e) :
    ∃ r', Parse.Failed r e r' ∧ r'.Upto r.round.2 := by
  rcases hrun : Parse.operation.run.run r with ⟨e' | op, r'⟩
  · obtain ⟨hround, hon⟩ := round_of_fails hrun
    rw [failure?, hround] at h
    obtain rfl := Option.some.inj h
    exact ⟨r', Parse.operation_fails.of_fails hrun, hon⟩
  · rw [failure?, round_eq_ok.2 hrun] at h
    cases h

theorem upto_round (r : Reader) : r.Upto r.round.2 := by
  rcases hrun : Parse.operation.run.run r with ⟨e | op, r'⟩
  · obtain ⟨m, hm, hm', -⟩ := (Parse.operation_fails.of_fails hrun).marked
    exact (hm.trans hm').trans (round_of_fails hrun).2
  · rw [round_eq_ok.2 hrun]
    exact Parse.operation_fails.of_takes hrun

end Reader

namespace Parse

variable {α : Type} {r r' : Reader}

/-- An operation begins with a name, which is taken. -/
theorem beyond_of_takes_operation {op : Operation} (h : r.Ended) (htakes : Takes operation r op r') :
    r.Beyond r' := by
  obtain ⟨-, x, r₁, hhead, -, guard, r₂, htail, descr, r₃, hdescr, result, r₄, hresult, -, rfl⟩ :=
    takes_operation.1 htakes
  rw [head, takes_bind] at hhead
  obtain ⟨name, r₅, hname, hhead⟩ := hhead
  rw [takes_bind] at hhead
  obtain ⟨o, r₆, hopcode, hparts⟩ := hhead
  obtain ⟨hhere, rfl⟩ := takes_opcode.1 hopcode
  have hbehind : GoesOn (do
      expect .lparen
      let items ← items .rparen item
      expect .rparen
      return (name, o, items)) :=
    (goesOn_expect _).bind fun _ => (goesOn_items goesOn_item).bind fun _ =>
      (goesOn_expect _).bind fun _ => goesOn_pure
  have hfirst := goesOn_resultName?.takes hname
  have hlast := ((hbehind.takes hparts).trans ((goesOn_possibleTail _).takes htail)).trans
    (((descrOf_blames _ _ _ _).of_takes hdescr).trans ((resultOf_blames _ _ _).of_takes hresult)).upto
  exact hfirst.beyond ((h.upto hfirst).beyond (by simp [hhere]) hlast)

end Parse

namespace Reader

variable {r r' r'' last : Reader} {rounds : List Reader}

/-- A round takes at least one token: where it fails without having moved, the token at hand stands
on the line that is skipped. -/
theorem beyond_round (h : r.Ended) (hhere : r.here.token ≠ .eof) : r.Beyond r.round.2 := by
  rcases hrun : Parse.operation.run.run r with ⟨e | op, r'⟩
  · obtain ⟨m, hm, hm', -⟩ := (Parse.operation_fails.of_fails hrun).marked
    obtain ⟨ls, hls⟩ := (hm.trans hm').left
    cases ls with
    | nil =>
      obtain ⟨hsame, hrest⟩ := List.cons.inj hls
      have hne : r.rest ≠ [] := by
        intro hnil
        have htokens := h.tokens_next hhere
        simp [Reader.tokens, hnil] at htokens
      unfold round
      rw [hrun]
      show (skipLine _ r'.here r'.rest).1 :: (skipLine _ r'.here r'.rest).2 <:+ r.rest
      rw [← hrest] at hne ⊢
      exact skipLine_suffix_rest hne (hsame ▸ hhere) (by rw [hsame])
    | cons l ls =>
      have hleft : r'.left <:+ r.rest := ⟨ls, (List.cons.inj hls).2⟩
      exact (round_of_fails hrun).2.left.trans hleft
  · rw [round_eq_ok.2 hrun]
    exact Parse.beyond_of_takes_operation h hrun

/-! ### Rounds one behind the other -/

/-- The readers at which the rounds from `r` on begin, up to the end of the text. -/
inductive Rounds : Reader → List Reader → Reader → Prop
  | done {r : Reader} (hhere : r.here.token = .eof) : Rounds r [] r
  | more {r last : Reader} {rounds : List Reader} (hhere : r.here.token ≠ .eof)
    (hrest : Rounds r.round.2 rounds last) : Rounds r (r :: rounds) last

theorem exists_rounds (h : r.Ended) : ∃ rounds last, r.Rounds rounds last := by
  induction hlength : r.rest.length using Nat.strong_induction_on generalizing r with
  | _ n ih =>
    by_cases hhere : r.here.token = .eof
    · exact ⟨[], r, .done hhere⟩
    · have hlt := (beyond_round h hhere).length_lt
      obtain ⟨rounds, last, hrest⟩ := ih _ (hlength ▸ hlt) (h.upto r.upto_round) rfl
      exact ⟨r :: rounds, last, .more hhere hrest⟩

namespace Rounds

/-- Each round begins where those in front of it end or further on. -/
theorem upto (h : r.Rounds rounds last) : ∀ r' ∈ rounds, r.Upto r' := by
  induction h with
  | done => nofun
  | more _ _ ih =>
    rename_i r last rounds _ _
    exact List.forall_mem_cons.2 ⟨.refl r, fun r' hmem => r.upto_round.trans (ih r' hmem)⟩

theorem pairwise (h : r.Rounds rounds last) :
    rounds.Pairwise fun r₁ r₂ => r₁.round.2.Upto r₂ := by
  induction h with
  | done => exact .nil
  | more _ hrest ih => exact List.pairwise_cons.2 ⟨hrest.upto, ih⟩

theorem here_ne_eof (h : r.Rounds rounds last) : ∀ r' ∈ rounds, r'.here.token ≠ .eof := by
  induction h with
  | done => nofun
  | more hhere _ ih => exact List.forall_mem_cons.2 ⟨hhere, ih⟩

theorem last_here (h : r.Rounds rounds last) : last.here.token = .eof := by
  induction h with
  | done hhere => exact hhere
  | more _ _ ih => exact ih

/-- There are at most as many rounds as tokens in front of the end. -/
theorem length_le (h : r.Rounds rounds last) (hended : r.Ended) :
    rounds.length ≤ r.rest.length := by
  induction h with
  | done => exact Nat.zero_le _
  | more hhere hrest ih =>
    rename_i r last rounds
    have hlt := (beyond_round hended hhere).length_lt
    have hle := ih (hended.upto r.upto_round)
    rw [List.length_cons]
    omega

/-- A bound that the rounds stay below plays no role. -/
theorem operations_eq (h : r.Rounds rounds last) {fuel : Nat} (hfuel : rounds.length < fuel) :
    r.operations fuel =
      (rounds.filterMap (·.round.1.toOption), rounds.filterMap failure?, last) := by
  induction h generalizing fuel with
  | done hhere =>
    obtain ⟨fuel, rfl⟩ := Nat.exists_eq_succ_of_ne_zero (Nat.ne_of_gt hfuel)
    rw [operations, if_pos hhere]
    rfl
  | more hhere hrest ih =>
    rename_i r last rounds
    obtain ⟨fuel, rfl⟩ := Nat.exists_eq_succ_of_ne_zero (Nat.ne_of_gt (Nat.zero_lt_of_lt hfuel))
    rw [List.length_cons] at hfuel
    rw [operations, if_neg hhere, List.filterMap_cons, List.filterMap_cons, failure?]
    simp only [ih (Nat.lt_of_succ_lt_succ hfuel)]
    cases hround : r.round.1 with
    | ok op => simp [Except.toOption]
    | error e => simp [Except.toOption]

/-- The errors of the rounds come in the order of the text. -/
theorem failures_ordered (h : r.Rounds rounds last) {p : Position}
    (hordered : Lexer.OrderedFrom p r.left) :
    (rounds.filterMap failure?).Pairwise fun e e' => e.span.start.byte ≤ e'.span.start.byte := by
  have hsub := h.upto
  refine List.pairwise_filterMap.2 (h.pairwise.imp_of_mem fun {r₁ r₂} h₁ _ hon e he e' he' => ?_)
  obtain ⟨r₁', hfailed, hon'⟩ := failure?_eq_some he
  obtain ⟨r₂', hfailed', -⟩ := failure?_eq_some he'
  obtain ⟨m, hm, hm', hplace⟩ := hfailed.marked
  obtain ⟨m', hnext, -, hplace'⟩ := hfailed'.marked
  rw [hplace, hplace']
  have hleft : m'.left <:+ m.left := (((hm'.trans hon').trans hon).trans hnext).left
  have hbehind := hordered.of_suffix ((h.upto r₁ h₁).trans hm).left
  exact hbehind.start_le (hleft.subset (List.mem_cons_self ..))

end Rounds
end Reader

/-! ### Loops inside of a round -/

namespace Parse

variable {α : Type} {r r' : Reader} {part : Parse α} {close : Token}

/-- The part takes at least one token. -/
def Consumes (p : Parse α) : Prop :=
  ∀ r r' a, r.Ended → Takes p r a r' → r.Beyond r'

theorem consumes_operand : Consumes operand := by
  intro r r' a h htakes
  have hon (hhere : r.here.token ≠ .eof) {p : Parse Operand} (hp : GoesOn p)
      (htakes : Takes p r.next a r') : r.Beyond r' := h.beyond hhere (hp.takes htakes)
  rw [operand, takes_checkLexed, takes_token] at htakes
  obtain ⟨-, htakes⟩ := htakes
  split at htakes
  case h_1 hhere => exact hon (by simp [hhere]) goesOn_pure (takes_advance.1 htakes)
  case h_2 hhere => exact hon (by simp [hhere]) goesOn_pure (takes_advance.1 htakes)
  case h_3 hhere =>
    split at htakes
    · exact hon (by simp [hhere]) goesOn_address (takes_advance.1 htakes)
    · rw [takes_get] at htakes
      split at htakes
      · exact hon (by simp [hhere]) goesOn_pure (takes_advance.1 htakes)
      · exact absurd htakes takes_fail
  case h_4 => exact absurd htakes takes_fail

theorem consumes_item : Consumes item := by
  intro r r' a h htakes
  rw [Parse.item, takes_token, takes_lookahead] at htakes
  split at htakes
  case isTrue hhere =>
    have hbehind : GoesOn (do
        advance
        return Item.descr (← descrName)) :=
      goesOn_advance.bind fun _ => goesOn_descrName.bind fun _ => goesOn_pure
    exact h.beyond (by simp [hhere.1]) (hbehind.takes (takes_advance.1 htakes))
  case isFalse =>
    rw [takes_bind] at htakes
    obtain ⟨a', r₁, htakes, hpure⟩ := htakes
    obtain ⟨-, rfl⟩ := takes_pure.1 hpure
    exact consumes_operand _ _ a' h htakes

theorem consumes_input : Consumes (do defineBox (← expectName)) := by
  intro r r' b h htakes
  obtain ⟨name, hhere, htakes⟩ := takes_name.1 htakes
  exact h.beyond (by simp [hhere]) ((defineBox_blames name).of_takes htakes).upto

theorem consumes_operandList : Consumes operandList := by
  intro r r' a h htakes
  rw [operandList, takes_expect .lbracket (fun _ => by simp)] at htakes
  obtain ⟨hhere, htakes⟩ := htakes
  have hbehind : GoesOn (do
      let list ← items .rbracket operand
      expect .rbracket
      pure list) :=
    (goesOn_items goesOn_operand).bind fun _ => (goesOn_expect _).bind fun _ => goesOn_pure
  exact h.beyond (by simp [hhere]) (hbehind.takes htakes)

/-- One round of a list of items in front of the others. -/
def itemsStep (close : Token) (part : Parse α) (others : Parse (List α)) : Parse (List α) := do
  if (← token) = close then return []
  let first ← part
  if ← accept .comma then return first :: (← others)
  else return [first]

/-- One list of operands in front of the others. -/
def framesStep (others : Parse (List (List Operand))) : Parse (List (List Operand)) := do
  if (← token) = .lbracket then
    let entries ← operandList
    return entries :: (← others)
  else pure []

/-- As many lists of operands as stand one behind the other. -/
def frames : Parse (List (List Operand)) := do
  framesWithin ((← get).rest.length + 1)

variable {β : Type}

/-- Two parts run alike if they do behind a common part that they begin with. -/
theorem run_bind_congr {p : Parse α} {f g : α → Parse β}
    (h : ∀ a r', Takes p r a r' → (f a).run.run r' = (g a).run.run r') :
    (p >>= f).run.run r = (p >>= g).run.run r := by
  rw [run_bind, run_bind]
  rcases hrun : p.run.run r with ⟨e | a, r'⟩
  · rfl
  · exact h a r' hrun

/-- The others are only read further on. -/
theorem itemsStep_congr {others others' : Parse (List α)} (hpart : Consumes part) (h : r.Ended)
    (hothers : ∀ r', r.Beyond r' → r'.Ended → others.run.run r' = others'.run.run r') :
    (itemsStep close part others).run.run r = (itemsStep close part others').run.run r := by
  refine run_bind_congr fun t r₁ ht => ?_
  obtain rfl : r₁ = r := (Prod.mk.inj ht).2.symm
  split
  · rfl
  · refine run_bind_congr fun a r₂ htakes => run_bind_congr fun taken r₃ hcomma => ?_
    split
    · have hbeyond := (hpart r₁ r₂ a h htakes).upto ((goesOn_accept _).takes hcomma)
      have hended := h.of_left (hbeyond.trans (List.suffix_cons ..))
      rw [run_bind, run_bind, hothers r₃ hbeyond hended]
    · rfl

theorem framesStep_congr {others others' : Parse (List (List Operand))} (h : r.Ended)
    (hothers : ∀ r', r.Beyond r' → r'.Ended → others.run.run r' = others'.run.run r') :
    (framesStep others).run.run r = (framesStep others').run.run r := by
  refine run_bind_congr fun t r₁ ht => ?_
  obtain rfl : r₁ = r := (Prod.mk.inj ht).2.symm
  split
  · refine run_bind_congr fun a r₂ htakes => ?_
    have hbeyond := consumes_operandList r₁ r₂ a h htakes
    rw [run_bind, run_bind, hothers r₂ hbeyond (h.of_left (hbeyond.trans (List.suffix_cons ..)))]
  · rfl

/-- Bounds on the rounds of a loop that the tokens left stay below make no difference. -/
theorem within_congr {loop : Nat → Parse β} {step : Parse β → Parse β}
    (hloop : ∀ n, loop (n + 1) = step (loop n))
    (hstep : ∀ {r : Reader} {others others' : Parse β}, r.Ended →
      (∀ r', r.Beyond r' → r'.Ended → others.run.run r' = others'.run.run r') →
        (step others).run.run r = (step others').run.run r) {m n : Nat} (h : r.Ended)
    (hm : r.rest.length < m) (hn : r.rest.length < n) :
    (loop m).run.run r = (loop n).run.run r := by
  induction m generalizing n r with
  | zero => exact absurd hm (Nat.not_lt_zero _)
  | succ m ih =>
    obtain ⟨n, rfl⟩ := Nat.exists_eq_succ_of_ne_zero (Nat.ne_of_gt (Nat.zero_lt_of_lt hn))
    rw [hloop, hloop]
    refine hstep h fun r' hbeyond hended => ?_
    have hlt := hbeyond.length_lt
    exact ih hended (by omega) (by omega)

theorem items_eq_step (hpart : Consumes part) (h : r.Ended) : (items close part).run.run r =
    (itemsStep close part (items close part)).run.run r := by
  have hrun : (items close part).run.run r =
      (itemsStep close part (itemsWithin close part r.rest.length)).run.run r := rfl
  rw [hrun]
  refine itemsStep_congr hpart h fun r' hbeyond hended => ?_
  have hlt := hbeyond.length_lt
  exact within_congr (fun _ => rfl) (fun h => itemsStep_congr hpart h) hended hlt (Nat.lt_succ_self _)

theorem frames_eq_step (h : r.Ended) : frames.run.run r = (framesStep frames).run.run r := by
  refine framesStep_congr h fun r' hbeyond hended => ?_
  have hlt := hbeyond.length_lt
  exact within_congr (fun _ => rfl) (fun h => framesStep_congr h) hended hlt (Nat.lt_succ_self _)

/-- The loops of the reading go round until they are done: each is one round in front of the loop
itself, with no bound. -/
structure Unbounded (r : Reader) : Prop where
  inputs : (items .rbracket do defineBox (← expectName)).run.run r =
    (itemsStep .rbracket (do defineBox (← expectName))
      (items .rbracket do defineBox (← expectName))).run.run r
  entries : (items .rparen item).run.run r =
    (itemsStep .rparen item (items .rparen item)).run.run r
  operands : (items .rbracket operand).run.run r =
    (itemsStep .rbracket operand (items .rbracket operand)).run.run r
  frames : frames.run.run r = (framesStep frames).run.run r

theorem unbounded (h : r.Ended) : Unbounded r :=
  ⟨items_eq_step consumes_input h, items_eq_step consumes_item h,
    items_eq_step consumes_operand h, frames_eq_step h⟩

end Parse

/-! ### Whole texts -/

namespace Reader

theorem left_start (source : String) : (Reader.start source).left = Lexer.tokens source := by
  unfold Reader.start
  cases htokens : Lexer.tokens source with
  | nil => exact absurd htokens (Lexer.tokensFrom_ne_nil _ _ _)
  | cons here rest => rfl

/-- Behind the header the tokens left are tokens of the text. -/
theorem left_of_header {source : String} {title : String} {inputs : List Box} {r : Reader}
    (h : Parse.header.run.run (Reader.start source) = (.ok (title, inputs), r)) :
    r.Ended ∧ r.left <:+ Lexer.tokens source := by
  have hended := (Parse.untitled_start source).ended
  have hleft := (Parse.header_fails hended).of_takes h
  exact ⟨hended.of_left hleft, left_start source ▸ hleft⟩

end Reader

/-- Behind the header a text gives what its rounds give. -/
theorem Trace.parse_eq_of_rounds {source title : String} {inputs : List Box} {r last : Reader}
    {rounds : List Reader}
    (h : Parse.header.run.run (Reader.start source) = (.ok (title, inputs), r))
    (hrounds : r.Rounds rounds last) :
    Trace.parse source = match rounds.filterMap Reader.failure? with
      | [] => .ok { name := title, token := last.self, inputs,
                    ops := rounds.filterMap (·.round.1.toOption), pool := last.pool }
      | [e] => .error (.one e)
      | errors => .error (.several errors) := by
  have hlong : rounds.length < r.rest.length + 1 :=
    Nat.lt_succ_of_le (hrounds.length_le (Reader.left_of_header h).1)
  simp only [Trace.parse, h, hrounds.operations_eq hlong]
  rcases rounds.filterMap Reader.failure? with _ | ⟨e, _ | ⟨e', errors⟩⟩ <;> rfl

/-- No bound of the reading is ever reached, wherever in the text it is. An error in the header is
the only one that is given. Behind the header there are finitely many rounds, each takes at least
one token, and the last leaves the reader at the end; the text is a trace just if none of them
fails, and otherwise the errors of those that fail are given, each once and in the order of the
text. -/
theorem Trace.parse_recovers (source : String) :
    (∀ fuel, source.toList.length ≤ fuel →
      Lexer.tokensFrom fuel {} source.toList = Lexer.tokens source) ∧
    (∀ r : Reader, r.left <:+ Lexer.tokens source → Parse.Unbounded r) ∧
    (∀ e r, Parse.header.run.run (Reader.start source) = (.error e, r) →
      Trace.parse source = .error (.one e)) ∧
    ∀ title inputs r, Parse.header.run.run (Reader.start source) = (.ok (title, inputs), r) →
      ∃ rounds last, r.Rounds rounds last ∧ last.here.token = .eof ∧
        (∀ r' ∈ rounds, r'.here.token ≠ .eof ∧ r'.Beyond r'.round.2) ∧
        (rounds.filterMap Reader.failure?).Pairwise
          (fun e e' => e.span.start.byte ≤ e'.span.start.byte) ∧
        Trace.parse source = match rounds.filterMap Reader.failure? with
          | [] => .ok { name := title, token := last.self, inputs,
                        ops := rounds.filterMap (·.round.1.toOption), pool := last.pool }
          | [e] => .error (.one e)
          | errors => .error (.several errors) := by
  have hstart := (Parse.untitled_start source).ended
  refine ⟨fun fuel hfuel => Lexer.tokensFrom_congr hfuel le_rfl, fun r hleft => ?_,
    fun e r h => ?_, fun title inputs r h => ?_⟩
  · rw [← Reader.left_start] at hleft
    exact Parse.unbounded (hstart.of_left hleft)
  · simp only [Trace.parse, h]
  · obtain ⟨hended, hleft⟩ := Reader.left_of_header h
    obtain ⟨rounds, last, hrounds⟩ := Reader.exists_rounds hended
    have hordered := (Lexer.tokens_ordered source).of_suffix hleft
    have htaken : ∀ r' ∈ rounds, r'.here.token ≠ .eof ∧ r'.Beyond r'.round.2 := by
      intro r' hmem
      have hhere := hrounds.here_ne_eof r' hmem
      exact ⟨hhere, Reader.beyond_round (hended.upto (hrounds.upto r' hmem)) hhere⟩
    exact ⟨rounds, last, hrounds, hrounds.last_here, htaken, hrounds.failures_ordered hordered,
      Trace.parse_eq_of_rounds h hrounds⟩

end TracePeel
