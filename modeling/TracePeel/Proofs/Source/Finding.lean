import TracePeel.Proofs.Source.Derivable

/-! Where errors are found.

Every part of the reading only goes on in the text, and it blames a token that it went past or
stands at (`Parse.GoesOn`). Two sorts of errors are about more than the token at hand: those about
the name of a box, which are found once the name is behind the reader, and those about an operation
as a whole, which are found where it begins. `Parse.operation_fails` says how far an operation was
read when it fails in either way. -/
namespace TracePeel

namespace ParseCause

/-- The box whose name is refused. -/
def boxName? : ParseCause → Option String
  | redefinedBox name | badBoxName name => some name
  | _ => none

/-- The operation that is refused as a whole. -/
def whole? : ParseCause → Option Opcode
  | badArity opcode _ _ | missingField opcode | unwantedResult opcode | missingResult opcode
  | wrongKind opcode _ _ _ => some opcode
  | _ => none

/-- What is refused is a token. -/
def IsToken (cause : ParseCause) : Prop :=
  cause.boxName? = none ∧ cause.whole? = none

end ParseCause

namespace Reader

variable {r r' r'' : Reader}

/-- The tokens from the one at hand on and their places. -/
def left (r : Reader) : List Lexed :=
  r.here :: r.rest

theorem left_next_suffix (r : Reader) : r.next.left <:+ r.left := by
  obtain ⟨here, rest, pool, boxes, loops, self⟩ := r
  cases rest with
  | nil => exact List.suffix_rfl
  | cons next rest => exact List.suffix_cons ..

theorem Ended.left_next (h : r.Ended) (hhere : r.here.token ≠ .eof) : r.next.left = r.rest := by
  obtain ⟨here, rest, pool, boxes, loops, self⟩ := r
  cases rest with
  | nil => cases (List.cons.inj (h.tokens_next hhere)).2
  | cons next rest => rfl

/-- What the names stand for and what is numbered agrees with some scope. -/
def InScope (r : Reader) : Prop :=
  ∃ s, r.Stands s r.tokens

theorem InScope.next (h : r.InScope) : r.next.InScope := by
  obtain ⟨s, hs⟩ := h
  have hgoes : r.Goes [r.here.token] r.next := ⟨rfl, rfl⟩
  exact ⟨s, hs.goes hgoes⟩

/-- `r'` stands where `r` does or further on. -/
structure Upto (r r' : Reader) : Prop where
  left : r'.left <:+ r.left
  inScope : r.InScope → r'.InScope

theorem Upto.refl (r : Reader) : r.Upto r :=
  ⟨List.suffix_rfl, id⟩

theorem Upto.trans (h : r.Upto r') (h' : r'.Upto r'') : r.Upto r'' :=
  ⟨h'.left.trans h.left, h'.inScope ∘ h.inScope⟩

theorem Upto.next (h : r.Upto r') : r.Upto r'.next :=
  h.trans ⟨r'.left_next_suffix, InScope.next⟩

/-- `r'` stands where `r` does; something may have been named or numbered. -/
structure Stays (r r' : Reader) : Prop where
  left : r'.left = r.left
  inScope : r.InScope → r'.InScope

theorem Stays.refl (r : Reader) : r.Stays r :=
  ⟨rfl, id⟩

theorem Stays.trans (h : r.Stays r') (h' : r'.Stays r'') : r.Stays r'' :=
  ⟨h'.left.trans h.left, h'.inScope ∘ h.inScope⟩

theorem Stays.upto (h : r.Stays r') : r.Upto r' :=
  ⟨h.left ▸ List.suffix_rfl, h.inScope⟩

theorem Stays.here (h : r.Stays r') : r'.here = r.here :=
  (List.cons.inj h.left).1

end Reader

namespace Parse

variable {α β : Type} {E F : ParseError → Reader → Prop} {r r' r₀ : Reader}

theorem Ends.bind {p : Parse α} {f : α → Parse β} {Q : α → Reader → Prop} {R : β → Reader → Prop}
    (h : Ends E p r Q) (hf : ∀ a r', Q a r' → Ends E (f a) r' R) : Ends E (p >>= f) r R :=
  ends_bind.2 (h.mono hf)

theorem Ends.weaken {p : Parse α} {Q : α → Reader → Prop} (h : Ends E p r Q)
    (hE : ∀ e r', E e r' → F e r') : Ends F p r Q := by
  unfold Ends at h ⊢
  split at h
  · exact h
  · exact hE _ _ h

/-- What a part takes may be used of what it ends with. -/
theorem Ends.taking {p : Parse α} {Q : α → Reader → Prop} (h : Ends E p r Q) :
    Ends E p r fun a r' => Takes p r a r' ∧ Q a r' := by
  unfold Ends at h ⊢
  unfold Takes
  split <;> rename_i hrun <;> rw [hrun] at h
  · exact ⟨hrun, h⟩
  · exact h

theorem Ends.of_takes {p : Parse α} {Q : α → Reader → Prop} {a : α} (h : Ends E p r Q)
    (htakes : Takes p r a r') : Q a r' := by
  unfold Ends at h
  rwa [show p.run.run r = _ from htakes] at h

theorem Ends.of_fails {p : Parse α} {Q : α → Reader → Prop} {e : ParseError} (h : Ends E p r Q)
    (hfails : p.run.run r = (.error e, r')) : E e r' := by
  unfold Ends at h
  rwa [hfails] at h

/-! ### Parts that blame a token -/

/-- The error is at a token between `r` and where the reading stops, the ends included. -/
def Marked (r : Reader) (e : ParseError) (r' : Reader) : Prop :=
  ∃ m, r.Upto m ∧ m.Upto r' ∧ e.span = m.here.span

/-- The part only goes on, and it fails at a token that it went past or stands at. -/
def GoesOn (p : Parse α) : Prop :=
  ∀ r₀ r : Reader, r₀.Upto r →
    Ends (fun e r' => Marked r₀ e r' ∧ e.cause.IsToken) p r fun _ r' => r₀.Upto r'

theorem GoesOn.takes {p : Parse α} {a : α} (h : GoesOn p) (htakes : Takes p r a r') : r.Upto r' :=
  (h r r (.refl r)).of_takes htakes

theorem goesOn_pure {a : α} : GoesOn (pure a : Parse α) :=
  fun _ _ h => ends_pure.2 h

theorem GoesOn.bind {p : Parse α} {f : α → Parse β} (hp : GoesOn p) (hf : ∀ a, GoesOn (f a)) :
    GoesOn (p >>= f) :=
  fun r₀ r h => (hp r₀ r h).bind fun a r' h' => hf a r₀ r' h'

theorem goesOn_fail {cause : ParseCause} (h : cause.IsToken) : GoesOn (fail cause : Parse α) :=
  fun _ r hr => ends_fail.2 ⟨⟨r, hr, .refl r, rfl⟩, h⟩

theorem goesOn_token : GoesOn token :=
  fun _ _ h => ends_token.2 h

theorem goesOn_lookahead : GoesOn lookahead :=
  fun _ _ h => ends_lookahead.2 h

theorem goesOn_get : GoesOn (get : Parse Reader) :=
  fun _ _ h => ends_get.2 h

theorem goesOn_advance : GoesOn advance :=
  fun _ _ h => ends_advance.2 h.next

theorem goesOn_checkLexed : GoesOn checkLexed := by
  refine goesOn_token.bind fun t => ?_
  split
  · exact goesOn_fail ⟨rfl, rfl⟩
  · exact goesOn_pure

theorem goesOn_expect (t : Token) : GoesOn (expect t) := by
  refine goesOn_checkLexed.bind fun _ => goesOn_token.bind fun got => ?_
  split
  · exact goesOn_advance
  · exact goesOn_fail ⟨rfl, rfl⟩

theorem goesOn_expectName : GoesOn expectName := by
  refine goesOn_checkLexed.bind fun _ => goesOn_token.bind fun got => ?_
  split
  · exact goesOn_advance.bind fun _ => goesOn_pure
  · exact goesOn_fail ⟨rfl, rfl⟩

theorem goesOn_accept (t : Token) : GoesOn (accept t) := by
  refine goesOn_token.bind fun got => ?_
  split
  · exact goesOn_advance.bind fun _ => goesOn_pure
  · exact goesOn_pure

/-- What an item and a comma keep, a list of items keeps. -/
theorem itemsWithin_keeps {I : Reader → Prop} {close : Token} {item : Parse α}
    (hitem : ∀ r, I r → r.here.token ≠ close → Ends E item r fun _ r' => I r')
    (hcomma : ∀ r, I r → r.here.token = .comma → I r.next) (fuel : Nat) (h : I r) :
    Ends E (itemsWithin close item fuel) r fun _ r' => I r' := by
  induction fuel generalizing r with
  | zero => exact ends_pure.2 h
  | succ fuel ih =>
    refine ends_bind.2 (ends_token.2 ?_)
    split
    · exact ends_pure.2 h
    · rename_i hhere
      refine (hitem r h hhere).bind fun a r₁ h₁ => ends_bind.2 ?_
      by_cases hnext : r₁.here.token = .comma
      · have htokens : r₁.tokens = .comma :: r₁.rest.map (·.token) := by
          rw [Reader.tokens, List.map_cons, hnext]
        refine (accept_ends_true htokens).2 ?_
        exact (ih (hcomma r₁ h₁ hnext)).bind fun _ _ h₂ => ends_pure.2 h₂
      · exact (accept_ends_false hnext).2 (ends_pure.2 h₁)

theorem goesOn_itemsWithin {close : Token} {item : Parse α} (hitem : GoesOn item) (fuel : Nat) :
    GoesOn (itemsWithin close item fuel) :=
  fun r₀ _ h => itemsWithin_keeps (fun r h _ => hitem r₀ r h) (fun _ h _ => h.next) fuel h

theorem goesOn_items {close : Token} {item : Parse α} (hitem : GoesOn item) :
    GoesOn (items close item) :=
  goesOn_get.bind fun r => goesOn_itemsWithin hitem (r.rest.length + 1)

theorem goesOn_address : GoesOn address := by
  refine (goesOn_expect _).bind fun _ => goesOn_token.bind fun t => ?_
  split
  · split
    · exact goesOn_fail ⟨rfl, rfl⟩
    · exact goesOn_advance.bind fun _ => (goesOn_expect _).bind fun _ => goesOn_pure
  · exact goesOn_fail ⟨rfl, rfl⟩

theorem goesOn_operand : GoesOn operand := by
  refine goesOn_checkLexed.bind fun _ => goesOn_token.bind fun t => ?_
  split
  · exact goesOn_advance.bind fun _ => goesOn_pure
  · exact goesOn_advance.bind fun _ => goesOn_pure
  · split
    · exact goesOn_advance.bind fun _ => goesOn_address
    · refine goesOn_get.bind fun r => ?_
      split
      · exact goesOn_advance.bind fun _ => goesOn_pure
      · exact goesOn_fail ⟨rfl, rfl⟩
  · exact goesOn_fail ⟨rfl, rfl⟩

theorem goesOn_operandList : GoesOn operandList :=
  (goesOn_expect _).bind fun _ => (goesOn_items goesOn_operand).bind fun _ =>
    (goesOn_expect _).bind fun _ => goesOn_pure

theorem goesOn_descrName : GoesOn descrName := by
  refine (goesOn_accept _).bind fun taken => ?_
  split
  · exact goesOn_expectName.bind fun _ => (goesOn_expect _).bind fun _ => goesOn_pure
  · exact goesOn_expectName

theorem goesOn_item : GoesOn item := by
  refine goesOn_token.bind fun t => goesOn_lookahead.bind fun u => ?_
  split
  · exact goesOn_advance.bind fun _ => goesOn_advance.bind fun _ =>
      goesOn_descrName.bind fun _ => goesOn_pure
  · exact goesOn_operand.bind fun _ => goesOn_pure

theorem goesOn_framesWithin (fuel : Nat) : GoesOn (framesWithin fuel) := by
  induction fuel with
  | zero => exact goesOn_pure
  | succ fuel ih =>
    refine goesOn_token.bind fun t => ?_
    split
    · exact goesOn_operandList.bind fun _ => ih.bind fun _ => goesOn_pure
    · exact goesOn_pure

/-- New frames are numbered; nothing is gone past. -/
theorem goesOn_snapshotOf (frames : List (List Operand)) : GoesOn (snapshotOf frames) := by
  intro r₀ r h
  show r₀.Upto { r with pool := (r.pool.chainOf frames).2 }
  have hstays : r.Stays { r with pool := (r.pool.chainOf frames).2 } :=
    ⟨rfl, fun ⟨_, hs⟩ => ⟨_, hs.chainOf frames rfl⟩⟩
  exact h.trans hstays.upto

theorem goesOn_guardTail : GoesOn guardTail := by
  rw [guardTail_eq]
  refine GoesOn.bind ?_ fun failArgs => GoesOn.bind ?_ fun frames =>
    (goesOn_snapshotOf frames).bind fun _ => goesOn_pure
  · refine goesOn_token.bind fun t => ?_
    split
    · exact goesOn_operandList
    · exact goesOn_pure
  · refine (goesOn_accept _).bind fun taken => ?_
    split
    · exact goesOn_get.bind fun r => goesOn_framesWithin _
    · exact goesOn_pure

theorem goesOn_possibleTail (opcode : Opcode) : GoesOn (possibleTail opcode) := by
  unfold possibleTail
  split
  · exact goesOn_guardTail.bind fun _ => goesOn_pure
  · exact goesOn_pure

theorem goesOn_resultName? : GoesOn resultName? := by
  refine goesOn_token.bind fun t => goesOn_lookahead.bind fun u => ?_
  split
  · exact goesOn_advance.bind fun _ => goesOn_advance.bind fun _ => goesOn_pure
  · exact goesOn_pure

/-- A word that names no operation is found where it stands, once it is behind the reader. -/
theorem goesOn_opcode : GoesOn opcode := by
  intro r₀ r h
  refine ends_bind.2 (ends_span.2 ?_)
  have hname := goesOn_expectName r₀ r h
  refine hname.taking.bind fun name r' ⟨htakes, h'⟩ => ?_
  split
  · exact ends_pure.2 h'
  · exact ⟨⟨r, h, goesOn_expectName.takes htakes, rfl⟩, rfl, rfl⟩

theorem goesOn_head : GoesOn head :=
  goesOn_resultName?.bind fun _ => goesOn_opcode.bind fun _ => (goesOn_expect _).bind fun _ =>
    (goesOn_items goesOn_item).bind fun _ => (goesOn_expect _).bind fun _ => goesOn_pure

/-! ### Names of boxes -/

/-- A name is refused at the token at hand, which is the one behind it. -/
theorem defineBox_blames (name : String) : Ends
    (fun e r' => r' = r ∧ e.span = r.here.span ∧ e.cause.boxName? = some name)
    (defineBox name) r fun _ r' => r.Stays r' := by
  have hrun : Ends (fun e r' => r' = r ∧ e.span = r.here.span ∧ e.cause.boxName? = some name)
      (defineBox name) r fun _ r' => r'.left = r.left := by
    refine ends_bind.2 (ends_span.2 ?_)
    split
    · exact ⟨rfl, rfl, rfl⟩
    · refine ends_bind.2 (ends_get.2 ?_)
      split
      · exact ⟨rfl, rfl, rfl⟩
      · rfl
  refine hrun.taking.mono ?_
  rintro b r' ⟨htakes, hleft⟩
  refine ⟨hleft, ?_⟩
  rintro ⟨s, hs⟩
  obtain ⟨hkind, hnew, rfl, rfl⟩ := (takes_defineBox hs).1 htakes
  exact ⟨_, stands_defining hs hkind hnew⟩

/-! ### Operations as a whole -/

theorem loopNamed_stays (name : Option String) :
    Ends E (loopNamed name) r fun _ r' => r.Stays r' := by
  have hrun : Ends E (loopNamed name) r fun _ r' => r'.left = r.left := by
    unfold loopNamed
    split
    · rfl
    · refine ends_bind.2 (ends_get.2 ?_)
      split <;> rfl
  refine hrun.taking.mono fun t r' ⟨htakes, hleft⟩ => ⟨hleft, ?_⟩
  intro ⟨s, hs⟩
  cases name with
  | none =>
    obtain ⟨-, rfl⟩ : t = r.self ∧ r' = r := takes_pure.1 htakes
    exact ⟨s, hs⟩
  | some name =>
    have hloop := (loopNamed_sound hs htakes).2
    exact ⟨_, hloop.tokens ▸ hloop⟩

/-- An operation is refused where it begins. -/
theorem descrOf_blames (start : Span) (opcode : Opcode) (name : Option String)
    (guard : Option (List Operand × Snapshot)) : Ends
    (fun e r' => r.Stays r' ∧ e.span = start ∧ e.cause.whole? = some opcode)
    (descrOf start opcode name guard) r fun _ r' => r.Stays r' := by
  unfold descrOf
  split
  · show r.Stays { r with pool := { r.pool with nextGuard := r.pool.nextGuard + 1 } }
    refine ⟨rfl, fun ⟨s, hs⟩ => ⟨{ s with guards := s.guards + 1 }, hs.tokens, hs.ended, ?_,
      hs.boxes, hs.loops, hs.self, hs.kinds⟩⟩
    simp [Grammar.Scope.pool, hs.pool]
  · split
    · exact (loopNamed_stays name).bind fun t r' h => ends_pure.2 h
    · split
      · exact ends_pure.2 (.refl r)
      · exact ⟨.refl r, rfl, rfl⟩
    · split
      · exact ends_pure.2 (.refl r)
      · exact ⟨.refl r, rfl, rfl⟩
    · split
      · exact ends_pure.2 (.refl r)
      · exact ⟨.refl r, rfl, rfl⟩
    · exact ends_pure.2 (.refl r)
    · exact ends_pure.2 (.refl r)

/-- An operation is refused where it begins, but for the name of its result, which is refused at
the token at hand. -/
theorem resultOf_blames (start : Span) (opcode : Opcode) (name : Option String) : Ends
    (fun e r' => r.Stays r' ∧ (e.span = start ∧ e.cause.whole? = some opcode ∨
      e.span = r'.here.span ∧ name.isSome = true ∧ e.cause.boxName? = name))
    (resultOf start opcode name) r fun _ r' => r.Stays r' := by
  cases name with
  | none =>
    unfold resultOf
    simp only
    split
    · exact ⟨.refl r, .inl ⟨rfl, rfl⟩⟩
    · exact ends_pure.2 (.refl r)
  | some name =>
    unfold resultOf
    simp only
    split
    · exact ⟨.refl r, .inl ⟨rfl, rfl⟩⟩
    · have hname := (defineBox_blames (r := r) name).weaken
        (F := fun e r' => r.Stays r' ∧ (e.span = start ∧ e.cause.whole? = some opcode ∨
          e.span = r'.here.span ∧ (some name).isSome = true ∧ e.cause.boxName? = some name)) (by
        rintro e r' ⟨rfl, hspan, hcause⟩
        exact ⟨.refl r', .inr ⟨hspan, rfl, hcause⟩⟩)
      refine hname.bind fun b r' h => ?_
      split
      · split
        · exact ⟨h, .inl ⟨rfl, rfl⟩⟩
        · exact ends_pure.2 h
      · exact ends_pure.2 h

/-- An operation has as many operands as it takes. -/
def checkArity (start : Span) (opcode : Opcode) (n : Nat) : Parse Unit :=
  match opcode.arity? with
  | some expected => if n ≠ expected then failAt start (.badArity opcode expected n) else pure ()
  | none => pure ()

theorem operation_eq : operation = (do
    checkLexed
    let start ← span
    let x ← head
    let args := x.2.2.filterMap Item.operand?
    checkArity start x.2.1 args.length
    let guard ← possibleTail x.2.1
    let descr ← descrOf start x.2.1 (x.2.2.filterMap Item.descr?).getLast? guard
    let result ← resultOf start x.2.1 x.1
    return { opcode := x.2.1, args, result, descr, failArgs := guard.map (·.1) }) := by
  unfold operation
  refine bind_congr fun _ => bind_congr fun start => ?_
  simp only [head, bind_assoc, pure_bind]
  refine bind_congr fun name => bind_congr fun opcode => bind_congr fun _ =>
    bind_congr fun items => bind_congr fun _ => ?_
  rw [checkArity, possibleTail]
  cases opcode.arity? with
  | none =>
    cases opcode.isGuard <;>
      simp only [if_true, Bool.false_eq_true, if_false, bind_assoc, pure_bind]
  | some expected =>
    simp only
    split
    · rfl
    · cases opcode.isGuard <;>
        simp only [if_true, Bool.false_eq_true, if_false, bind_assoc, pure_bind]

theorem checkArity_blames (start : Span) (opcode : Opcode) (n : Nat) : Ends
    (fun e r' => r' = r ∧ e.span = start ∧ e.cause.whole? = some opcode)
    (checkArity start opcode n) r fun _ r' => r' = r := by
  unfold checkArity
  split
  · split
    · exact ⟨rfl, rfl, rfl⟩
    · exact ends_pure.2 rfl
  · exact ends_pure.2 rfl

/-- How an operation that begins at `r` fails: at a token; as a whole, where it begins, once its
closing parenthesis is behind the reader; or for the name of its result, at the token behind its
last one. -/
inductive Failed (r : Reader) (e : ParseError) (r' : Reader) : Prop
  | token (hplace : Marked r e r') (hcause : e.cause.IsToken)
  | whole {x : Option String × Opcode × List Item} {r₁ : Reader} (hhead : Takes head r x r₁)
    (hon : r₁.Upto r') (hplace : e.span = r.here.span) (hcause : e.cause.whole? = some x.2.1)
  | result {x : Option String × Opcode × List Item} {r₁ : Reader}
    {guard : Option (List Operand × Snapshot)} {r₂ : Reader} (hhead : Takes head r x r₁)
    (htail : Takes (possibleTail x.2.1) r₁ guard r₂) (hstays : r₂.Stays r')
    (hplace : e.span = r'.here.span) (hname : x.1.isSome = true) (hcause : e.cause.boxName? = x.1)

theorem Failed.marked {e : ParseError} (h : Failed r e r') : Marked r e r' := by
  cases h with
  | token hplace => exact hplace
  | whole hhead hon hplace => exact ⟨r, .refl r, (goesOn_head.takes hhead).trans hon, hplace⟩
  | result hhead htail hstays hplace =>
    have hon := ((goesOn_head.takes hhead).trans ((goesOn_possibleTail _).takes htail)).trans
      hstays.upto
    exact ⟨r', hon, .refl r', hplace⟩

theorem GoesOn.failed {p : Parse α} {r₁ : Reader} (h : GoesOn p) (hon : r.Upto r₁) :
    Ends (Failed r) p r₁ fun _ r' => r.Upto r' :=
  (h r r₁ hon).weaken fun _ _ ⟨hplace, hcause⟩ => .token hplace hcause

theorem operation_fails : Ends (Failed r) operation r fun _ r' => r.Upto r' := by
  rw [operation_eq]
  refine (goesOn_checkLexed.failed (.refl r)).taking.bind fun _ r₀ ⟨hlexed, _⟩ => ?_
  rw [← bind_pure checkLexed, takes_checkLexed, takes_pure] at hlexed
  obtain ⟨-, -, rfl⟩ := hlexed
  refine ends_bind.2 (ends_span.2 ?_)
  refine (goesOn_head.failed (.refl r₀)).taking.bind fun x r₁ ⟨hhead, h₁⟩ => ?_
  refine ((checkArity_blames _ _ _).weaken (F := Failed r₀) ?_).bind fun _ r₁' hr₁ => ?_
  · rintro e r' ⟨rfl, hplace, hcause⟩
    exact .whole hhead (.refl _) hplace hcause
  subst hr₁
  refine ((goesOn_possibleTail x.2.1).failed h₁).taking.bind fun guard r₂ ⟨htail, h₂⟩ => ?_
  have hbehind := (goesOn_possibleTail x.2.1).takes htail
  refine ((descrOf_blames _ _ _ _).weaken (F := Failed r₀) ?_).bind fun descr r₃ h₃ => ?_
  · rintro e r' ⟨hstays, hplace, hcause⟩
    exact .whole hhead (hbehind.trans hstays.upto) hplace hcause
  refine ((resultOf_blames _ _ _).weaken (F := Failed r₀) ?_).bind fun result r₄ h₄ => ?_
  · rintro e r' ⟨hstays, ⟨hplace, hcause⟩ | ⟨hplace, hname, hcause⟩⟩
    · exact .whole hhead (hbehind.trans (h₃.trans hstays).upto) hplace hcause
    · exact .result hhead htail (h₃.trans hstays) hplace hname hcause
  exact ends_pure.2 (h₂.trans (h₃.trans h₄).upto)

/-! ### The header -/

/-- How a header that begins at `r` fails: at a token, or for the name of an input, at the token
behind it. -/
inductive HeaderFailed (r : Reader) (e : ParseError) (r' : Reader) : Prop
  | token (hcause : e.cause.IsToken)
  | input {ls : List Lexed} {name : String} {place : Span}
    (hleft : r.left = ls ++ ⟨.name name, place⟩ :: r'.left)
    (hopen : .rbracket ∉ ls.map (·.token)) (hplace : e.span = r'.here.span)
    (hcause : e.cause.boxName? = some name)

/-- The reader is still in front of the bracket that closes the inputs of a header begun at `r`. -/
structure Inside (r r' : Reader) : Prop where
  ended : r'.Ended
  left : ∃ ls, r.left = ls ++ r'.left ∧ .rbracket ∉ ls.map (·.token)

theorem Inside.next (h : Inside r r') (hhere : r'.here.token ≠ .eof)
    (hopen : r'.here.token ≠ .rbracket) : Inside r r'.next := by
  obtain ⟨hended, ls, hleft, hls⟩ := h
  refine ⟨hended.next, ls ++ [r'.here], ?_, ?_⟩
  · rw [hleft, hended.left_next hhere, List.append_assoc]
    rfl
  · simpa using ⟨by simpa using hls, hopen.symm⟩

theorem Inside.of_left {r'' : Reader} (h : Inside r r') (hsame : r''.left = r'.left) :
    Inside r r'' := by
  obtain ⟨⟨ts, hts, hnone⟩, ls, hleft, hls⟩ := h
  have htokens : r''.tokens = r'.tokens := congrArg (List.map Lexed.token) hsame
  exact ⟨⟨ts, htokens.trans hts, hnone⟩, ls, hsame.symm ▸ hleft, hls⟩

theorem input_fails (h : Inside r₀ r) : Ends (HeaderFailed r₀) (do defineBox (← expectName)) r
    fun _ r' => Inside r₀ r' := by
  have hname : Ends (HeaderFailed r₀) expectName r fun _ _ => True :=
    ((goesOn_expectName r r (.refl r)).weaken fun _ _ h => .token h.2).mono fun _ _ _ => trivial
  refine hname.taking.bind fun name r₁ ⟨htakes, _⟩ => ?_
  obtain ⟨hhere, rfl⟩ := takes_expectName.1 htakes
  have hnext := h.next (by rw [hhere]; nofun) (by rw [hhere]; nofun)
  obtain ⟨hended, ls, hleft, hls⟩ := h
  refine ((defineBox_blames name).weaken ?_).mono fun _ r' hstays => hnext.of_left hstays.left
  intro e r' ⟨hr', hplace, hcause⟩
  have hpast : r₀.left = ls ++ ⟨.name name, r.here.span⟩ :: r'.left := by
    rw [hleft, hr', hended.left_next (by rw [hhere]; nofun), ← hhere]
    rfl
  exact .input hpast hls (hr' ▸ hplace) hcause

theorem header_fails (h : r.Ended) :
    Ends (HeaderFailed r) header r fun _ r' => r'.left <:+ r.left := by
  have htoken {α : Type} {p : Parse α} {r₁ : Reader} (hp : GoesOn p) :
      Ends (HeaderFailed r) p r₁ fun _ r' => r₁.Upto r' :=
    (hp r₁ r₁ (.refl r₁)).weaken fun _ _ h => .token h.2
  have htitle : GoesOn possibleTitle := by
    refine (goesOn_accept _).bind fun taken => ?_
    split
    · exact goesOn_expectName
    · exact goesOn_pure
  rw [header_eq]
  refine (htoken htitle).taking.bind fun title r₁ ⟨htakes, _⟩ => ?_
  have hinside : Inside r (entitled r₁ title) := by
    rcases takes_possibleTitle.1 htakes with ⟨hloop, hname, rfl⟩ | ⟨-, -, rfl⟩
    · have h₀ : Inside r r := ⟨h, [], rfl, nofun⟩
      have h₁ := h₀.next (by rw [hloop]; nofun) (by rw [hloop]; nofun)
      exact (h₁.next (by rw [hname]; nofun) (by rw [hname]; nofun)).of_left rfl
    · exact ⟨h, [], rfl, nofun⟩
  refine ends_bind.2 (ends_modify.2 ?_)
  refine (htoken (goesOn_expect .lbracket)).taking.bind fun _ r₂ ⟨htakes, _⟩ => ?_
  rw [← bind_pure (expect .lbracket), takes_expect .lbracket nofun, takes_pure] at htakes
  obtain ⟨hhere, -, rfl⟩ := htakes
  have hinside := hinside.next (by rw [hhere]; nofun) (by rw [hhere]; nofun)
  refine Ends.bind (Q := fun _ r' => Inside r r') ?_ fun inputs r₃ h₃ => ?_
  · refine ends_bind.2 (ends_get.2 (itemsWithin_keeps (fun r' h' _ => input_fails h') ?_ _ hinside))
    exact fun r' h' hcomma => h'.next (by rw [hcomma]; nofun) (by rw [hcomma]; nofun)
  · refine (htoken (goesOn_expect .rbracket)).bind fun _ r₄ h₄ => ends_pure.2 ?_
    obtain ⟨-, ls, hleft, -⟩ := h₃
    exact h₄.left.trans ⟨ls, hleft.symm⟩

end Parse
end TracePeel
