import TracePeel.Source.Parser

/-! What a part of the reading ends with.

`Ends` speaks of a part at a reader: the value and the reader that it ends with satisfy
a predicate, and an error is one that is allowed for. There is one lemma for each way to
put parts together and one for each part that looks at a token or goes past it. Where
tokens stand in the text plays no role: `Behind` says which ones are left. -/
namespace TracePeel

namespace Reader

/-- The tokens from the one at hand on. -/
def tokens (r : Reader) : List Token :=
  (r.here :: r.rest).map (·.token)

/-- The reader one token further. -/
def next (r : Reader) : Reader :=
  match r.rest with
  | [] => r
  | next :: rest => { r with here := next, rest }

/-- `r'` is `r` gone on to where the tokens `ts` are left. -/
structure Behind (r : Reader) (ts : List Token) (r' : Reader) : Prop where
  tokens : r'.tokens = ts
  pool : r'.pool = r.pool
  boxes : r'.boxes = r.boxes
  loops : r'.loops = r.loops
  self : r'.self = r.self

variable {r r' r'' : Reader} {t : Token} {ts us : List Token}

theorem here_token (h : r.tokens = t :: ts) : r.here.token = t :=
  (List.cons.inj h).1

theorem behind_self (h : r.tokens = ts) : r.Behind ts r :=
  ⟨h, rfl, rfl, rfl, rfl⟩

theorem Behind.trans (h : r.Behind ts r') (h' : r'.Behind us r'') : r.Behind us r'' :=
  ⟨h'.tokens, h'.pool.trans h.pool, h'.boxes.trans h.boxes, h'.loops.trans h.loops,
    h'.self.trans h.self⟩

theorem behind_next (h : r.tokens = t :: ts) (hts : ts ≠ []) : r.Behind ts r.next := by
  obtain ⟨here, rest, pool, boxes, loops, self⟩ := r
  obtain ⟨-, hrest⟩ := List.cons.inj h
  cases rest with
  | nil => exact absurd hrest.symm hts
  | cons next rest => exact ⟨hrest, rfl, rfl, rfl, rfl⟩

theorem behind_next' (r : Reader) : r.Behind r.next.tokens r.next := by
  obtain ⟨here, rest, pool, boxes, loops, self⟩ := r
  cases rest <;> exact ⟨rfl, rfl, rfl, rfl, rfl⟩

theorem Behind.next (h : r.Behind (t :: ts) r') (hts : ts ≠ []) : r.Behind ts r'.next :=
  h.trans (behind_next h.tokens hts)

end Reader

namespace Parse

variable {α β : Type} {E : ParseError → Reader → Prop} {r : Reader}

/-- The part ends with a value, at a reader, that satisfy `Q`, or fails as `E` allows. -/
def Ends (E : ParseError → Reader → Prop) (p : Parse α) (r : Reader) (Q : α → Reader → Prop) :
    Prop :=
  match p.run.run r with
  | (.ok a, r') => Q a r'
  | (.error e, r') => E e r'

/-! ### Putting parts together -/

theorem Ends.mono {p : Parse α} {Q R : α → Reader → Prop} (h : Ends E p r Q)
    (hQ : ∀ a r', Q a r' → R a r') : Ends E p r R := by
  unfold Ends at h ⊢
  split at h
  · exact hQ _ _ h
  · exact h

theorem ends_pure {a : α} {Q : α → Reader → Prop} : Ends E (pure a) r Q ↔ Q a r :=
  Iff.rfl

theorem run_bind {p : Parse α} {f : α → Parse β} :
    (p >>= f).run.run r = match p.run.run r with
      | (.ok a, r') => (f a).run.run r'
      | (.error e, r') => (.error e, r') := by
  show ((do ExceptT.bindCont f (← p.run)) : StateM Reader _).run r = _
  simp only [StateT.run_bind]
  rcases p.run.run r with ⟨_ | _, _⟩ <;> rfl

theorem ends_bind {p : Parse α} {f : α → Parse β} {Q : β → Reader → Prop} :
    Ends E (p >>= f) r Q ↔ Ends E p r fun a r' => Ends E (f a) r' Q := by
  unfold Ends
  rw [run_bind]
  rcases p.run.run r with ⟨_ | _, _⟩ <;> rfl

theorem ends_get {Q : Reader → Reader → Prop} : Ends E get r Q ↔ Q r r :=
  Iff.rfl

theorem ends_modify {f : Reader → Reader} {Q : PUnit → Reader → Prop} :
    Ends E (modify f) r Q ↔ Q ⟨⟩ (f r) :=
  Iff.rfl

theorem ends_fail {cause : ParseCause} {Q : α → Reader → Prop} :
    Ends E (fail cause) r Q ↔ E ⟨cause, r.here.span⟩ r :=
  Iff.rfl

/-! ### Tokens -/

theorem ends_token {Q : Token → Reader → Prop} : Ends E token r Q ↔ Q r.here.token r :=
  Iff.rfl

theorem ends_span {Q : Span → Reader → Prop} : Ends E span r Q ↔ Q r.here.span r :=
  Iff.rfl

theorem ends_lookahead {Q : Token → Reader → Prop} :
    Ends E lookahead r Q ↔ Q (r.rest.headD r.here).token r :=
  Iff.rfl

theorem ends_advance {Q : Unit → Reader → Prop} : Ends E advance r Q ↔ Q () r.next :=
  Iff.rfl

/-- A token that is one. -/
def IsLexed (t : Token) : Prop :=
  ∀ reason, t ≠ .invalid reason

variable {t u : Token} {ts : List Token}

theorem checkLexed_ends (h : IsLexed r.here.token) {Q : Unit → Reader → Prop} :
    Ends E checkLexed r Q ↔ Q () r := by
  simp only [checkLexed, ends_bind, ends_token]
  split
  case h_1 reason hreason => exact absurd hreason (h reason)
  case h_2 => exact ends_pure

theorem lookahead_eq (h : r.tokens = t :: u :: ts) : (r.rest.headD r.here).token = u := by
  obtain ⟨here, rest, pool, boxes, loops, self⟩ := r
  obtain ⟨-, hrest⟩ := List.cons.inj h
  cases rest with
  | nil => cases hrest
  | cons next rest => exact (List.cons.inj hrest).1

theorem expect_ends (h : r.tokens = t :: ts) (ht : IsLexed t) {Q : Unit → Reader → Prop} :
    Ends E (expect t) r Q ↔ Q () r.next := by
  have hhere := Reader.here_token h
  simp only [expect, ends_bind, checkLexed_ends (hhere ▸ ht), ends_token, hhere, if_true,
    ends_advance]

theorem expectName_ends {name : String} (h : r.tokens = .name name :: ts)
    {Q : String → Reader → Prop} : Ends E expectName r Q ↔ Q name r.next := by
  have hhere := Reader.here_token h
  have hlexed : IsLexed r.here.token := by rw [hhere]; nofun
  simp only [expectName, ends_bind, checkLexed_ends hlexed, ends_token, hhere, ends_advance,
    ends_pure]

theorem accept_ends_true (h : r.tokens = t :: ts) {Q : Bool → Reader → Prop} :
    Ends E (accept t) r Q ↔ Q true r.next := by
  simp only [accept, ends_bind, ends_token, Reader.here_token h, if_true, ends_advance, ends_pure]

theorem accept_ends_false (h : r.here.token ≠ t) {Q : Bool → Reader → Prop} :
    Ends E (accept t) r Q ↔ Q false r := by
  simp only [accept, ends_bind, ends_token, if_neg h, ends_pure]

end Parse
end TracePeel
