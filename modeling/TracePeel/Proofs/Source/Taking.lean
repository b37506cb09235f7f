import TracePeel.Proofs.Source.Reading

/-! What a part of the reading takes.

`Takes` says that a part succeeds at a reader, with which value and at which reader. There is one
equivalence for each way to put parts together and one for each part that looks at a token or goes
past it, so that a part takes what its pieces take and nothing else. `Goes` says which tokens a
reader has gone past. -/
namespace TracePeel

namespace Reader

variable {r r' : Reader} {t : Token} {ts us : List Token}

/-- `r'` is `r` gone past the tokens. -/
def Goes (r : Reader) : List Token → Reader → Prop
  | [], r' => r' = r
  | t :: ts, r' => r.here.token = t ∧ r.next.Goes ts r'

theorem goes_nil : r.Goes [] r' ↔ r' = r := Iff.rfl

/-- The tokens end with the end of the text, and it stands nowhere else. -/
def Ended (r : Reader) : Prop :=
  ∃ ts, r.tokens = ts ++ [.eof] ∧ .eof ∉ ts

/-- A reader in front of a token goes past it. -/
theorem Ended.tokens_next (h : r.Ended) (hhere : r.here.token ≠ .eof) :
    r.tokens = r.here.token :: r.next.tokens := by
  obtain ⟨here, rest, pool, boxes, loops, self⟩ := r
  obtain ⟨ts, hts, -⟩ := h
  cases rest with
  | nil =>
    have hlast : ([here.token] : List Token).getLast? = some .eof := by
      rw [show [here.token] = ts ++ [.eof] from hts]
      simp
    exact absurd (Option.some.inj hlast) hhere
  | cons next rest => rfl

theorem Ended.next (h : r.Ended) : r.next.Ended := by
  by_cases hhere : r.here.token = .eof
  · obtain ⟨ts, hts, hnone⟩ := h
    obtain ⟨here, rest, pool, boxes, loops, self⟩ := r
    cases ts with
    | nil =>
      cases rest with
      | nil => exact ⟨[], hts, nofun⟩
      | cons next rest => cases (List.cons.inj hts).2
    | cons t ts =>
      obtain rfl : here.token = t := (List.cons.inj hts).1
      exact absurd (hhere ▸ List.mem_cons_self ..) hnone
  · have htokens := h.tokens_next hhere
    obtain ⟨ts, hts, hnone⟩ := h
    rw [htokens] at hts
    cases ts with
    | nil => exact absurd (List.cons.inj hts).1 hhere
    | cons t ts => exact ⟨ts, (List.cons.inj hts).2, fun hmem => hnone (.tail _ hmem)⟩

theorem Ended.goes (h : r.Ended) (hgoes : r.Goes ts r') : r'.Ended := by
  induction ts generalizing r with
  | nil => exact goes_nil.1 hgoes ▸ h
  | cons t ts ih => exact ih h.next hgoes.2

/-- What is left behind the tokens that a reader has gone past. -/
theorem Ended.tokens_of_goes (h : r.Ended) (hts : .eof ∉ ts) (hgoes : r.Goes ts r') :
    r.tokens = ts ++ r'.tokens := by
  induction ts generalizing r with
  | nil =>
    rw [goes_nil.1 hgoes]
    rfl
  | cons t ts ih =>
    obtain ⟨rfl, hgoes⟩ := hgoes
    have hhere : r.here.token ≠ .eof := fun h => hts (h ▸ List.mem_cons_self ..)
    rw [h.tokens_next hhere, List.cons_append, ih h.next (fun h => hts (.tail _ h)) hgoes]

/-- A reader goes past the tokens in front of it. -/
theorem exists_goes (hus : us ≠ []) (htokens : r.tokens = ts ++ us) :
    ∃ r', r.Goes ts r' ∧ r'.tokens = us := by
  induction ts generalizing r with
  | nil => exact ⟨r, rfl, htokens⟩
  | cons t ts ih =>
    have hnext := behind_next htokens (by simp [hus])
    obtain ⟨r', hgoes, hleft⟩ := ih hnext.tokens
    exact ⟨r', ⟨here_token htokens, hgoes⟩, hleft⟩

theorem goes_behind (hgoes : r.Goes ts r') : r.Behind r'.tokens r' := by
  induction ts generalizing r with
  | nil => exact goes_nil.1 hgoes ▸ behind_self rfl
  | cons t ts ih => exact (behind_next' r).trans (ih hgoes.2)

end Reader

namespace Parse

variable {α β : Type} {r r' : Reader}

/-- The part ends without an error, with the value and at the reader. -/
def Takes (p : Parse α) (r : Reader) (a : α) (r' : Reader) : Prop :=
  p.run.run r = (.ok a, r')

/-! ### Putting parts together -/

theorem takes_pure {a b : α} : Takes (pure a) r b r' ↔ b = a ∧ r' = r := by
  show (Except.ok a, r) = (Except.ok b, r') ↔ _
  rw [Prod.mk.injEq, Except.ok.injEq, eq_comm (a := b), eq_comm (a := r')]

theorem takes_bind {p : Parse α} {f : α → Parse β} {b : β} :
    Takes (p >>= f) r b r' ↔ ∃ a r₁, Takes p r a r₁ ∧ Takes (f a) r₁ b r' := by
  unfold Takes
  rw [run_bind]
  rcases p.run.run r with ⟨e | a, r₁⟩
  · constructor
    · rintro ⟨⟩
    · rintro ⟨_, _, h, -⟩
      cases h
  · refine ⟨fun h => ⟨a, r₁, rfl, h⟩, ?_⟩
    rintro ⟨_, _, h, hf⟩
    cases h
    exact hf

theorem takes_failAt {span : Span} {cause : ParseCause} {a : α} :
    ¬Takes (failAt span cause) r a r' :=
  nofun

theorem takes_fail {cause : ParseCause} {a : α} : ¬Takes (fail cause) r a r' :=
  nofun

/-- Behind a check, what was to be ruled out does not hold. -/
theorem takes_check {c : Prop} [Decidable c] {span : Span} {cause : ParseCause} {p : Parse β}
    {b : β} : Takes (if c then do
        failAt span cause
        p
      else p) r b r' ↔ ¬c ∧ Takes p r b r' := by
  split
  · rename_i h
    exact iff_of_false nofun fun h' => h'.1 h
  · rename_i h
    exact (and_iff_right h).symm

variable {f : Reader → Parse β} {b : β}

theorem takes_get : Takes (get >>= f) r b r' ↔ Takes (f r) r b r' := Iff.rfl

theorem takes_modify {g : Reader → Reader} {f : PUnit → Parse β} :
    Takes (modify g >>= f) r b r' ↔ Takes (f ⟨⟩) (g r) b r' := Iff.rfl

/-! ### Tokens -/

theorem takes_token {f : Token → Parse β} :
    Takes (token >>= f) r b r' ↔ Takes (f r.here.token) r b r' := Iff.rfl

theorem takes_span {f : Span → Parse β} :
    Takes (span >>= f) r b r' ↔ Takes (f r.here.span) r b r' := Iff.rfl

theorem takes_advance {f : Unit → Parse β} :
    Takes (advance >>= f) r b r' ↔ Takes (f ()) r.next b r' := Iff.rfl

theorem takes_lookahead {f : Token → Parse β} :
    Takes (lookahead >>= f) r b r' ↔ Takes (f r.next.here.token) r b r' := by
  obtain ⟨here, rest, pool, boxes, loops, self⟩ := r
  cases rest <;> exact Iff.rfl

theorem takes_checkLexed {f : Unit → Parse β} :
    Takes (checkLexed >>= f) r b r' ↔ IsLexed r.here.token ∧ Takes (f ()) r b r' := by
  have hcheck {u : Unit} {r₁ : Reader} :
      Takes checkLexed r u r₁ ↔ IsLexed r.here.token ∧ r₁ = r := by
    unfold checkLexed
    rw [takes_token]
    split
    · rename_i reason h
      exact iff_of_false takes_fail fun hlexed => hlexed.1 reason h
    · rename_i h
      rw [takes_pure]
      exact ⟨fun hr => ⟨h, hr.2⟩, fun hr => ⟨rfl, hr.2⟩⟩
  simp only [takes_bind, hcheck]
  constructor
  · rintro ⟨_, _, ⟨h, rfl⟩, hf⟩
    exact ⟨h, hf⟩
  · rintro ⟨h, hf⟩
    exact ⟨(), r, ⟨h, rfl⟩, hf⟩

theorem takes_expect (t : Token) (ht : IsLexed t) {f : Unit → Parse β} :
    Takes (expect t >>= f) r b r' ↔ r.here.token = t ∧ Takes (f ()) r.next b r' := by
  have hexpect {u : Unit} {r₁ : Reader} :
      Takes (expect t) r u r₁ ↔ r.here.token = t ∧ r₁ = r.next := by
    unfold expect
    rw [takes_checkLexed, takes_token]
    split
    · rename_i h
      show _ ∧ (Except.ok (), r.next) = (Except.ok u, r₁) ↔ _
      rw [Prod.mk.injEq, eq_comm (a := r₁)]
      exact ⟨fun h' => ⟨h, h'.2.2⟩, fun h' => ⟨h ▸ ht, rfl, h'.2⟩⟩
    · rename_i h
      exact iff_of_false (fun h' => takes_fail h'.2) fun h' => h h'.1
  simp only [takes_bind, hexpect]
  constructor
  · rintro ⟨_, _, ⟨h, rfl⟩, hf⟩
    exact ⟨h, hf⟩
  · rintro ⟨h, hf⟩
    exact ⟨(), r.next, ⟨h, rfl⟩, hf⟩

theorem takes_expectName {name : String} :
    Takes expectName r name r' ↔ r.here.token = .name name ∧ r' = r.next := by
  unfold expectName
  rw [takes_checkLexed, takes_token]
  split
  · rename_i got h
    rw [takes_advance, takes_pure, h, Token.name.injEq, eq_comm (a := got)]
    exact and_iff_right nofun
  · rename_i h
    exact iff_of_false (fun h' => takes_fail h'.2) fun h' => h name h'.1

theorem takes_name {f : String → Parse β} :
    Takes (expectName >>= f) r b r' ↔
      ∃ name, r.here.token = .name name ∧ Takes (f name) r.next b r' := by
  simp only [takes_bind, takes_expectName]
  constructor
  · rintro ⟨name, _, ⟨h, rfl⟩, hf⟩
    exact ⟨name, h, hf⟩
  · rintro ⟨name, h, hf⟩
    exact ⟨name, r.next, ⟨h, rfl⟩, hf⟩

theorem takes_accept {t : Token} {f : Bool → Parse β} :
    Takes (accept t >>= f) r b r' ↔ r.here.token = t ∧ Takes (f true) r.next b r' ∨
      r.here.token ≠ t ∧ Takes (f false) r b r' := by
  have haccept {taken : Bool} {r₁ : Reader} : Takes (accept t) r taken r₁ ↔
      r.here.token = t ∧ taken = true ∧ r₁ = r.next ∨
        r.here.token ≠ t ∧ taken = false ∧ r₁ = r := by
    unfold accept
    rw [takes_token]
    split
    · rename_i h
      rw [takes_advance, takes_pure]
      simp [h]
    · rename_i h
      rw [takes_pure]
      simp [h]
  simp only [takes_bind, haccept]
  constructor
  · rintro ⟨_, _, ⟨h, rfl, rfl⟩ | ⟨h, rfl, rfl⟩, hf⟩
    · exact .inl ⟨h, hf⟩
    · exact .inr ⟨h, hf⟩
  · rintro (⟨h, hf⟩ | ⟨h, hf⟩)
    · exact ⟨true, r.next, .inl ⟨h, rfl, rfl⟩, hf⟩
    · exact ⟨false, r, .inr ⟨h, rfl, rfl⟩, hf⟩

end Parse
end TracePeel
