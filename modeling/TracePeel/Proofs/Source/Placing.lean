import TracePeel.Proofs.Source.Lexing

/-! Where tokens stand.

Every token takes at least one character, so the length of a text is a bound on the number of its
tokens that is never reached: with a larger one a text has the same tokens at the same places
(`Lexer.tokensFrom_congr`). A token begins where the one in front of it ends, or behind that place
(`Lexer.tokens_ordered`). -/
namespace TracePeel

namespace Position

theorem byte_le_after (p : Position) (c : Char) : p.byte ≤ (p.after c).byte := by
  unfold Position.after
  split <;> exact Nat.le_add_right ..

theorem byte_le_afterAll (p : Position) (cs : List Char) : p.byte ≤ (p.afterAll cs).byte := by
  induction cs generalizing p with
  | nil => exact le_rfl
  | cons c cs ih => exact (p.byte_le_after c).trans (ih (p.after c))

end Position

namespace Lexer

/-! ### How many there are -/

theorem scanDecimal_ne_nil {negative : Bool} {c : Char} {rest : List Char} (hc : c.isDigit = true) :
    (Number.scanDecimal negative (c :: rest)).2 ≠ [] := by
  have hwhole : (c :: rest).takeWhile Char.isDigit ≠ [] := by simp [hc]
  unfold Number.scanDecimal
  simp only
  split
  · simp [hwhole]
  · split
    · exact hwhole
    · simp [hwhole]

theorem scanUnsigned_ne_nil {negative : Bool} {c : Char} {rest : List Char}
    (hc : c.isDigit = true) : (Number.scanUnsigned negative (c :: rest)).2 ≠ [] := by
  unfold Number.scanUnsigned
  split
  · split
    · exact List.cons_ne_nil _ _
    · exact scanDecimal_ne_nil hc
  · exact scanDecimal_ne_nil hc

/-- A token takes at least the character that it begins with. -/
theorem scan_ne_nil (c : Char) (rest : List Char) : (scan c rest).2 ≠ [] := by
  unfold scan
  split
  case isTrue hname =>
    simp [continuesName_of_startsName hname]
  case isFalse =>
    split
    case isTrue hnumber =>
      unfold Number.scan
      split
      · exact List.cons_ne_nil _ _
      case h_2 hsign =>
        have hc : c.isDigit = true := by
          simp only [Bool.or_eq_true, Bool.and_eq_true, beq_iff_eq] at hnumber
          refine hnumber.resolve_right fun hminus => ?_
          exact hsign rest (by rw [hminus.1])
        exact scanUnsigned_ne_nil hc
    case isFalse => exact List.cons_ne_nil _ _

/-- Two bounds that a text stays within give the same tokens. -/
theorem tokensFrom_congr {m n : Nat} {p : Position} {cs : List Char} (hm : cs.length ≤ m)
    (hn : cs.length ≤ n) : tokensFrom m p cs = tokensFrom n p cs := by
  induction m generalizing n p cs with
  | zero =>
    obtain rfl := List.length_eq_zero_iff.1 (Nat.le_zero.1 hm)
    cases n <;> simp [tokensFrom, gap]
  | succ m ih =>
    unfold tokensFrom
    cases hrest : cs.drop (gap false cs).length with
    | nil => cases n <;> simp [hrest]
    | cons c rest =>
      have hlength : (c :: rest).length ≤ cs.length := by
        rw [← hrest]
        exact (List.drop_sublist _ cs).length_le
      obtain ⟨n, rfl⟩ : ∃ k, n = k + 1 := Nat.exists_eq_succ_of_ne_zero (by
        simp only [List.length_cons] at hlength
        omega)
      have htaken := List.length_pos_of_ne_nil (scan_ne_nil c rest)
      have hleft : ((c :: rest).drop (scan c rest).2.length).length < (c :: rest).length := by
        rw [List.length_drop]
        exact Nat.sub_lt (Nat.succ_pos _) htaken
      have hm' : ((c :: rest).drop (scan c rest).2.length).length ≤ m := by omega
      have hn' : ((c :: rest).drop (scan c rest).2.length).length ≤ n := by omega
      simp only [hrest, ih hm' hn']

/-! ### In which order they stand -/

/-- One token ends before the other begins. -/
def InFront (l l' : Lexed) : Prop :=
  l.span.stop.byte ≤ l'.span.start.byte

/-- No token begins in front of the place from which the text is read, none ends before it begins,
and one ends before the next begins. -/
structure OrderedFrom (p : Position) (ls : List Lexed) : Prop where
  behind : ∀ l ∈ ls, p.byte ≤ l.span.start.byte
  forward : ∀ l ∈ ls, l.span.start.byte ≤ l.span.stop.byte
  inFront : ls.Pairwise InFront

theorem OrderedFrom.of_suffix {p : Position} {ls ls' : List Lexed} (h : OrderedFrom p ls)
    (hsuffix : ls' <:+ ls) : OrderedFrom p ls' :=
  ⟨fun l hl => h.behind l (hsuffix.subset hl), fun l hl => h.forward l (hsuffix.subset hl),
    h.inFront.sublist hsuffix.sublist⟩

/-- Further on in the text no token begins earlier. -/
theorem OrderedFrom.start_le {p : Position} {l l' : Lexed} {behind : List Lexed}
    (h : OrderedFrom p (l :: behind)) (hmem : l' ∈ l :: behind) :
    l.span.start.byte ≤ l'.span.start.byte := by
  rcases List.mem_cons.1 hmem with rfl | hmem
  · exact le_rfl
  · exact (h.forward l (List.mem_cons_self ..)).trans (List.rel_of_pairwise_cons h.inFront hmem)

theorem tokensFrom_orderedFrom (fuel : Nat) (p : Position) (cs : List Char) :
    OrderedFrom p (tokensFrom fuel p cs) := by
  have hend (p : Position) (skipped : List Char) : OrderedFrom p [⟨.eof, p.afterAll skipped, p.afterAll skipped⟩] :=
    ⟨List.forall_mem_singleton.2 (p.byte_le_afterAll skipped), List.forall_mem_singleton.2 le_rfl,
      List.pairwise_singleton ..⟩
  induction fuel generalizing p cs with
  | zero => exact hend _ _
  | succ fuel ih =>
    unfold tokensFrom
    cases hrest : cs.drop (gap false cs).length with
    | nil =>
      simp only [hrest]
      exact hend _ _
    | cons c rest =>
      simp only [hrest]
      have hskip := p.byte_le_afterAll (gap false cs)
      have htake := (p.afterAll (gap false cs)).byte_le_afterAll (scan c rest).2
      obtain ⟨hbehind, hforward, hinFront⟩ := ih ((p.afterAll (gap false cs)).afterAll
        (scan c rest).2) ((c :: rest).drop (scan c rest).2.length)
      refine ⟨List.forall_mem_cons.2 ⟨hskip, fun l hl => ?_⟩,
        List.forall_mem_cons.2 ⟨htake, hforward⟩, List.pairwise_cons.2 ⟨hbehind, hinFront⟩⟩
      exact (hskip.trans htake).trans (hbehind l hl)

/-- The tokens of a text stand one behind the other. -/
theorem tokens_ordered (source : String) : OrderedFrom {} (tokens source) :=
  tokensFrom_orderedFrom _ _ _

end Lexer
end TracePeel
