import TracePeel.Proofs.Source.Placing

/-! How the tokens of a text cover it.

`Tiles` says of a text and a list of tokens that the text is a row of lexemes with gaps
between them, blanks and comments and nothing else, that each token stands on its lexeme,
and that the end of the text follows the last gap. Where a token stands is said without
counting along: `Position.behind` measures the text in front of a place. `tokens_tile`:
every text is tiled by its tokens, whatever it holds. -/
namespace TracePeel

namespace Position

/-- The place behind a text: its bytes, its newlines, and the characters of its last line. -/
def behind (text : List Char) : Position where
  byte := (String.ofList text).utf8ByteSize
  line := text.count '\n' + 1
  column := (text.reverse.takeWhile (· ≠ '\n')).length + 1

theorem after_behind (text : List Char) (c : Char) :
    (behind text).after c = behind (text ++ [c]) := by
  have hbytes : (String.ofList (text ++ [c])).utf8ByteSize =
      (String.ofList text).utf8ByteSize + c.utf8Size := by simp
  unfold behind after
  rw [hbytes, List.count_append, List.reverse_append, List.reverse_singleton,
    List.singleton_append]
  by_cases hc : c = '\n'
  · simp [hc]
  · simp [hc]

theorem afterAll_behind (text cs : List Char) :
    (behind text).afterAll cs = behind (text ++ cs) := by
  induction cs generalizing text with
  | nil => rw [afterAll, List.foldl_nil, List.append_nil]
  | cons c cs ih =>
    rw [afterAll, List.foldl_cons, after_behind, ← afterAll, ih, List.append_assoc,
      List.singleton_append]

end Position

namespace Lexer

/-- What may stand between two tokens, with the text behind it: blanks, and comments that
reach to a newline or to the end. -/
inductive Gap : List Char → List Char → Prop
  | nil (rest : List Char) : Gap [] rest
  | blank {c : Char} {cs rest : List Char} (hblank : Text.isBlank c = true) (h : Gap cs rest) :
    Gap (c :: cs) rest
  | comment {text cs rest : List Char} (htext : '\n' ∉ text)
    (hend : cs ++ rest = [] ∨ (cs ++ rest).head? = some '\n') (h : Gap cs rest) :
    Gap ('#' :: text ++ cs) rest

/-- The tokens of a text, where `before` stands in front of it. -/
inductive Tiles : List Char → List Char → List Lexed → Prop
  | done {before skipped : List Char} (hgap : Gap skipped []) :
    Tiles before skipped [⟨.eof, .behind (before ++ skipped), .behind (before ++ skipped)⟩]
  | token {before skipped lexeme rest : List Char} {token : Token} {ls : List Lexed}
    (hgap : Gap skipped (lexeme ++ rest)) (hlexeme : lexeme ≠ []) (htoken : token ≠ .eof)
    (h : Tiles (before ++ skipped ++ lexeme) rest ls) :
    Tiles before (skipped ++ lexeme ++ rest)
      (⟨token, .behind (before ++ skipped), .behind (before ++ skipped ++ lexeme)⟩ :: ls)

/-! ### Gaps -/

/-- The gap at the head of a text, and the rest of a comment and the gap behind it. -/
theorem gap_splits (cs : List Char) :
    (∃ rest, cs = gap false cs ++ rest ∧ Gap (gap false cs) rest) ∧
      ∃ text skipped rest, gap true cs = text ++ skipped ∧ cs = text ++ skipped ++ rest ∧
        '\n' ∉ text ∧ (skipped ++ rest = [] ∨ (skipped ++ rest).head? = some '\n') ∧
        Gap skipped rest := by
  induction cs with
  | nil =>
    exact ⟨⟨[], rfl, .nil []⟩, [], [], [], rfl, rfl, List.not_mem_nil, .inl rfl, .nil []⟩
  | cons c cs ih =>
    obtain ⟨⟨rest, hcs, hgap⟩, text, skipped, rest', htrue, hcs', htext, hend, hgap'⟩ := ih
    constructor
    · by_cases hblank : Text.isBlank c = true
      · have heq : gap false (c :: cs) = c :: gap false cs := by simp [gap, hblank]
        rw [heq]
        exact ⟨rest, congrArg (c :: ·) hcs, .blank hblank hgap⟩
      · by_cases hc : c = '#'
        · subst hc
          have heq : gap false ('#' :: cs) = '#' :: text ++ skipped := by
            simp [gap, hblank, htrue]
          rw [heq]
          exact ⟨rest', congrArg ('#' :: ·) hcs', .comment htext hend hgap'⟩
        · have heq : gap false (c :: cs) = [] := by simp [gap, hblank, hc]
          rw [heq]
          exact ⟨c :: cs, rfl, .nil _⟩
    · by_cases hc : c = '\n'
      · -- The comment ends in front of its newline, which is a blank.
        subst hc
        have heq : gap true ('\n' :: cs) = [] ++ '\n' :: gap false cs := by simp [gap]
        exact ⟨[], '\n' :: gap false cs, rest, heq, congrArg ('\n' :: ·) hcs,
          List.not_mem_nil, .inr rfl, .blank (by decide) hgap⟩
      · have heq : gap true (c :: cs) = (c :: text) ++ skipped := by
          rw [gap, bne_iff_ne.2 hc, htrue, List.cons_append]
        exact ⟨c :: text, skipped, rest', heq, congrArg (c :: ·) hcs',
          List.not_mem_cons_of_ne_of_not_mem (Ne.symm hc) htext, hend, hgap'⟩

/-! ### Lexemes -/

theorem isPrefix_fractionDigits (cs : List Char) :
    (if (Number.fractionDigits cs).isEmpty then [] else '.' :: Number.fractionDigits cs) <+:
      cs := by
  unfold Number.fractionDigits
  split
  · split
    · exact List.nil_prefix
    · exact (List.prefix_cons_inj '.').2 <| List.takeWhile_prefix _
  · exact List.nil_prefix

theorem isPrefix_exponent? {cs : List Char} {e : Number.Exponent}
    (h : Number.exponent? cs = some e) : e.lexeme <+: cs := by
  unfold Number.exponent? at h
  split at h
  case h_1 letter c rest =>
    split at h
    case isFalse => cases h
    split at h
    case isTrue =>
      cases h
      simpa [Number.Exponent.lexeme] using List.takeWhile_prefix _
    split at h
    case isTrue =>
      cases h
      simpa [Number.Exponent.lexeme] using List.takeWhile_prefix _
    case isFalse => cases h
  case h_2 => cases h

theorem isPrefix_scanDecimal (negative : Bool) (cs : List Char) :
    (Number.scanDecimal negative cs).2 <+: cs := by
  have hsplit : cs.takeWhile Char.isDigit ++ cs.dropWhile Char.isDigit = cs :=
    List.takeWhile_append_dropWhile
  have hpoint := isPrefix_fractionDigits (cs.dropWhile Char.isDigit)
  unfold Number.scanDecimal
  simp only
  split
  case h_1 e he =>
    obtain ⟨rest, hrest⟩ := isPrefix_exponent? he
    have hbehind := List.prefix_append_drop hpoint
    rw [← hrest] at hbehind
    refine ⟨rest, ?_⟩
    simp only [List.append_assoc]
    rw [← hbehind, hsplit]
  case h_2 =>
    split
    case isTrue => exact List.takeWhile_prefix _
    case isFalse hfraction =>
      rw [if_neg hfraction] at hpoint
      conv_rhs => rw [← hsplit]
      exact (List.prefix_append_right_inj _).2 hpoint

theorem isPrefix_scanUnsigned (negative : Bool) (cs : List Char) :
    (Number.scanUnsigned negative cs).2 <+: cs := by
  unfold Number.scanUnsigned
  split
  · split
    · simpa using List.takeWhile_prefix _
    · exact isPrefix_scanDecimal _ _
  · exact isPrefix_scanDecimal _ _

theorem isPrefix_numberScan (cs : List Char) : (Number.scan cs).2 <+: cs := by
  unfold Number.scan
  split
  · exact (List.prefix_cons_inj '-').2 (isPrefix_scanUnsigned true _)
  · exact isPrefix_scanUnsigned false _

/-- A token is read off the front of the text. -/
theorem isPrefix_scan (c : Char) (rest : List Char) : (scan c rest).2 <+: c :: rest := by
  unfold scan
  split
  · exact List.takeWhile_prefix _
  · split
    · exact isPrefix_numberScan _
    · exact (List.prefix_cons_inj c).2 List.nil_prefix

/-! ### The whole text -/

theorem tokensFrom_tile {fuel : Nat} {before cs : List Char} (hfuel : cs.length ≤ fuel) :
    Tiles before cs (tokensFrom fuel (.behind before) cs) := by
  induction fuel generalizing before cs with
  | zero =>
    obtain rfl := List.length_eq_zero_iff.1 (Nat.le_zero.1 hfuel)
    simpa [tokensFrom, gap, Position.afterAll_behind] using Tiles.done (.nil [])
  | succ fuel ih =>
    obtain ⟨rest, hcs, hgap⟩ := (gap_splits cs).1
    unfold tokensFrom
    generalize gap false cs = skipped at hcs hgap ⊢
    subst hcs
    cases rest with
    | nil =>
      simp only [List.append_nil, List.drop_length, Position.afterAll_behind]
      exact .done hgap
    | cons c rest =>
      obtain ⟨behind, hbehind⟩ := isPrefix_scan c rest
      have hne := scan_ne_nil c rest
      have htoken := scan_ne_eof c rest
      simp only [List.drop_left, Position.afterAll_behind]
      generalize (scan c rest).1 = token at *
      generalize (scan c rest).2 = lexeme at *
      rw [← hbehind] at hgap hfuel ⊢
      rw [List.drop_left, ← List.append_assoc]
      refine .token hgap hne htoken (ih ?_)
      have := List.length_pos_of_ne_nil hne
      simp only [List.length_append] at hfuel
      omega

/-- The tokens of a text tile it, and the bound on their number is never reached. -/
theorem tokens_tile (source : String) :
    Tiles [] source.toList (tokens source) ∧
      ∀ extra, tokensFrom (source.toList.length + extra) {} source.toList = tokens source := by
  constructor
  · exact tokensFrom_tile le_rfl
  · intro extra
    exact tokensFrom_congr (Nat.le_add_right ..) le_rfl

end Lexer
end TracePeel
