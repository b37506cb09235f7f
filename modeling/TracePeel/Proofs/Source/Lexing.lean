import TracePeel.Proofs.Source.Numerals

/-! How a text falls into tokens.

`Lexes` says which tokens a text has, leaving out where they stand. A text is read from
its front: a blank changes nothing, and a mark, a name or a number in front of a text
puts its token in front of the tokens of that text (`Lexes.blank`, `Lexes.mark`,
`Lexes.name`, `Lexes.number`), as long as a name or a number does not go on into it. -/
namespace TracePeel.Lexer

/-- The tokens of the text, its end included. -/
def Lexes (cs : List Char) (ts : List Token) : Prop :=
  ∀ fuel p, cs.length ≤ fuel → (tokensFrom fuel p cs).map (·.token) = ts

theorem Lexes.tokens {source : String} {ts : List Token} (h : Lexes source.toList ts) :
    (tokens source).map (·.token) = ts :=
  h _ _ le_rfl

/-- A text has at least the token of its end. -/
theorem tokensFrom_ne_nil (fuel : Nat) (p : Position) (cs : List Char) :
    tokensFrom fuel p cs ≠ [] := by
  unfold tokensFrom
  simp only
  split <;> exact List.cons_ne_nil _ _

theorem lexes_nil : Lexes [] [.eof] := by
  intro fuel p _
  cases fuel <;> simp [tokensFrom, gap]

/-! ### One token at a time -/

/-- Whether a character stands between tokens or begins a comment. -/
def startsGap (c : Char) : Bool :=
  Text.isBlank c || c == '#'

theorem gap_eq_nil {c : Char} (h : startsGap c = false) (cs : List Char) :
    gap false (c :: cs) = [] := by
  simp only [startsGap, Bool.or_eq_false_iff, beq_eq_false_iff_ne] at h
  simp [gap, h]

variable {c : Char} {cs : List Char} {ts : List Token}

theorem Lexes.blank (h : Lexes cs ts) (hc : Text.isBlank c = true) : Lexes (c :: cs) ts := by
  have hgap : gap false (c :: cs) = c :: gap false cs := by simp [gap, hc]
  intro fuel p hfuel
  rw [← h fuel (p.after c) (Nat.le_of_succ_le hfuel)]
  unfold tokensFrom
  simp [hgap, Position.afterAll]

/-- What the scanner takes at the front of a text is its first token. -/
theorem Lexes.scanned (lexeme : List Char) {token : Token} (h : Lexes cs ts)
    (hc : startsGap c = false) (hscan : scan c (lexeme ++ cs) = (token, c :: lexeme)) :
    Lexes (c :: lexeme ++ cs) (token :: ts) := by
  intro fuel p hfuel
  obtain ⟨n, rfl⟩ : ∃ n, fuel = n + 1 := Nat.exists_eq_succ_of_ne_zero (by
    rintro rfl
    simp at hfuel)
  have hlen : cs.length ≤ n := by
    simp only [List.cons_append, List.length_cons, List.length_append] at hfuel
    omega
  unfold tokensFrom
  simp [gap_eq_nil hc, hscan, h n _ hlen]

theorem Lexes.mark {token : Token} (h : Lexes cs ts) (hc : startsGap c = false)
    (hname : startsName c = false) (hdigit : c.isDigit = false) (hsign : c ≠ '-')
    (htoken : charToken c = token) : Lexes (c :: cs) (token :: ts) := by
  refine Lexes.scanned [] h hc ?_
  simp [scan, hname, hdigit, hsign, htoken]

/-! ### Names -/

/-- Whether the characters are those of a name. -/
def nameChars : List Char → Bool
  | [] => false
  | c :: rest => startsName c && rest.all continuesName

theorem not_isBlank_of_isAlphabetic (h : Text.isAlphabetic c = true) : Text.isBlank c = false := by
  refine Bool.eq_false_iff.2 fun hblank => ?_
  obtain ⟨r, hr, hlow, hhigh⟩ := Text.exists_of_inRanges hblank
  have hnone : ∀ r ∈ Text.blankRanges, ∀ n ∈ List.range' r.1 (r.2 - r.1 + 1),
      Text.inRanges Text.alphabeticRanges n = false := by decide +kernel
  have hmem : c.toNat ∈ List.range' r.1 (r.2 - r.1 + 1) := by
    rw [List.mem_range'_1]
    omega
  rw [Text.isAlphabetic, hnone r hr _ hmem] at h
  cases h

theorem not_startsGap_of_startsName (h : startsName c = true) : startsGap c = false := by
  simp only [startsName, Bool.or_eq_true, beq_iff_eq] at h
  rcases h with h | rfl
  · refine Bool.or_eq_false_iff.2 ⟨not_isBlank_of_isAlphabetic h, ?_⟩
    rw [beq_eq_false_iff_ne]
    rintro rfl
    revert h
    decide
  · decide

theorem continuesName_of_startsName (h : startsName c = true) : continuesName c = true := by
  simp only [startsName, continuesName, Bool.or_eq_true] at h ⊢
  exact h.imp_left Text.isAlphanumeric_of_isAlphabetic

theorem takeWhile_name {name : List Char} (hname : ∀ d ∈ name, continuesName d = true)
    (hcs : Breaks cs) : (name ++ cs).takeWhile continuesName = name := by
  rw [List.takeWhile_append_of_pos hname]
  cases cs with
  | nil => simp
  | cons c cs => simp [hcs.not_continues]

/-- A name, or the word that begins a header. -/
theorem Lexes.word {name : List Char} (h : Lexes cs ts) (hname : nameChars name = true)
    (hcs : Breaks cs) : Lexes (name ++ cs) (nameToken (String.ofList name) :: ts) := by
  obtain ⟨c, rest, rfl⟩ : ∃ c rest, name = c :: rest := List.exists_cons_of_ne_nil (by
    rintro rfl
    cases hname)
  obtain ⟨hc, hrest⟩ : startsName c = true ∧ ∀ d ∈ rest, continuesName d = true := by
    simpa [nameChars] using hname
  refine h.scanned _ (not_startsGap_of_startsName hc) ?_
  have htake : (c :: (rest ++ cs)).takeWhile continuesName = c :: rest :=
    takeWhile_name (List.forall_mem_cons.2 ⟨continuesName_of_startsName hc, hrest⟩) hcs
  simp [scan, hc, htake]

/-- A name that is read as such. -/
structure IsName (name : String) : Prop where
  chars : nameChars name.toList = true
  ne_loop : name ≠ "loop"

instance (name : String) : Decidable (IsName name) :=
  decidable_of_iff (nameChars name.toList = true ∧ name ≠ "loop")
    ⟨fun ⟨hc, hl⟩ => ⟨hc, hl⟩, fun h => ⟨h.chars, h.ne_loop⟩⟩

theorem Lexes.name {name : String} (h : Lexes cs ts) (hname : IsName name) (hcs : Breaks cs) :
    Lexes (name.toList ++ cs) (.name name :: ts) := by
  have := h.word hname.chars hcs
  rwa [String.ofList_toList, nameToken, if_neg hname.ne_loop] at this

theorem nameChars_append {name cs : List Char} (hname : nameChars name = true)
    (hcs : ∀ c ∈ cs, continuesName c = true) : nameChars (name ++ cs) = true := by
  cases name with
  | nil => cases hname
  | cons c rest =>
    simp only [nameChars, List.cons_append, Bool.and_eq_true, List.all_eq_true,
      List.forall_mem_append] at hname ⊢
    exact ⟨hname.1, hname.2, hcs⟩

/-- A name with a number behind it is a name. -/
theorem isName_numbered {name : String} (hname : nameChars name.toList = true) (n : Nat) :
    IsName (name ++ toString n) where
  chars := by
    rw [String.toList_append, Nat.toString_eq_ofList_toDigits, String.toList_ofList]
    exact nameChars_append hname fun c hc => continuesName_of_isDigit (Number.digits_toDigits n c hc)
  ne_loop h := by
    -- The keyword does not end in a digit.
    have hlast : "loop".toList.getLast? = (Nat.toDigits 10 n).getLast? := by
      rw [← h, String.toList_append, Nat.toString_eq_ofList_toDigits, String.toList_ofList,
        List.getLast?_append_of_ne_nil _ Nat.toDigits_ne_nil]
    have hmem : 'p' ∈ Nat.toDigits 10 n := List.mem_of_getLast? (hlast.symm.trans (by decide))
    exact absurd (Number.digits_toDigits n _ hmem) (by decide)

/-! ### Numbers -/

theorem not_startsName_of_isDigit (h : c.isDigit = true) : startsName c = false := by
  obtain ⟨hlow, hhigh⟩ := toNat_of_isDigit h
  have halpha : Text.isAlphabetic c = false := by
    unfold Text.isAlphabetic Text.alphabeticRanges Text.inRanges
    rw [Bool.and_eq_false_iff, decide_eq_false_iff_not]
    omega
  have hunder : c ≠ '_' := by
    rintro rfl
    cases h
  simp [startsName, halpha, hunder]

theorem not_startsGap_of_isDigit (h : c.isDigit = true) : startsGap c = false := by
  obtain ⟨hlow, hhigh⟩ := toNat_of_isDigit h
  have hblank : Text.isBlank c = false := by
    refine Bool.eq_false_iff.2 fun hblank => ?_
    obtain ⟨r, hr, hfirst, hlast⟩ := Text.exists_of_inRanges hblank
    have hapart : ∀ r ∈ Text.blankRanges, r.2 < 48 ∨ 57 < r.1 := by decide
    have := hapart r hr
    omega
  have hcomment : c ≠ '#' := by
    rintro rfl
    cases h
  simp [startsGap, hblank, hcomment]

theorem Lexes.number {text : List Char} {token : Token} (h : Lexes cs ts)
    (htext : Number.Spells text token) (hcs : Breaks cs) :
    Lexes (text ++ cs) (token :: ts) := by
  have hscan := htext.scan cs hcs
  obtain ⟨c, rest, rfl, hbegins⟩ := htext.begins
  have hstart : startsName c = false ∧ startsGap c = false := by
    rcases hbegins with hc | ⟨rfl, -⟩
    · exact ⟨not_startsName_of_isDigit hc, not_startsGap_of_isDigit hc⟩
    · decide
  have hnumber : (c.isDigit || (c == '-' && startsWithDigit (rest ++ cs))) = true := by
    rcases hbegins with hc | ⟨rfl, d, ds, rfl, hd⟩
    · rw [hc, Bool.true_or]
    · simpa [startsWithDigit] using hd
  refine h.scanned _ hstart.2 ?_
  rw [scan, hstart.1, hnumber]
  exact hscan

/-! ### The end of a text -/

/-- A token that a number can be: it has a value, or none that fits. -/
def IsNumeral : Token → Prop
  | .int _ | .float _ | .invalid _ => True
  | _ => False

theorem isNumeral_scan (cs : List Char) : IsNumeral (Number.scan cs).1 := by
  have hhex (negative : Bool) (digits : List Char) :
      IsNumeral (Number.hexToken negative digits) := by
    unfold Number.hexToken
    simp only
    split <;> trivial
  have hint (negative : Bool) (digits : List Char) :
      IsNumeral (Number.intToken negative digits) := by
    unfold Number.intToken
    simp only
    split <;> trivial
  have hfloat (negative : Bool) (whole fraction : List Char) (e : Option Number.Exponent) :
      IsNumeral (Number.floatToken negative whole fraction e) := by
    unfold Number.floatToken
    split <;> trivial
  have hdecimal (negative : Bool) (cs : List Char) :
      IsNumeral (Number.scanDecimal negative cs).1 := by
    unfold Number.scanDecimal
    simp only
    split
    · exact hfloat _ _ _ _
    · split
      · exact hint _ _
      · exact hfloat _ _ _ none
  have hunsigned (negative : Bool) (cs : List Char) :
      IsNumeral (Number.scanUnsigned negative cs).1 := by
    unfold Number.scanUnsigned
    split
    · split
      · exact hhex _ _
      · exact hdecimal _ _
    · exact hdecimal _ _
  unfold Number.scan
  split
  · exact hunsigned _ _
  · exact hunsigned _ _

theorem scan_ne_eof (c : Char) (rest : List Char) : (scan c rest).1 ≠ .eof := by
  unfold scan
  split
  · show nameToken _ ≠ .eof
    unfold nameToken
    split <;> nofun
  · split
    · intro h
      have hnumeral := isNumeral_scan (c :: rest)
      rw [h] at hnumeral
      exact hnumeral
    · show charToken c ≠ .eof
      unfold charToken
      split <;> nofun

/-- The tokens of a text in front of its end. -/
def sentence (source : String) : List Token :=
  ((tokens source).map (·.token)).takeWhile (· ≠ .eof)

theorem eof_notMem_sentence (source : String) : .eof ∉ sentence source := fun h => by
  simpa using List.all_eq_true.1 List.all_takeWhile _ h

/-- The end stands behind all other tokens. -/
theorem tokens_eq_sentence (source : String) :
    (tokens source).map (·.token) = sentence source ++ [.eof] := by
  have hfrom (fuel : Nat) (p : Position) (cs : List Char) :
      (tokensFrom fuel p cs).map (·.token) =
        ((tokensFrom fuel p cs).map (·.token)).takeWhile (· ≠ .eof) ++ [.eof] := by
    induction fuel generalizing p cs with
    | zero => simp [tokensFrom]
    | succ fuel ih =>
      unfold tokensFrom
      cases hrest : cs.drop (gap false cs).length with
      | nil => simp [hrest]
      | cons c rest =>
        simp only [hrest, List.map_cons]
        rw [List.takeWhile_cons_of_pos (by simpa using scan_ne_eof c rest), List.cons_append, ← ih]
  exact hfrom _ _ _

end TracePeel.Lexer
