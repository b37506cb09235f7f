import TracePeel.Proofs.Decimal.Rounding
import TracePeel.Source.Lexer

/-! Reading back the numbers that are written.

A literal is taken apart into the parts that its value comes from. The scanner finds
those parts again (`Literal.spells`), so an integer reads back as itself (`spells_int`)
and so does every finite float (`spells_float`). -/
namespace TracePeel

namespace Lexer

/-- No name and no number goes on into the text. -/
def Breaks (cs : List Char) : Prop :=
  ∀ c, cs.head? = some c → continuesName c = false ∧ c ≠ '.'

theorem breaks_cons {c : Char} {cs : List Char} (h : continuesName c = false) (hpoint : c ≠ '.') :
    Breaks (c :: cs) := by
  rintro _ ⟨⟩
  exact ⟨h, hpoint⟩

theorem toNat_of_isDigit {c : Char} (h : c.isDigit = true) : 48 ≤ c.toNat ∧ c.toNat ≤ 57 := by
  simp only [Char.isDigit, Bool.and_eq_true, decide_eq_true_eq, ge_iff_le,
    UInt32.le_iff_toNat_le] at h
  exact h

theorem continuesName_of_isDigit {c : Char} (h : c.isDigit = true) : continuesName c = true := by
  obtain ⟨hlow, hhigh⟩ := toNat_of_isDigit h
  have hrange : Text.inRanges Text.numeralRanges c.toNat = true := by
    unfold Text.numeralRanges Text.inRanges
    simp only [Bool.and_eq_true, Bool.or_eq_true, decide_eq_true_eq]
    exact ⟨hlow, .inl hhigh⟩
  simp [continuesName, Text.isAlphanumeric, hrange]

variable {c : Char} {cs : List Char}

theorem Breaks.not_continues (h : Breaks (c :: cs)) : continuesName c = false :=
  (h c rfl).1

theorem Breaks.not_digit (h : Breaks (c :: cs)) : c.isDigit = false :=
  Bool.eq_false_iff.2 fun hd => Bool.eq_false_iff.1 h.not_continues (continuesName_of_isDigit hd)

theorem Breaks.ne {d : Char} (h : Breaks (c :: cs)) (hd : continuesName d = true) : c ≠ d := by
  rintro rfl
  rw [h.not_continues] at hd
  cases hd

end Lexer

namespace Number

open Lexer (Breaks)
open Decimal (toBinary64 magnitudeOf magnitudeOf_eq nearest)

/-- All of them are decimal digits. -/
abbrev Digits (cs : List Char) : Prop :=
  ∀ c ∈ cs, c.isDigit = true

theorem Digits.append {as bs : List Char} (ha : Digits as) (hb : Digits bs) : Digits (as ++ bs) :=
  fun c hc => (List.mem_append.1 hc).elim (ha c) (hb c)

theorem digits_toDigits (n : Nat) : Digits (Nat.toDigits 10 n) :=
  fun _ h => Nat.isDigit_of_mem_toDigits (by decide) (by decide) h

theorem digits_replicate (n : Nat) : Digits (List.replicate n '0') := by
  intro c hc
  obtain rfl := List.eq_of_mem_replicate hc
  rfl

theorem digitsValue_eq {cs : List Char} (h : Digits cs) :
    digitsValue 10 cs = Nat.ofDigitChars 10 cs 0 := by
  rw [digitsValue, Nat.ofDigitChars_eq_foldl]
  refine List.foldl_ext _ _ _ fun n c hc => ?_
  rw [digitValue, if_pos (h c hc), Nat.mul_comm]

theorem digitsValue_toDigits (n : Nat) : digitsValue 10 (Nat.toDigits 10 n) = n := by
  rw [digitsValue_eq (digits_toDigits n), Nat.ofDigitChars_ten_toDigits]

theorem digitsValue_append {as bs : List Char} (ha : Digits as) (hb : Digits bs) :
    digitsValue 10 (as ++ bs) = digitsValue 10 as * 10 ^ bs.length + digitsValue 10 bs := by
  rw [digitsValue_eq (ha.append hb), digitsValue_eq ha, digitsValue_eq hb,
    Nat.ofDigitChars_append, Nat.ofDigitChars_eq_ofDigitChars_zero, Nat.mul_comm]

theorem digitsValue_replicate (n : Nat) : digitsValue 10 (List.replicate n '0') = 0 := by
  rw [digitsValue_eq (digits_replicate n), Nat.ofDigitChars_replicate_zero, Nat.mul_zero]

/-! ### Literals by their parts -/

theorem takeWhile_digits {ds cs : List Char} (hd : Digits ds)
    (hcs : ∀ c, cs.head? = some c → c.isDigit = false) :
    (ds ++ cs).takeWhile Char.isDigit = ds ∧ (ds ++ cs).dropWhile Char.isDigit = cs := by
  rw [List.takeWhile_append_of_pos hd, List.dropWhile_append_of_pos hd]
  cases cs with
  | nil => simp
  | cons c cs => simp [hcs c rfl]

/-- The exponent is one that is written: its digits are there. -/
structure Exponent.Proper (e : Exponent) : Prop where
  letter : e.letter = 'e' ∨ e.letter = 'E'
  sign : e.sign = [] ∨ e.sign = ['-'] ∨ e.sign = ['+']
  digits : Digits e.digits
  some_digit : e.digits ≠ []

/-- The text begins with a digit, or with a sign and a digit. -/
def Begins (text : List Char) : Prop :=
  ∃ c cs, text = c :: cs ∧
    (c.isDigit = true ∨ c = '-' ∧ ∃ d ds, cs = d :: ds ∧ d.isDigit = true)

/-- The text is a number wherever it ends, and `token` is what it reads as. -/
structure Spells (text : List Char) (token : Token) : Prop where
  begins : Begins text
  scan : ∀ rest, Breaks rest → scan (text ++ rest) = (token, text)

/-! ### Signs -/

section Sign
variable {text : List Char} {token : Token}
  (hdigit : ∃ d ds, text = d :: ds ∧ d.isDigit = true)
include hdigit

theorem spells_unsigned
    (hscan : ∀ rest, Breaks rest → scanUnsigned false (text ++ rest) = (token, text)) :
    Spells text token := by
  obtain ⟨d, ds, rfl, hd⟩ := hdigit
  refine ⟨⟨d, ds, rfl, .inl hd⟩, fun rest hrest => ?_⟩
  unfold scan
  split
  case h_1 cs h =>
    rw [(List.cons.inj h).1] at hd
    cases hd
  case h_2 => exact hscan rest hrest

theorem spells_minus
    (hscan : ∀ rest, Breaks rest → scanUnsigned true (text ++ rest) = (token, text)) :
    Spells ('-' :: text) token where
  begins := ⟨'-', text, rfl, .inr ⟨rfl, hdigit⟩⟩
  scan rest hrest := by
    rw [List.cons_append, scan, hscan rest hrest]

end Sign

/-- The parts of a decimal literal without its sign. -/
structure Literal where
  whole : List Char
  fraction : List Char
  exponent : Option Exponent

namespace Literal

structure Proper (l : Literal) : Prop where
  whole : Digits l.whole
  some_digit : l.whole ≠ []
  fraction : Digits l.fraction
  exponent : ∀ e, l.exponent = some e → e.Proper

def point (l : Literal) : List Char :=
  if l.fraction.isEmpty then [] else '.' :: l.fraction

/-- The characters of the exponent. -/
def tail (l : Literal) : List Char :=
  (l.exponent.map Exponent.lexeme).getD []

def chars (l : Literal) : List Char :=
  l.whole ++ l.point ++ l.tail

def isWhole (l : Literal) : Bool :=
  l.fraction.isEmpty && l.exponent.isNone

def power (l : Literal) : Int :=
  (l.exponent.map (·.value)).getD 0 - l.fraction.length

/-- The number that the literal denotes. -/
def value (l : Literal) : ℚ :=
  digitsValue 10 (l.whole ++ l.fraction) * 10 ^ l.power

def token (l : Literal) (negative : Bool) : Token :=
  if l.isWhole then intToken negative l.whole
  else .float (Binary64.assemble negative (nearest l.value))

variable {l : Literal} {rest : List Char}

theorem floatToken_eq (hl : l.Proper) (negative : Bool) :
    floatToken negative l.whole l.fraction l.exponent =
      .float (Binary64.assemble negative (nearest l.value)) := by
  obtain ⟨whole, fraction, exponent⟩ := l
  rw [value, power, ← magnitudeOf_eq]
  cases exponent with
  | none => rfl
  | some e =>
    have hdigits := (hl.exponent e rfl).some_digit
    obtain ⟨letter, sign, digits⟩ := e
    cases digits with
    | nil => exact absurd rfl hdigits
    | cons d ds => rfl

/-- Behind the fraction stands neither a digit nor a point. -/
theorem head_tail (hl : l.Proper) (hrest : Breaks rest) :
    ∀ c, (l.tail ++ rest).head? = some c → c.isDigit = false ∧ c ≠ '.' := by
  intro c hc
  rcases he : l.exponent with _ | e
  · rw [tail, he] at hc
    obtain ⟨cs, rfl⟩ := List.head?_eq_some_iff.1 hc
    exact ⟨hrest.not_digit, (hrest c rfl).2⟩
  · rw [tail, he] at hc
    obtain rfl : e.letter = c := by simpa [Exponent.lexeme] using hc
    rcases (hl.exponent e he).letter with h | h <;> rw [h] <;> decide

theorem head_point (hl : l.Proper) (hrest : Breaks rest) :
    ∀ c, (l.point ++ (l.tail ++ rest)).head? = some c → c.isDigit = false := by
  intro c hc
  rw [point] at hc
  split at hc
  · exact (head_tail hl hrest c hc).1
  · obtain rfl : '.' = c := by simpa using hc
    rfl

theorem fractionDigits_eq (hl : l.Proper) (hrest : Breaks rest) :
    fractionDigits (l.point ++ (l.tail ++ rest)) = l.fraction := by
  have htail := head_tail hl hrest
  by_cases hf : l.fraction = []
  · rw [point, hf]
    simp only [List.isEmpty_nil, if_true, List.nil_append]
    unfold fractionDigits
    split
    · rename_i h
      exact absurd rfl (htail '.' (by rw [h]; rfl)).2
    · rfl
  · have hpoint : l.point = '.' :: l.fraction := by simp [point, hf]
    rw [hpoint]
    exact (takeWhile_digits hl.fraction fun c hc => (htail c hc).1).1

theorem exponent?_eq (hl : l.Proper) (hrest : Breaks rest) :
    exponent? (l.tail ++ rest) = l.exponent := by
  have hbreak : ∀ c, rest.head? = some c → c.isDigit = false := by
    intro c hc
    obtain ⟨cs, rfl⟩ := List.head?_eq_some_iff.1 hc
    exact hrest.not_digit
  rcases he : l.exponent with _ | e
  · rw [tail, he]
    simp only [Option.map_none, Option.getD_none, List.nil_append]
    unfold exponent?
    split
    · rename_i letter c cs
      have hne : ¬(letter = 'e' ∨ letter = 'E') := by
        rintro (h | h)
        · exact hrest.ne (by decide) h
        · exact hrest.ne (by decide) h
      rw [if_neg hne]
    · rfl
  · obtain ⟨hletter, hsign, hdigits, hsome⟩ := hl.exponent e he
    rw [tail, he]
    obtain ⟨letter, sign, digits⟩ := e
    simp only [Option.map_some, Option.getD_some, Exponent.lexeme, List.cons_append,
      List.append_assoc]
    have htake := (takeWhile_digits hdigits hbreak).1
    have hsigned (c : Char) (hc : c = '-' ∨ c = '+') :
        exponent? (letter :: c :: (digits ++ rest)) = some ⟨letter, [c], digits⟩ := by
      simp only [exponent?, if_pos hletter, if_pos hc, htake]
    rcases hsign with rfl | rfl | rfl
    case inl =>
      obtain ⟨d, ds, rfl⟩ := List.exists_cons_of_ne_nil hsome
      have hd : d.isDigit = true := hdigits d (List.mem_cons_self ..)
      have hne : ¬(d = '-' ∨ d = '+') := by
        rintro (rfl | rfl) <;> cases hd
      simp only [List.cons_append] at htake
      simp only [List.nil_append, List.cons_append, exponent?, if_pos hletter, if_neg hne,
        if_pos hd, htake]
    case inr.inl => exact hsigned '-' (.inl rfl)
    case inr.inr => exact hsigned '+' (.inr rfl)

/-- The scanner takes a literal apart into its parts. -/
theorem scanDecimal_chars (hl : l.Proper) (hrest : Breaks rest) (negative : Bool) :
    scanDecimal negative (l.chars ++ rest) = (l.token negative, l.chars) := by
  obtain ⟨htake, hdrop⟩ := takeWhile_digits hl.whole (head_point hl hrest)
  have hfraction := fractionDigits_eq hl hrest
  have hexponent := exponent?_eq hl hrest
  have hfloat := floatToken_eq hl negative
  obtain ⟨whole, fraction, exponent⟩ := l
  have hpoint : (if fraction.isEmpty then [] else '.' :: fraction)
      = (⟨whole, fraction, exponent⟩ : Literal).point := rfl
  simp only [scanDecimal, chars, List.append_assoc, htake, hdrop, hfraction, hpoint,
    List.drop_left, hexponent, token, isWhole]
  cases exponent with
  | none =>
    by_cases hf : fraction = []
    · simp [tail, point, hf]
    · simpa [tail, hf] using hfloat
  | some e => simpa [tail] using hfloat

/-- No part of a literal is taken for the mark of a hexadecimal one. -/
theorem not_hex_of_mem (hl : l.Proper) {c : Char} (hc : c ∈ l.chars) : c ≠ 'x' ∧ c ≠ 'X' := by
  have hdigit {ds : List Char} (hd : Digits ds) (hc : c ∈ ds) : c ≠ 'x' ∧ c ≠ 'X' := by
    constructor <;> rintro rfl <;> cases hd _ hc
  rcases List.mem_append.1 hc with hc | hc
  · rcases List.mem_append.1 hc with hc | hc
    · exact hdigit hl.whole hc
    · rw [point] at hc
      split at hc
      · cases hc
      · rcases List.mem_cons.1 hc with rfl | hc
        · decide
        · exact hdigit hl.fraction hc
  · rcases he : l.exponent with _ | e
    · simp [tail, he] at hc
    · obtain ⟨hletter, hsign, hdigits, -⟩ := hl.exponent e he
      rw [tail, he] at hc
      rcases List.mem_append.1 (show c ∈ (e.letter :: e.sign) ++ e.digits from hc) with hc | hc
      · rcases List.mem_cons.1 hc with rfl | hc
        · rcases hletter with h | h <;> rw [h] <;> decide
        · rcases hsign with h | h | h <;> rw [h] at hc <;> simp_all
      · exact hdigit hdigits hc

theorem scanUnsigned_chars (hl : l.Proper) (hrest : Breaks rest) (negative : Bool) :
    scanUnsigned negative (l.chars ++ rest) = (l.token negative, l.chars) := by
  have hdecimal := scanDecimal_chars hl hrest negative
  unfold scanUnsigned
  split
  case h_1 x cs h =>
    have hne : ¬(x = 'x' ∨ x = 'X') := by
      rcases hc : l.chars with _ | ⟨c, _ | ⟨d, ds⟩⟩
      · exact absurd (List.append_eq_nil_iff.1 (List.append_eq_nil_iff.1 hc).1).1 hl.some_digit
      · rw [hc] at h
        obtain ⟨-, rfl⟩ := List.cons.inj h
        rintro (h | h)
        · exact hrest.ne (by decide) h
        · exact hrest.ne (by decide) h
      · rw [hc] at h
        obtain ⟨-, rfl, -⟩ : c = '0' ∧ d = x ∧ ds ++ rest = cs := by simpa using h
        have hd := not_hex_of_mem hl (c := d) (by rw [hc]; simp)
        exact not_or.2 hd
    rw [if_neg hne]
    exact hdecimal
  case h_2 => exact hdecimal

theorem exists_digit (hl : l.Proper) : ∃ d ds, l.chars = d :: ds ∧ d.isDigit = true := by
  obtain ⟨d, ds, hd⟩ := List.exists_cons_of_ne_nil hl.some_digit
  exact ⟨d, ds ++ l.point ++ l.tail, by simp [chars, hd], hl.whole d (by rw [hd]; simp)⟩

theorem spells (hl : l.Proper) : Spells l.chars (l.token false) :=
  spells_unsigned (exists_digit hl) fun _ hrest => scanUnsigned_chars hl hrest false

theorem spells_negative (hl : l.Proper) : Spells ('-' :: l.chars) (l.token true) :=
  spells_minus (exists_digit hl) fun _ hrest => scanUnsigned_chars hl hrest true

end Literal

/-! ### Integers -/

/-- A whole number as a literal. -/
def wholeLiteral (n : Nat) : Literal :=
  ⟨Nat.toDigits 10 n, [], none⟩

theorem wholeLiteral_proper (n : Nat) : (wholeLiteral n).Proper where
  whole := digits_toDigits n
  some_digit := Nat.toDigits_ne_nil
  fraction := nofun
  exponent := nofun

theorem wholeLiteral_chars (n : Nat) : (wholeLiteral n).chars = (toString n).toList := by
  simp [Literal.chars, Literal.point, Literal.tail, wholeLiteral]

theorem wholeLiteral_token (n : Nat) (negative : Bool) :
    (wholeLiteral n).token negative =
      if Int64.minValue.toInt ≤ signed negative n ∧ signed negative n ≤ Int64.maxValue.toInt then
        .int (Int64.ofInt (signed negative n))
      else .invalid (.outOfRange (String.ofList ((if negative then ['-'] else [])
        ++ Nat.toDigits 10 n))) := by
  simp only [Literal.token, Literal.isWhole, wholeLiteral, intToken, digitsValue_toDigits,
    List.isEmpty_nil, Option.isNone_none, Bool.and_self, if_true, Bool.and_eq_true,
    decide_eq_true_eq]

/-- An integer reads back as itself. -/
theorem spells_int (v : Int64) : Spells (toString v.toInt).toList (.int v) := by
  have hrange := And.intro (Int64.minValue_le_toInt v) (Int64.toInt_le v)
  rw [Int.toString_eq_repr, Int.repr_eq_if]
  split
  case isTrue h =>
    have hspells := Literal.spells (wholeLiteral_proper v.toInt.toNat)
    have hvalue : signed false v.toInt.toNat = v.toInt := Int.toNat_of_nonneg h
    rw [wholeLiteral_chars, wholeLiteral_token, hvalue, if_pos hrange, Int64.ofInt_toInt]
      at hspells
    exact hspells
  case isFalse h =>
    have hspells := Literal.spells_negative (wholeLiteral_proper (-v.toInt).toNat)
    have hvalue : signed true (-v.toInt).toNat = v.toInt := by
      simp only [signed, if_true]
      omega
    rw [wholeLiteral_chars, wholeLiteral_token, hvalue, if_pos hrange, Int64.ofInt_toInt]
      at hspells
    simpa using hspells

/-! ### Floats -/

/-- An exponent as it is written. -/
theorem exists_exponent (power : Int) :
    ∃ e : Exponent, e.Proper ∧ e.value = power ∧ e.lexeme = 'e' :: (toString power).toList := by
  rw [Int.toString_eq_repr, Int.repr_eq_if]
  split
  case isTrue h =>
    refine ⟨⟨'e', [], Nat.toDigits 10 power.toNat⟩,
      ⟨.inl rfl, .inl rfl, digits_toDigits _, Nat.toDigits_ne_nil⟩, ?_, ?_⟩
    · simpa [Exponent.value, signed, digitsValue_toDigits] using h
    · simp [Exponent.lexeme]
  case isFalse h =>
    refine ⟨⟨'e', ['-'], Nat.toDigits 10 (-power).toNat⟩,
      ⟨.inl rfl, .inr (.inl rfl), digits_toDigits _, Nat.toDigits_ne_nil⟩, ?_, ?_⟩
    · simp only [Exponent.value, signed, digitsValue_toDigits, decide_true, if_true]
      omega
    · simp [Exponent.lexeme]

/-- The text is a literal with a fraction or an exponent, and its value is `q`. -/
def Denotes (text : List Char) (q : ℚ) : Prop :=
  ∃ l : Literal, l.Proper ∧ l.isWhole = false ∧ text = l.chars ∧ l.value = q

theorem zero_digit : Digits ['0'] :=
  List.forall_mem_singleton.2 rfl

section Layout
variable {ds : List Char}

theorem denotes_below_one (hds : Digits ds) (hne : ds ≠ []) (k : Nat) :
    Denotes ('0' :: '.' :: List.replicate k '0' ++ ds)
      (digitsValue 10 ds * 10 ^ (-(k : Int) - ds.length)) := by
  refine ⟨⟨['0'], List.replicate k '0' ++ ds, none⟩,
    ⟨zero_digit, by simp, (digits_replicate k).append hds, nofun⟩, ?_, ?_, ?_⟩
  · simp [Literal.isWhole, hne]
  · simp [Literal.chars, Literal.point, Literal.tail, hne]
  · have hvalue : digitsValue 10 (['0'] ++ (List.replicate k '0' ++ ds)) = digitsValue 10 ds := by
      rw [← List.append_assoc, digitsValue_append (zero_digit.append (digits_replicate k)) hds,
        digitsValue_append zero_digit (digits_replicate k), digitsValue_replicate]
      simp [digitsValue, digitValue]
    simp only [Literal.value, Literal.power, hvalue, Option.map_none, Option.getD_none,
      List.length_append, List.length_replicate]
    congr 2
    push_cast
    omega

theorem denotes_units (hds : Digits ds) (hne : ds ≠ []) (k : Nat) :
    Denotes (ds ++ List.replicate k '0' ++ ['.', '0']) (digitsValue 10 ds * 10 ^ (k : Int)) := by
  refine ⟨⟨ds ++ List.replicate k '0', ['0'], none⟩,
    ⟨hds.append (digits_replicate k), by simp [hne], zero_digit, nofun⟩, rfl, ?_, ?_⟩
  · simp [Literal.chars, Literal.point, Literal.tail]
  · have hvalue : digitsValue 10 (ds ++ List.replicate k '0' ++ ['0'])
        = digitsValue 10 ds * 10 ^ k * 10 := by
      rw [digitsValue_append (hds.append (digits_replicate k)) zero_digit,
        digitsValue_append hds (digits_replicate k), digitsValue_replicate]
      simp [digitsValue, digitValue]
    simp only [Literal.value, Literal.power, hvalue]
    push_cast
    simp [mul_assoc]

theorem denotes_divided (hds : Digits ds) {n : Nat} (hn : 0 < n) (hlen : n < ds.length) :
    Denotes (ds.take n ++ '.' :: ds.drop n) (digitsValue 10 ds * 10 ^ ((n : Int) - ds.length)) := by
  have hdrop : ds.drop n ≠ [] := by simp [hlen]
  refine ⟨⟨ds.take n, ds.drop n, none⟩, ⟨fun c hc => hds c (List.mem_of_mem_take hc), ?_,
    fun c hc => hds c (List.mem_of_mem_drop hc), nofun⟩, ?_, ?_, ?_⟩
  · rw [ne_eq, List.take_eq_nil_iff]
    rintro (h | h)
    · omega
    · rw [h] at hlen
      cases hlen
  · simpa [Literal.isWhole] using hlen
  · simp [Literal.chars, Literal.point, Literal.tail, hlen]
  · simp only [Literal.value, Literal.power, List.take_append_drop, Option.map_none,
      Option.getD_none, List.length_drop]
    congr 2
    omega

theorem denotes_exponent (hds : Digits ds) (hne : ds ≠ []) (power : Int) :
    Denotes (ds.take 1 ++ (if (ds.drop 1).isEmpty then [] else '.' :: ds.drop 1) ++ ['e']
      ++ (toString power).toList) (digitsValue 10 ds * 10 ^ (power + 1 - ds.length)) := by
  obtain ⟨e, he, hvalue, hlexeme⟩ := exists_exponent power
  have hpos : 0 < ds.length := List.length_pos_iff.2 hne
  refine ⟨⟨ds.take 1, ds.drop 1, some e⟩, ⟨fun c hc => hds c (List.mem_of_mem_take hc),
    by simp [hne], fun c hc => hds c (List.mem_of_mem_drop hc), ?_⟩, ?_, ?_, ?_⟩
  · rintro _ ⟨⟩
    exact he
  · simp [Literal.isWhole]
  · simp [Literal.chars, Literal.point, Literal.tail, hlexeme]
  · simp only [Literal.value, Literal.power, List.take_append_drop, Option.map_some,
      Option.getD_some, hvalue, List.length_drop]
    congr 2
    omega

theorem wholeTail_eq : Decimal.constantLayout.wholeTail.toList = ['.', '0'] := by
  decide

/-- What is written in the layout of constants denotes the digits times their power of
ten. -/
theorem denotes_writeDigits (hds : Digits ds) (hne : ds ≠ []) (power : Int) :
    Denotes (Decimal.writeDigits Decimal.constantLayout ds power)
      (digitsValue 10 ds * 10 ^ (power + 1 - ds.length)) := by
  unfold Decimal.writeDigits
  split
  case isFalse => exact denotes_exponent hds hne power
  case isTrue hrange =>
    split
    case isTrue hneg =>
      convert denotes_below_one hds hne (-power - 1).toNat using 3
      omega
    case isFalse hneg =>
      simp only
      split
      case isTrue hlen =>
        rw [wholeTail_eq]
        convert denotes_units hds hne (power.toNat + 1 - ds.length) using 3
        omega
      case isFalse hlen =>
        convert denotes_divided hds (Nat.succ_pos power.toNat) (Nat.lt_of_not_le hlen) using 3
        push_cast
        omega

end Layout

theorem stripZeros_value (fuel n : Nat) :
    n = (Decimal.stripZeros fuel n).1 * 10 ^ (Decimal.stripZeros fuel n).2 := by
  induction fuel generalizing n with
  | zero => simp [Decimal.stripZeros]
  | succ fuel ih =>
    simp only [Decimal.stripZeros]
    split
    case isTrue h =>
      rw [Nat.pow_succ, ← Nat.mul_assoc, ← ih, Nat.div_mul_cancel (Nat.dvd_of_mod_eq_zero h.2)]
    case isFalse => simp

/-- A finite magnitude is written as a literal that it is nearest to. -/
theorem denotes_writeFinite {m : Nat} (hm : m < Binary64.infinity) :
    ∃ q, Denotes (Decimal.writeFinite Decimal.constantLayout m) q ∧ nearest q = m := by
  unfold Decimal.writeFinite
  split
  case isTrue hzero =>
    refine ⟨0, ?_, by simp [nearest, hzero]⟩
    rw [wholeTail_eq]
    simpa [digitsValue, digitValue] using denotes_units zero_digit (List.cons_ne_nil _ _) 0
  case isFalse hzero =>
    refine ⟨_, denotes_writeDigits (digits_toDigits _) Nat.toDigits_ne_nil _, ?_⟩
    have hread := Decimal.magnitudeOf_shortest hm
    rw [magnitudeOf_eq] at hread
    have hstrip : ((Decimal.shortest m).digits : ℚ) =
        (Decimal.stripZeros (Decimal.shortest m).digits.log2 (Decimal.shortest m).digits).1 *
          10 ^ ((Decimal.stripZeros (Decimal.shortest m).digits.log2
            (Decimal.shortest m).digits).2 : Int) := by
      exact_mod_cast stripZeros_value (Decimal.shortest m).digits.log2 (Decimal.shortest m).digits
    rw [hstrip, mul_assoc, ← zpow_add₀ (by norm_num)] at hread
    rw [digitsValue_toDigits]
    convert hread using 4
    omega

/-- A word is its sign and its magnitude. -/
theorem assemble_magnitude (bits : UInt64) :
    Binary64.assemble (Binary64.isNegative bits) (Binary64.magnitude bits) = bits := by
  have hlt : bits.toNat < 2 * Binary64.signBit := bits.toNat_lt
  have hsum : (if Binary64.isNegative bits then Binary64.signBit + Binary64.magnitude bits
      else Binary64.magnitude bits) = bits.toNat := by
    simp only [Binary64.isNegative, Binary64.magnitude, decide_eq_true_eq]
    split
    case isTrue h =>
      rw [Nat.mod_eq_sub_mod h, Nat.mod_eq_of_lt (by omega)]
      omega
    case isFalse h => exact Nat.mod_eq_of_lt (by omega)
  rw [Binary64.assemble, hsum, UInt64.ofNat_toNat]

/-- A finite float reads back as itself, bit for bit. -/
theorem spells_float {bits : UInt64} (hfinite : Binary64.magnitude bits < Binary64.infinity) :
    Spells (Decimal.constantLayout.write bits).toList (.float bits) := by
  obtain ⟨q, ⟨l, hl, hwhole, htext, rfl⟩, hnearest⟩ := denotes_writeFinite hfinite
  have hread : ∃ n e, Binary64.read bits = .finite (Binary64.isNegative bits) n e := by
    simp only [Binary64.read, if_neg hfinite.not_gt, if_neg hfinite.ne]
    exact ⟨_, _, rfl⟩
  obtain ⟨n, e, hread⟩ := hread
  have htoken (negative : Bool) : l.token negative =
      .float (Binary64.assemble negative (Binary64.magnitude bits)) := by
    rw [Literal.token, hwhole, hnearest]
    rfl
  have hword := assemble_magnitude bits
  simp only [Decimal.Layout.write, hread, String.toList_ofList, htext]
  cases hsign : Binary64.isNegative bits with
  | true => simpa [htoken, hsign ▸ hword] using Literal.spells_negative hl
  | false => simpa [htoken, hsign ▸ hword] using Literal.spells hl

/-- What is not finite is written as a word. -/
theorem write_of_not_finite {bits : UInt64}
    (h : ¬Binary64.magnitude bits < Binary64.infinity) :
    Decimal.constantLayout.write bits =
      if Binary64.isNaN bits then "NaN" else if Binary64.isNegative bits then "-inf" else "inf" := by
  simp only [Decimal.Layout.write, Binary64.read, Binary64.isNaN, decide_eq_true_eq]
  by_cases hnan : Binary64.infinity < Binary64.magnitude bits
  · rw [if_pos hnan, if_pos hnan]
    rfl
  · have hinf := Nat.le_antisymm (Nat.le_of_not_lt hnan) (Nat.le_of_not_lt h)
    rw [if_neg hnan, if_neg hnan, if_pos hinf]
    cases Binary64.isNegative bits <;> rfl

end Number
end TracePeel
