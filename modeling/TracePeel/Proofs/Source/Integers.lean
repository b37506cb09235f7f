import Mathlib.Data.Nat.Digits.Defs
import TracePeel.Proofs.Source.Lexing

/-! Which integers a literal can be.

An integer literal is a sign, a radix and digits. `tokens_integer`: it is one token, the
integer that it denotes if 64 bits hold that integer. The sign of a decimal literal
belongs to its digits, so the lowest integer of all has a decimal literal. The magnitude
of a hexadecimal one is read by itself, and the magnitude of the lowest integer is one
more than the highest: it has no hexadecimal literal (`lowest_hexadecimal_refused`). -/
namespace TracePeel

namespace Number

open Lexer (Breaks)

inductive Radix where
  | decimal
  | hexadecimal (capital : Bool)
deriving DecidableEq

namespace Radix

def base : Radix → Nat
  | decimal => 10
  | hexadecimal _ => 16

/-- What stands between the sign and the digits. -/
def mark : Radix → List Char
  | decimal => []
  | hexadecimal false => ['0', 'x']
  | hexadecimal true => ['0', 'X']

def isDigit : Radix → Char → Bool
  | decimal, c => c.isDigit
  | hexadecimal _, c => isHexDigit c

end Radix

/-- The figures by their worth. -/
def figures : List Char :=
  "0123456789abcdef".toList

/-- An integer as it is written. -/
structure IntegerLiteral where
  negative : Bool
  radix : Radix
  digits : List Char
  all_digits : ∀ d ∈ digits, radix.isDigit d = true
  some_digit : digits ≠ []

namespace IntegerLiteral

def sign (l : IntegerLiteral) : List Char :=
  if l.negative then ['-'] else []

def chars (l : IntegerLiteral) : List Char :=
  l.sign ++ l.radix.mark ++ l.digits

/-- The sum of what the digits are worth in their places. -/
def magnitude (l : IntegerLiteral) : Nat :=
  Nat.ofDigits l.radix.base (l.digits.reverse.map fun d => figures.idxOf d.toLower)

def value (l : IntegerLiteral) : Int :=
  if l.negative then -l.magnitude else l.magnitude

/-- Why the literal is no integer of 64 bits, where it is none. -/
def complaint (l : IntegerLiteral) : LexError :=
  match l.radix with
  | .decimal => .outOfRange (String.ofList l.chars)
  | .hexadecimal _ => .badHex (String.ofList l.digits)

/-- Whether the literal is read as its value. Where the magnitude is read by itself it
cannot be that of the lowest integer. -/
def Fits (l : IntegerLiteral) : Prop :=
  -2 ^ 63 ≤ l.value ∧ l.value < 2 ^ 63 ∧ (l.radix ≠ .decimal → l.value ≠ -2 ^ 63)

instance (l : IntegerLiteral) : Decidable l.Fits :=
  inferInstanceAs (Decidable (_ ∧ _ ∧ _))

end IntegerLiteral

/-! ### Digits -/

theorem mem_of_isHexDigit {c : Char} (h : isHexDigit c = true) :
    c ∈ "0123456789abcdefABCDEF".toList := by
  have hrange : c.toNat ∈ List.range' 48 10 ++ List.range' 97 6 ++ List.range' 65 6 := by
    simp only [isHexDigit, Bool.or_eq_true, Bool.and_eq_true, decide_eq_true_eq, Char.le_def,
      UInt32.le_iff_toNat_le] at h
    simp only [List.mem_append, List.mem_range'_1]
    rcases h with (h | h) | h
    · have := Lexer.toNat_of_isDigit h
      omega
    · have : 97 ≤ c.toNat ∧ c.toNat ≤ 102 := h
      omega
    · have : 65 ≤ c.toNat ∧ c.toNat ≤ 70 := h
      omega
  have hmem : ∀ n ∈ List.range' 48 10 ++ List.range' 97 6 ++ List.range' 65 6,
      Char.ofNat n ∈ "0123456789abcdefABCDEF".toList := by decide
  simpa using hmem _ hrange

/-- A hexadecimal digit is worth its place among the figures. -/
theorem idxOf_figures {c : Char} (h : isHexDigit c = true) :
    figures.idxOf c.toLower = digitValue c := by
  have hall : "0123456789abcdefABCDEF".toList.all
      (fun c => figures.idxOf c.toLower == digitValue c) = true := by decide
  exact beq_iff_eq.1 (List.all_eq_true.1 hall c (mem_of_isHexDigit h))

theorem continuesName_of_isHexDigit {c : Char} (h : isHexDigit c = true) :
    Lexer.continuesName c = true := by
  have hall : "0123456789abcdefABCDEF".toList.all Lexer.continuesName = true := by decide
  exact List.all_eq_true.1 hall c (mem_of_isHexDigit h)

theorem digitsValue_eq_ofDigits {base : Nat} {ds : List Char}
    (h : ∀ d ∈ ds, isHexDigit d = true) :
    digitsValue base ds = Nat.ofDigits base (ds.reverse.map fun d => figures.idxOf d.toLower) := by
  rw [Nat.ofDigits_eq_foldr, List.foldr_map, List.foldr_reverse, digitsValue]
  apply List.foldl_ext
  intro n d hd
  rw [idxOf_figures (h d hd), Nat.cast_id]
  ring

theorem takeWhile_hexDigits {ds rest : List Char} (hd : ∀ d ∈ ds, isHexDigit d = true)
    (hrest : Breaks rest) : (ds ++ rest).takeWhile isHexDigit = ds := by
  rw [List.takeWhile_append_of_pos hd]
  cases rest with
  | nil => simp
  | cons c rest =>
    have hc : isHexDigit c = false := by
      rw [Bool.eq_false_iff]
      intro h
      simpa [continuesName_of_isHexDigit h] using hrest.not_continues
    simp [hc]

namespace IntegerLiteral
variable {l : IntegerLiteral}

theorem hexDigits (l : IntegerLiteral) : ∀ d ∈ l.digits, isHexDigit d = true := by
  intro d hd
  have h := l.all_digits d hd
  cases hr : l.radix with
  | decimal =>
    rw [hr, Radix.isDigit] at h
    simp [isHexDigit, h]
  | hexadecimal => rwa [hr] at h

theorem digitsValue_digits (l : IntegerLiteral) : digitsValue l.radix.base l.digits = l.magnitude :=
  digitsValue_eq_ofDigits l.hexDigits

/-! ### The token of a literal -/

/-- What the scanner reads behind the sign. -/
def scanned (l : IntegerLiteral) : Token :=
  match l.radix with
  | .decimal => intToken l.negative l.digits
  | .hexadecimal _ => hexToken l.negative l.digits

theorem scanUnsigned_unsigned (l : IntegerLiteral) {rest : List Char} (hrest : Breaks rest) :
    scanUnsigned l.negative (l.radix.mark ++ l.digits ++ rest) =
      (l.scanned, l.radix.mark ++ l.digits) := by
  obtain ⟨negative, radix, digits, hdigits, hsome⟩ := l
  cases radix with
  | decimal =>
    have hproper : Literal.Proper ⟨digits, [], none⟩ := ⟨hdigits, hsome, nofun, nofun⟩
    simpa [Literal.chars, Literal.point, Literal.tail, Literal.token, Literal.isWhole,
      Radix.mark, scanned] using Literal.scanUnsigned_chars hproper hrest negative
  | hexadecimal capital =>
    have htake := takeWhile_hexDigits hdigits hrest
    cases capital <;> simp [Radix.mark, scanUnsigned, scanned, htake]

/-- Behind its sign a literal begins with a digit. -/
theorem unsigned_eq_cons (l : IntegerLiteral) :
    ∃ d ds, l.radix.mark ++ l.digits = d :: ds ∧ d.isDigit = true := by
  obtain ⟨negative, radix, digits, hdigits, hsome⟩ := l
  cases radix with
  | decimal =>
    obtain ⟨d, ds, rfl⟩ := List.exists_cons_of_ne_nil hsome
    exact ⟨d, ds, rfl, hdigits d (List.mem_cons_self ..)⟩
  | hexadecimal capital => cases capital <;> exact ⟨'0', _, rfl, rfl⟩

theorem spells (l : IntegerLiteral) : Spells l.chars l.scanned := by
  have hscan (rest : List Char) (hrest : Breaks rest) := l.scanUnsigned_unsigned hrest
  rw [chars, List.append_assoc, sign]
  cases hsign : l.negative with
  | true =>
    rw [hsign] at hscan
    exact spells_minus l.unsigned_eq_cons hscan
  | false =>
    rw [hsign] at hscan
    exact spells_unsigned l.unsigned_eq_cons hscan

theorem fits_decimal (h : l.radix = .decimal) :
    l.Fits ↔ Int64.minValue.toInt ≤ l.value ∧ l.value ≤ Int64.maxValue.toInt := by
  have hlow : Int64.minValue.toInt = -2 ^ 63 := by decide
  have hhigh : Int64.maxValue.toInt = 2 ^ 63 - 1 := by decide
  rw [Fits, hlow, hhigh]
  constructor
  · intro ⟨hle, hlt, _⟩
    omega
  · intro ⟨hle, hlt⟩
    exact ⟨hle, by omega, fun hradix => absurd h hradix⟩

/-- The magnitude alone decides: with a minus in front of it the only one that it keeps
out and the value does not is that of the lowest integer. -/
theorem fits_hexadecimal (h : l.radix ≠ .decimal) :
    l.Fits ↔ (l.magnitude : Int) ≤ Int64.maxValue.toInt := by
  have hhigh : Int64.maxValue.toInt = 2 ^ 63 - 1 := by decide
  rw [Fits, hhigh, value]
  split <;> grind

theorem scanned_eq (l : IntegerLiteral) :
    l.scanned = if l.Fits then .int (Int64.ofInt l.value) else .invalid l.complaint := by
  have hread := l.digitsValue_digits
  have hvalue : signed l.negative l.magnitude = l.value := rfl
  cases hradix : l.radix with
  | decimal =>
    rw [hradix, Radix.base] at hread
    have hchars : l.chars = l.sign ++ l.digits := by
      rw [chars, hradix, Radix.mark, List.append_nil]
    simp only [scanned, complaint, hradix, intToken, hread, hvalue, fits_decimal hradix, hchars,
      Bool.and_eq_true, decide_eq_true_eq]
    rfl
  | hexadecimal capital =>
    have hhex : l.radix ≠ .decimal := by simp [hradix]
    rw [hradix, Radix.base] at hread
    simp only [scanned, complaint, hradix, hexToken, hread, hvalue, fits_hexadecimal hhex,
      Bool.and_eq_true, Bool.not_eq_true', List.isEmpty_eq_false_iff, decide_eq_true_eq,
      ne_eq, l.some_digit, not_false_eq_true, true_and]

end IntegerLiteral
end Number

namespace Lexer
open Number (IntegerLiteral)

theorem tokens_literal (l : IntegerLiteral) :
    (tokens (String.ofList l.chars)).map (·.token) = [l.scanned, .eof] := by
  have h := Lexes.number lexes_nil l.spells nofun
  rw [List.append_nil, ← String.toList_ofList (l := l.chars)] at h
  exact h.tokens

/-- An integer literal is one token, the integer that it denotes if that integer fits. -/
theorem tokens_integer (l : IntegerLiteral) :
    (tokens (String.ofList l.chars)).map (·.token) =
        [if l.Fits then .int (Int64.ofInt l.value) else .invalid l.complaint, .eof] ∧
      (l.Fits → (Int64.ofInt l.value).toInt = l.value) := by
  constructor
  · rw [tokens_literal, l.scanned_eq]
  · intro ⟨hlow, hhigh, _⟩
    exact Int64.toInt_ofInt_of_le hlow hhigh

/-- The lowest integer, `-0x8000000000000000`. -/
def lowestHexadecimal : IntegerLiteral where
  negative := true
  radix := .hexadecimal false
  digits := "8000000000000000".toList
  all_digits := List.all_eq_true.1 (by decide)
  some_digit := by decide

theorem lowestHexadecimal_value : lowestHexadecimal.value = -2 ^ 63 := by
  decide

/-- Not every literal of an integer of 64 bits is read as its value. -/
theorem lowest_hexadecimal_refused :
    ¬∀ l : IntegerLiteral, ∃ token,
      (tokens (String.ofList l.chars)).map (·.token) = [token, .eof] ∧
      if -2 ^ 63 ≤ l.value ∧ l.value < 2 ^ 63 then
        ∃ n : Int64, token = .int n ∧ n.toInt = l.value
      else ∃ reason, token = .invalid reason := by
  intro h
  obtain ⟨token, htokens, hread⟩ := h lowestHexadecimal
  have hnot : ¬lowestHexadecimal.Fits := fun hfits => hfits.2.2 nofun lowestHexadecimal_value
  rw [tokens_literal, IntegerLiteral.scanned_eq, if_neg hnot] at htokens
  obtain rfl := (List.cons.inj htokens).1
  rw [lowestHexadecimal_value, if_pos (by decide)] at hread
  obtain ⟨n, hn, _⟩ := hread
  cases hn

end Lexer
end TracePeel
