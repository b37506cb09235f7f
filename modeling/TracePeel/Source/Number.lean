import TracePeel.Decimal.Nearest
import TracePeel.Source.Token

/-! Number literals.

A literal is a sign, then either `0x` and hexadecimal digits or decimal digits
with an optional fraction and exponent. A point belongs to the literal only before
a digit, an exponent's letter only before a digit or a sign. Integers have 64
bits; of a hexadecimal one the magnitude must fit by itself. -/
namespace TracePeel.Number

def isHexDigit (c : Char) : Bool :=
  c.isDigit || ('a' ≤ c && c ≤ 'f') || ('A' ≤ c && c ≤ 'F')

def digitValue (c : Char) : Nat :=
  if c.isDigit then c.toNat - '0'.toNat
  else if 'a' ≤ c then c.toNat - 'a'.toNat + 10
  else c.toNat - 'A'.toNat + 10

/-- The number that some digits denote. -/
def digitsValue (base : Nat) (digits : List Char) : Nat :=
  digits.foldl (fun n c => n * base + digitValue c) 0

def signed (negative : Bool) (n : Nat) : Int :=
  if negative then -n else n

/-- The token of a hexadecimal literal. -/
def hexToken (negative : Bool) (digits : List Char) : Token :=
  let magnitude := digitsValue 16 digits
  if !digits.isEmpty && magnitude ≤ Int64.maxValue.toInt then
    .int (Int64.ofInt (signed negative magnitude))
  else .invalid (.badHex (String.ofList digits))

/-- The token of a decimal literal without fraction and exponent. -/
def intToken (negative : Bool) (digits : List Char) : Token :=
  let value := signed negative (digitsValue 10 digits)
  if Int64.minValue.toInt ≤ value && value ≤ Int64.maxValue.toInt then .int (Int64.ofInt value)
  else
    let sign := if negative then ['-'] else []
    .invalid (.outOfRange (String.ofList (sign ++ digits)))

/-- An exponent: its letter, its sign and its digits. -/
structure Exponent where
  letter : Char
  sign : List Char
  digits : List Char

namespace Exponent

def value (e : Exponent) : Int :=
  signed (e.sign = ['-']) (digitsValue 10 e.digits)

/-- The characters as they stand. -/
def lexeme (e : Exponent) : List Char :=
  e.letter :: e.sign ++ e.digits

end Exponent

/-- The token of a decimal literal with a fraction, an exponent or both. -/
def floatToken (negative : Bool) (whole fraction : List Char) (exponent : Option Exponent) :
    Token :=
  match exponent with
  | some ⟨_, sign, []⟩ =>
    let point := if fraction.isEmpty then [] else '.' :: fraction
    let minus := if negative then ['-'] else []
    .invalid (.badFloat (String.ofList (minus ++ whole ++ point ++ 'e' :: sign)))
  | _ =>
    let power := (exponent.map (·.value)).getD 0 - fraction.length
    .float (Decimal.toBinary64 negative (digitsValue 10 (whole ++ fraction)) power)

/-- The digits behind a point, where a point and a digit stand. -/
def fractionDigits : List Char → List Char
  | '.' :: rest => rest.takeWhile Char.isDigit
  | _ => []

/-- The exponent at the head of the text. -/
def exponent? : List Char → Option Exponent
  | letter :: c :: rest =>
    if letter = 'e' ∨ letter = 'E' then
      if c = '-' ∨ c = '+' then some ⟨letter, [c], rest.takeWhile Char.isDigit⟩
      else if c.isDigit then some ⟨letter, [], (c :: rest).takeWhile Char.isDigit⟩
      else none
    else none
  | _ => none

/-- The decimal literal at the head of the text: its token and its characters. -/
def scanDecimal (negative : Bool) (cs : List Char) : Token × List Char :=
  let whole := cs.takeWhile Char.isDigit
  let behind := cs.dropWhile Char.isDigit
  let fraction := fractionDigits behind
  let point := if fraction.isEmpty then [] else '.' :: fraction
  match exponent? (behind.drop point.length) with
  | some e => (floatToken negative whole fraction (some e), whole ++ point ++ e.lexeme)
  | none =>
    if fraction.isEmpty then (intToken negative whole, whole)
    else (floatToken negative whole fraction none, whole ++ point)

/-- The literal without its sign. -/
def scanUnsigned (negative : Bool) (cs : List Char) : Token × List Char :=
  match cs with
  | '0' :: x :: rest =>
    if x = 'x' ∨ x = 'X' then
      let digits := rest.takeWhile isHexDigit
      (hexToken negative digits, '0' :: x :: digits)
    else scanDecimal negative cs
  | _ => scanDecimal negative cs

/-- The literal at the head of the text: its token and its characters. -/
def scan : List Char → Token × List Char
  | '-' :: rest =>
    let (token, lexeme) := scanUnsigned true rest
    (token, '-' :: lexeme)
  | cs => scanUnsigned false cs

end TracePeel.Number
