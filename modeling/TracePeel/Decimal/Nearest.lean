import TracePeel.Decimal.Binary64

/-! The binary64 number nearest to a decimal.

A quotient of whole numbers is rounded to the grid of powers of two that leaves
53 binary digits, or to the finest grid there is; a half goes to the even
neighbour, and what rounds beyond the largest finite number is infinite. Digits
and a power of ten of any length are read exactly. -/
namespace TracePeel.Decimal

/-- The whole number nearest to a quotient; a half goes to the even one. -/
def roundHalfEven (num den : Nat) : Nat :=
  let down := num / den
  let rest := num % den
  if 2 * rest < den then down
  else if den < 2 * rest then down + 1
  else down + down % 2

/-- `num / den / base ^ e` as a quotient of whole numbers. -/
def scaled (base : Nat) (num den : Nat) (e : Int) : Nat × Nat :=
  if 0 ≤ e then (num, den * base.pow e.toNat) else (num * base.pow (-e).toNat, den)

/-- The exponent of the largest power of two that a positive quotient reaches. -/
def floorLog2 (num den : Nat) : Int :=
  let guess : Int := (num.log2 : Int) - den.log2
  let (a, b) := scaled 2 num den guess
  if b ≤ a then guess else guess - 1

/-- The magnitude of the word nearest to a quotient. -/
def nearestMagnitude (num den : Nat) : Nat :=
  if num = 0 then 0
  else
    let grid := max (floorLog2 num den - 52) (-1074)
    let (a, b) := scaled 2 num den grid
    min ((grid + 1074).toNat * Binary64.hiddenBit + roundHalfEven a b) Binary64.infinity

/-- The magnitude nearest to `digits * 10 ^ exponent`. An exponent that alone
decides the answer is not carried out. -/
def magnitudeOf (digits : Nat) (exponent : Int) : Nat :=
  if digits = 0 ∨ exponent < -((digits.log2 : Int) + 401) then 0
  else if 400 < exponent then Binary64.infinity
  else
    let (num, den) := scaled 10 digits 1 (-exponent)
    nearestMagnitude num den

/-- The word nearest to a signed decimal. -/
def toBinary64 (negative : Bool) (digits : Nat) (exponent : Int) : UInt64 :=
  Binary64.assemble negative (magnitudeOf digits exponent)

end TracePeel.Decimal
