import TracePeel.Decimal.Shortest

/-! How a binary64 number is written.

The digits are the shortest that read back; this module decides where the point
goes. The decisions of the format are fields of one record. -/
namespace TracePeel.Decimal

/-- The decisions of a format for binary64 numbers. -/
structure Layout where
  /-- The least power of ten written without an exponent. -/
  lowest : Int
  /-- The first power of ten written with one. -/
  beyond : Int
  /-- The fraction of a whole number written without an exponent. -/
  wholeTail : String
  /-- What stands before the exponent. -/
  mark : String
  infinity : String
  nan : String

/-- Without the zeros at its end, and how many there were. -/
def stripZeros : Nat → Nat → Nat × Nat
  | 0, n => (n, 0)
  | fuel + 1, n =>
    if n ≠ 0 ∧ n % 10 = 0 then
      let (m, k) := stripZeros fuel (n / 10)
      (m, k + 1)
    else (n, 0)

/-- A positive decimal in a layout. `power` is the power of ten of its first digit. -/
def writeDigits (layout : Layout) (digits : List Char) (power : Int) : List Char :=
  if layout.lowest ≤ power ∧ power < layout.beyond then
    if power < 0 then
      '0' :: '.' :: List.replicate (-power - 1).toNat '0' ++ digits
    else
      let whole := power.toNat + 1
      if digits.length ≤ whole then
        digits ++ List.replicate (whole - digits.length) '0' ++ layout.wholeTail.toList
      else digits.take whole ++ '.' :: digits.drop whole
  else
    let fraction := digits.drop 1
    let point := if fraction.isEmpty then [] else '.' :: fraction
    digits.take 1 ++ point ++ layout.mark.toList ++ (toString power).toList

def writeFinite (layout : Layout) (magnitude : Nat) : List Char :=
  if magnitude = 0 then '0' :: layout.wholeTail.toList
  else
    let s := shortest magnitude
    let (digits, zeros) := stripZeros s.digits.log2 s.digits
    let text := Nat.toDigits 10 digits
    writeDigits layout text (s.exponent + zeros + text.length - 1)

def Layout.write (layout : Layout) (bits : UInt64) : String :=
  let sign := if Binary64.isNegative bits then ['-'] else []
  match Binary64.read bits with
  | .nan => layout.nan
  | .infinite _ => String.ofList (sign ++ layout.infinity.toList)
  | .finite _ _ _ => String.ofList (sign ++ writeFinite layout (Binary64.magnitude bits))

/-- Constants are written positionally from `0.0001` up to `10 ^ 16`, always with a
fraction, and otherwise as one digit, a fraction if there is one and an exponent. -/
def constantLayout : Layout :=
  ⟨-4, 16, ".0", "e", "inf", "NaN"⟩

end TracePeel.Decimal
