import TracePeel.Decimal.Nearest

/-! The shortest decimal that reads back.

Of all decimal grids, from coarse to fine, the first is taken on which one of the
two points around the number reads back as the same word. Where both do, the
nearer is taken, and of two equally near the larger. The finest grid tried holds
the number itself, so the search always ends with a decimal that reads back. -/
namespace TracePeel.Decimal

/-- `digits * 10 ^ exponent`. -/
structure Scientific where
  digits : Nat
  exponent : Int
  deriving Repr, DecidableEq

/-- The points of the grid of `10 ^ exponent` below and above a quotient that
read back as `magnitude`, the better first. -/
def candidate? (magnitude num den : Nat) (exponent : Int) : Option Nat :=
  let (a, b) := scaled 10 num den exponent
  let down := a / b
  let rest := a % b
  let reads (digits : Nat) : Bool := magnitudeOf digits exponent == magnitude
  let nearer := if 2 * rest < b then down else down + 1
  let farther := if 2 * rest < b then down + 1 else down
  if reads nearer then some nearer
  else if reads farther then some farther
  else none

/-- Tries one grid after the other, each ten times finer. -/
def searchGrids (magnitude num den : Nat) : Nat → Int → Scientific
  | 0, exponent => ⟨(scaled 10 num den exponent).1 / (scaled 10 num den exponent).2, exponent⟩
  | steps + 1, exponent =>
    match candidate? magnitude num den exponent with
    | some digits => ⟨digits, exponent⟩
    | none => searchGrids magnitude num den steps (exponent - 1)

/-- The shortest decimal that reads back as a finite magnitude. -/
def shortest (magnitude : Nat) : Scientific :=
  if magnitude = 0 then ⟨0, 0⟩
  else
    let (significand, power) := Binary64.split magnitude
    let (num, den) := scaled 2 significand 1 (-power)
    let finest := min power 0
    let coarsest := (floorLog2 num den + 1) * 30103 / 100000 + 2
    searchGrids magnitude num den (coarsest - finest).toNat coarsest

end TracePeel.Decimal
