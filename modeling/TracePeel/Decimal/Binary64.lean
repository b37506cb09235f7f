/-! Binary floating point, as words.

A binary64 number is kept as its 64-bit word, so two constants are the same
exactly when their words are. A finite word denotes a whole number times a power
of two (`read`); everything else about it — whether it is true, how it is
printed, which word a decimal text denotes — is said in whole numbers. -/
namespace TracePeel.Binary64

/-- The word of positive infinity. -/
def infinity : Nat := 0x7FF0000000000000

/-- The weight of the sign in a word. -/
def signBit : Nat := 0x8000000000000000

/-- The weight of the exponent's field in a word, and of the bit that a normal number
leaves unwritten. -/
def hiddenBit : Nat := 0x10000000000000

/-- The word without its sign. -/
def magnitude (bits : UInt64) : Nat :=
  bits.toNat % signBit

def isNegative (bits : UInt64) : Bool :=
  signBit ≤ bits.toNat

def isNaN (bits : UInt64) : Bool :=
  infinity < magnitude bits

/-- What a word denotes. -/
inductive Reading where
  | nan
  | infinite (negative : Bool)
  /-- `significand * 2 ^ exponent`, with a sign that zero has too. -/
  | finite (negative : Bool) (significand : Nat) (exponent : Int)
  deriving Repr, DecidableEq

/-- The whole number and the power of two of a finite magnitude. -/
def split (magnitude : Nat) : Nat × Int :=
  let field : Nat := magnitude / hiddenBit
  let fraction : Nat := magnitude % hiddenBit
  if field = 0 then (fraction, -1074) else (hiddenBit + fraction, (field : Int) - 1075)

def read (bits : UInt64) : Reading :=
  let m := magnitude bits
  if infinity < m then .nan
  else if m = infinity then .infinite (isNegative bits)
  else
    let (significand, exponent) := split m
    .finite (isNegative bits) significand exponent

/-- The word with the given sign and magnitude. -/
def assemble (negative : Bool) (magnitude : Nat) : UInt64 :=
  UInt64.ofNat (if negative then signBit + magnitude else magnitude)

/-- A number is true unless it equals zero; a NaN equals nothing, so it is true. -/
def isTrue (bits : UInt64) : Bool :=
  magnitude bits != 0

end TracePeel.Binary64
