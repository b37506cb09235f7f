import TracePeel.Decimal.Layout

/-! Operands: the values that operations read.

A box is a value known only at run time, a constant one known now. Two boxes are
the same value only if they agree in number and kind. Constants are compared by
value, floating-point ones by their words, so every constant equals itself. -/
namespace TracePeel

inductive Kind where
  | int
  | ref
  | float
  deriving Repr, DecidableEq

namespace Kind

/-- The letter that the names of boxes of this kind begin with. -/
def letter : Kind → Char
  | int => 'i'
  | ref => 'p'
  | float => 'f'

def ofLetter? : Char → Option Kind
  | 'i' => some int
  | 'p' => some ref
  | 'f' => some float
  | _ => none

/-- The name of the kind in messages. -/
def name : Kind → String
  | int => "Int"
  | ref => "Ref"
  | float => "Float"

@[simp] theorem ofLetter?_letter (k : Kind) : ofLetter? k.letter = some k := by
  cases k <;> rfl

theorem eq_letter_of_ofLetter? {c : Char} {k : Kind} (h : ofLetter? c = some k) :
    c = k.letter := by
  unfold ofLetter? at h
  split at h <;> first | (cases h; rfl) | cases h

end Kind

/-- A value that is known only when the loop runs. -/
structure Box where
  id : Nat
  kind : Kind
  deriving Repr, DecidableEq

/-- The name of a box in messages: its kind's letter and its number. -/
def Box.name (b : Box) : String :=
  String.ofList (b.kind.letter :: (toString b.id).toList)

/-- A value that is known now. -/
inductive Const where
  | int (value : Int64)
  | ref (address : UInt64)
  | float (bits : UInt64)
  deriving Repr, DecidableEq

namespace Const

def kind : Const → Kind
  | int _ => .int
  | ref _ => .ref
  | float _ => .float

/-- The value that every field of a fresh object holds. -/
def zero : Kind → Const
  | .int => int 0
  | .ref => ref 0
  | .float => float 0

/-- The integer that stands for the outcome of a test. -/
def ofBool (b : Bool) : Const :=
  int (if b then 1 else 0)

/-- Whether a guard on truth lets the constant through. -/
def isTrue : Const → Bool
  | int value => value != 0
  | ref address => address != 0
  | float bits => Binary64.isTrue bits

def int? : Const → Option Int64
  | int value => some value
  | _ => none

def float? : Const → Option UInt64
  | float bits => some bits
  | _ => none

/-- The constant as traces write it. -/
def text : Const → String
  | int value => toString value.toInt
  | ref address => "ConstPtr(" ++ toString address.toNat ++ ")"
  | float bits => Decimal.constantLayout.write bits

@[simp] theorem kind_zero (k : Kind) : (zero k).kind = k := by
  cases k <;> rfl

theorem isTrue_zero (k : Kind) : (zero k).isTrue = false := by
  cases k <;> decide

theorem isTrue_ofBool (b : Bool) : (ofBool b).isTrue = b := by
  cases b <;> decide

end Const

/-- What an operation reads. -/
inductive Operand where
  | box (b : Box)
  | const (c : Const)
  deriving Repr, DecidableEq

namespace Operand

def kind : Operand → Kind
  | box b => b.kind
  | const c => c.kind

def box? : Operand → Option Box
  | box b => some b
  | const _ => none

def const? : Operand → Option Const
  | const c => some c
  | box _ => none

def isConst (a : Operand) : Bool :=
  a.const?.isSome

/-- The operand in messages, boxes by their own numbers. -/
def text : Operand → String
  | box b => b.name
  | const c => c.text

/-- The operand with its box replaced; a constant stays. -/
def mapBox (f : Box → Operand) : Operand → Operand
  | box b => f b
  | const c => const c

end Operand
end TracePeel
