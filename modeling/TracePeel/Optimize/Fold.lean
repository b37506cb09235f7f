import TracePeel.Opcode

/-! Computing with constants.

Integers are 64 bits wide and wrap; a shift is computed only by less than 64 bits;
comparisons give one or zero. Floating-point numbers are words: a sum, difference
or product with a NaN is that NaN made quiet, the first if both are, and one that
makes a NaN from numbers gives the one with its sign set. -/
namespace TracePeel.Fold

/-- The bit that a quiet NaN has set. -/
def quietBit : UInt64 := 0x0008000000000000

/-- The NaN of an invalid operation. -/
def invalidNaN : UInt64 := 0xFFF8000000000000

/-- A floating-point operation on words. -/
def floatOp (f : Float → Float → Float) (a b : UInt64) : UInt64 :=
  if Binary64.isNaN a then a ||| quietBit
  else if Binary64.isNaN b then b ||| quietBit
  else
    let bits := (f (Float.ofBits a) (Float.ofBits b)).toBits
    if Binary64.isNaN bits then invalidNaN else bits

def floatLt (a b : UInt64) : Bool :=
  Float.ofBits a < Float.ofBits b

/-- The word with its sign turned. -/
def floatNeg (a : UInt64) : UInt64 :=
  a ^^^ 0x8000000000000000

def shiftLeft? (a n : Int64) : Option Const :=
  if 0 ≤ n ∧ n < 64 then some (.int (a <<< n)) else none

def shiftRight? (a n : Int64) : Option Const :=
  if 0 ≤ n ∧ n < 64 then some (.int (a >>> n)) else none

/-- Operations on two integers. -/
def ints? (o : Opcode) (a b : Int64) : Option Const :=
  match o with
  | .intAdd => some (.int (a + b))
  | .intSub => some (.int (a - b))
  | .intMul => some (.int (a * b))
  | .intAnd => some (.int (a &&& b))
  | .intOr => some (.int (a ||| b))
  | .intXor => some (.int (a ^^^ b))
  | .intLshift => shiftLeft? a b
  | .intRshift => shiftRight? a b
  | .intLt => some (.ofBool (a < b))
  | .intLe => some (.ofBool (a ≤ b))
  | .intEq => some (.ofBool (a = b))
  | .intNe => some (.ofBool (a ≠ b))
  | .intGt => some (.ofBool (b < a))
  | .intGe => some (.ofBool (b ≤ a))
  | _ => none

/-- Operations on two floating-point numbers. -/
def floats? (o : Opcode) (a b : UInt64) : Option Const :=
  match o with
  | .floatAdd => some (.float (floatOp (· + ·) a b))
  | .floatSub => some (.float (floatOp (· - ·) a b))
  | .floatMul => some (.float (floatOp (· * ·) a b))
  | .floatLt => some (.ofBool (floatLt a b))
  | _ => none

/-- Operations on one constant. -/
def unary? (o : Opcode) (a : Const) : Option Const :=
  match o, a with
  | .intNeg, .int v => some (.int (-v))
  | .intIsTrue, .int v => some (.ofBool (v ≠ 0))
  | .floatNeg, .float v => some (.float (floatNeg v))
  | _, _ => none

/-- Operations on two constants. -/
def binary? (o : Opcode) (a b : Const) : Option Const :=
  match a, b with
  | .int v, .int w => ints? o v w
  | .float v, .float w => floats? o v w
  | _, _ => none

theorem kind_ints? {o : Opcode} {a b : Int64} {c : Const} (h : ints? o a b = some c) :
    o.resultKind? = some c.kind := by
  cases o <;> simp only [ints?, shiftLeft?, shiftRight?, Option.ite_none_right_eq_some,
    Option.some.injEq, reduceCtorEq] at h <;>
    first | (subst h; rfl) | (obtain ⟨_, rfl⟩ := h; rfl)

theorem kind_floats? {o : Opcode} {a b : UInt64} {c : Const} (h : floats? o a b = some c) :
    o.resultKind? = some c.kind := by
  cases o <;> simp only [floats?, Option.some.injEq, reduceCtorEq] at h <;> (subst h; rfl)

theorem kind_unary? {o : Opcode} {a c : Const} (h : unary? o a = some c) :
    o.resultKind? = some c.kind := by
  unfold unary? at h
  split at h <;> cases h <;> rfl

theorem kind_binary? {o : Opcode} {a b c : Const} (h : binary? o a b = some c) :
    o.resultKind? = some c.kind := by
  unfold binary? at h
  split at h
  · exact kind_ints? h
  · exact kind_floats? h
  · cases h
end Fold

/-- What an operation yields on constants, where that is known. Operands beyond
those that the operation reads are passed over. -/
def fold (o : Opcode) : List Const → Option Const
  | [] => none
  | [a] => Fold.unary? o a
  | a :: b :: _ => (Fold.unary? o a).orElse fun _ => Fold.binary? o a b

/-- What is computed is of the kind that the operation produces. -/
theorem kind_fold {o : Opcode} {cs : List Const} {c : Const} (h : fold o cs = some c) :
    o.resultKind? = some c.kind := by
  unfold fold at h
  split at h
  · cases h
  · exact Fold.kind_unary? h
  next a b _ =>
    cases hu : Fold.unary? o a with
    | some d =>
      rw [hu] at h
      cases h
      exact Fold.kind_unary? hu
    | none =>
      rw [hu] at h
      exact Fold.kind_binary? h

end TracePeel
