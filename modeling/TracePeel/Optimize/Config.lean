/-! Settings of an optimization. -/
namespace TracePeel

/-- Which passes run, whether the result is verified, and the longest trace taken. -/
structure Config where
  peel : Bool := true
  rewrite : Bool := true
  virtualize : Bool := true
  verify : Bool := false
  maxOps : Nat := 100000
  deriving Repr, DecidableEq

end TracePeel
