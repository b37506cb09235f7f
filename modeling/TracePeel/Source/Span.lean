/-! Places in a text.

A position counts bytes from zero and lines and columns from one; a column is a
character, and only a newline starts a line. -/
namespace TracePeel

/-- A place between two characters. Lines and columns have no end here: texts are meant with
fewer than 2^32 lines, none of them of 2^32 characters, so that counters of 32 bits hold them. -/
structure Position where
  byte : Nat := 0
  line : Nat := 1
  column : Nat := 1
  deriving Repr, DecidableEq

/-- The position behind a character. -/
def Position.after (p : Position) (c : Char) : Position :=
  if c = '\n' then ⟨p.byte + c.utf8Size, p.line + 1, 1⟩
  else ⟨p.byte + c.utf8Size, p.line, p.column + 1⟩

/-- The position behind some characters. -/
def Position.afterAll (p : Position) (cs : List Char) : Position :=
  cs.foldl Position.after p

structure Span where
  start : Position
  stop : Position
  deriving Repr, DecidableEq

/-- The lines and columns of the two ends. -/
def Span.text (s : Span) : String :=
  s!"{s.start.line}:{s.start.column}-{s.stop.line}:{s.stop.column}"

end TracePeel
