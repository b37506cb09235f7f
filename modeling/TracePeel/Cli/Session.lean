/-! What the program does with the world.

A session is the whole of a run as data: what it writes to the two outputs, which
files it reads and writes, when it looks at the clock, and the code it ends with.
Where it goes on depends on the answers it gets. -/
namespace TracePeel.Cli

inductive Session where
  | exit (code : Nat)
  | out (text : String) (next : Session)
  | err (text : String) (next : Session)
  /-- Reads a file, or standard input where the path is `-`. -/
  | read (path : String) (next : Except String String → Session)
  | write (path text : String) (next : Except String Unit → Session)
  /-- The time since some fixed moment, in nanoseconds. -/
  | clock (next : Nat → Session)

/-- What a run leaves behind. -/
structure Record where
  code : Nat
  out : String := ""
  err : String := ""

/-- A world a session can run in: how it answers, and what it is afterwards. -/
structure World (α : Type) where
  read : α → String → Except String String
  write : α → String → String → Except String α
  clock : α → Nat

namespace Session

/-- Runs a session in a world. -/
def play {α : Type} (w : World α) : Session → α → Record × α
  | exit code, a => ({ code }, a)
  | out text next, a =>
    let (r, a) := play w next a
    ({r with out := text ++ r.out}, a)
  | err text next, a =>
    let (r, a) := play w next a
    ({r with err := text ++ r.err}, a)
  | read path next, a => play w (next (w.read a path)) a
  | write path text next, a =>
    match w.write a path text with
    | .ok a => play w (next (.ok ())) a
    | .error e => play w (next (.error e)) a
  | clock next, a => play w (next (w.clock a)) a

end Session
end TracePeel.Cli
