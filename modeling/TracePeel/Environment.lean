import TracePeel.Optimize.Config
import TracePeel.Text.Blank

/-! Settings from the environment.

A switch that is set is on for four words and off for every other; one that is not
set keeps its default, and so does a number that cannot be read. Blanks around the
text do not count, and of a word neither does the case. -/
namespace TracePeel

/-- The variables that are set and their texts. -/
abbrev Environment := List (String × String)

/-- The number that a text of decimal digits denotes, if it fits 64 bits; a plus may
stand in front. -/
def readSize? (text : String) : Option Nat :=
  let digits := match text.toList with
    | '+' :: rest => rest
    | cs => cs
  let value := digits.foldl (fun n c => n * 10 + (c.toNat - '0'.toNat)) 0
  if !digits.isEmpty && digits.all Char.isDigit && value < UInt64.size then some value else none

namespace Environment

def isSet (e : Environment) (key : String) : Bool :=
  (e.lookup key).isSome

/-- Whether a text switches something on. -/
def isOn (text : String) : Bool :=
  ["1", "true", "yes", "on"].contains ((Text.trimBlanks text).map Char.toLower)

def switch (e : Environment) (key : String) (default : Bool) : Bool :=
  match e.lookup key with
  | some text => isOn text
  | none => default

def size (e : Environment) (key : String) (default : Nat) : Nat :=
  ((e.lookup key).bind fun text => readSize? (Text.trimBlanks text)).getD default

end Environment

/-- The settings of an environment. -/
def Config.ofEnvironment (e : Environment) : Config where
  peel := e.switch "TJ_UNROLL" true
  rewrite := !e.switch "TJ_DISABLE_REWRITE" false
  virtualize := !e.switch "TJ_DISABLE_VIRTUALS" false
  verify := e.switch "TJ_VERIFY_EACH_PHASE" false
  maxOps := e.size "TJ_MAX_TRACE_OPS" 100000

/-- Whether reports are coloured: on a terminal or if it is forced, unless colours
are switched off. -/
def Environment.colour (e : Environment) (terminal : Bool) : Bool :=
  (terminal || e.isSet "TJ_FORCE_COLOR") && !e.isSet "NO_COLOR"

end TracePeel
