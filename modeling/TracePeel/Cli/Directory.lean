import TracePeel.Bindings
import TracePeel.Cli.Session

/-! A directory of files, as a world to run in.

Files are named by their paths from the directory; what stands in front of a
slash in such a path is a directory too. Over the directory there are others, up
to the root: they hold nothing that can be read, and what is written there goes
out of sight. The clock of the world stands still. -/
namespace TracePeel.Cli

structure Directory where
  /-- What standard input holds. -/
  input : String
  files : Bindings (List String) String

/-- Where a path leads. -/
inductive Place where
  /-- A directory over this one. -/
  | above
  /-- A name in a directory over this one. -/
  | unseen
  | inside (path : List String)
  deriving Repr, DecidableEq

namespace Directory

def notFound : String := "No such file or directory (os error 2)"
def notDirectory : String := "Not a directory (os error 20)"
def isADirectory : String := "Is a directory (os error 21)"
def nameTooLong : String := "File name too long (os error 36)"

/-- The most bytes that a path may have. -/
def pathLimit : Nat := 4095

/-- The most bytes that a step of a path may have. -/
def stepLimit : Nat := 255

/-- The steps of a path, from the outermost in. -/
def steps (path : String) : List String :=
  (path.splitOn "/").filter (· ≠ "")

/-- The text of a file. -/
def text? (d : Directory) : Place → Option String
  | .inside path => d.files.get? path
  | _ => none

def isDirectory (d : Directory) : Place → Bool
  | .above => true
  | .unseen => false
  | .inside path =>
    path.isEmpty || d.files.entries.any fun (file, _) => file ≠ path ∧ path.isPrefixOf file

/-- The place one step from a directory. Over the root there is the root. -/
def stepFrom (place : Place) (step : String) : Except String Place :=
  if step = "." then .ok place
  else if step = ".." then
    match place with
    | .inside (first :: rest) => .ok (.inside (first :: rest).dropLast)
    | _ => .ok .above
  else if stepLimit < step.utf8ByteSize then .error nameTooLong
  else
    match place with
    | .inside path => .ok (.inside (path ++ [step]))
    | _ => .ok .unseen

/-- Where some steps lead. Each is taken from a directory. -/
def walk (d : Directory) (place : Place) : List String → Except String Place
  | [] => .ok place
  | step :: rest =>
    if d.isDirectory place then do d.walk (← stepFrom place step) rest
    else .error (if (d.text? place).isSome then notDirectory else notFound)

/-- Where a path leads whose steps are given; a slash in front begins at the root. -/
def resolve (d : Directory) (path : String) (steps : List String) : Except String Place :=
  if path = "" then .error notFound
  else if pathLimit < path.utf8ByteSize then .error nameTooLong
  else d.walk (if path.startsWith "/" then .above else .inside []) steps

/-- A slash at the end asks for a directory, which cannot be read as a file. -/
def readFile (d : Directory) (path : String) : Except String String :=
  if path = "-" then .ok d.input
  else do
    let place ← d.resolve path (steps path)
    if d.isDirectory place then .error isADirectory
    else
      match d.text? place with
      | none => .error notFound
      | some text => if path.endsWith "/" then .error notDirectory else .ok text

/-- With a slash at the end, a directory is meant by the last step, whatever its name. -/
def writeFile (d : Directory) (path text : String) : Except String Directory := do
  let steps := if path.endsWith "/" then (steps path).dropLast ++ ["."] else steps path
  let place ← d.resolve path steps
  if d.isDirectory place then .error isADirectory
  else
    match place with
    | .inside file => .ok {d with files := d.files.set file text}
    | _ => .ok d

def world : World Directory where
  read := readFile
  write := writeFile
  clock _ := 0

/-- The path of a file. -/
def pathText (steps : List String) : String :=
  "/".intercalate steps

/-- The files of `after` that `before` does not hold, or not with this text. -/
def changes (before after : Directory) : List (String × String) :=
  (after.files.entries.filter fun (path, text) => before.files.get? path ≠ some text).map
    fun (path, text) => (pathText path, text)

end Directory
end TracePeel.Cli
