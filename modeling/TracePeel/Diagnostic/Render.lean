import TracePeel.Diagnostic

/-! Reports as they are shown.

A report is a few lines, each in its own colour if colours are wanted: what failed,
the code, the place, the line of the text with a mark under the place, what was
passed through, and the hints. A sum of reports shows its parts instead, one after
the other. -/
namespace TracePeel

/-- The text in a terminal colour, if colours are wanted. -/
def styled (colour : Bool) (code text : String) : String :=
  if colour then "\x1b[" ++ code ++ "m" ++ text ++ "\x1b[0m" else text

namespace Diagnostic

/-- Whether a text stands somewhere in another. -/
def occursIn (part text : List Char) : Bool :=
  match text with
  | [] => part.isEmpty
  | _ :: rest => part.isPrefixOf text || occursIn part rest

/-- The colours of the lines of a report. -/
structure Palette where
  header : String
  code : String
  place : String := "1;96"
  caret : String
  hint : String := "1;92"

/-- The colours go with the part of the program that failed. -/
def palette (module : String) : Palette :=
  let names (part : String) := occursIn part.toList module.toList
  if names "ParseError" || names "LexError" then
    { header := "1;95", code := "1;35", caret := "1;95" }
  else if names "OptError" then { header := "1;96", code := "1;36", caret := "1;96" }
  else if names "VerifyError" then { header := "1;93", code := "1;33", caret := "1;93" }
  else if names "ICE" then { header := "1;97;41", code := "1;97;41", caret := "1;97;41" }
  else { header := "1;91", code := "1;93", caret := "1;91" }

/-- The colour of the code, unless it goes with the part of the program. -/
def codeColour (p : Palette) : Code → String
  | .ice9001 => "1;97;41"
  | .e0001 | .e0002 => "1;35"
  | .e1001 | .e1002 | .e1003 => "1;33"
  | .e2001 => "1;31"
  | .e3001 => p.code

/-- A line whose characters were collected backwards, without its carriage return. -/
def endedLine : List Char → List Char
  | '\r' :: line => line.reverse
  | line => line.reverse

/-- The lines of a text, without their ends; what stands behind the last newline is
a line if there is anything. -/
def linesFrom : List Char → List Char → List (List Char)
  | [], [] => []
  | line, [] => [line.reverse]
  | line, c :: rest =>
    if c = '\n' then endedLine line :: linesFrom [] rest else linesFrom (c :: line) rest

def linesOf (text : String) : List (List Char) :=
  linesFrom [] text.toList

def padLeft (width : Nat) (text : String) : String :=
  String.ofList (List.replicate (width - text.length) ' ' ++ text.toList)

/-- The line of the text where a span begins, and a mark under its beginning. -/
def snippet (colour : Bool) (p : Palette) (source : String) (span : Span) : List String :=
  match span.start.line with
  | 0 => []
  | n + 1 =>
    match (linesOf source)[n]? with
    | none => []
    | some line =>
      [styled colour "2" (padLeft 4 (toString (n + 1)) ++ " | " ++ String.ofList line),
        styled colour p.caret
          (String.ofList (List.replicate (span.start.column + 6) ' ' ++ ['^']))]

/-- A file and, where there is a span, the place of its beginning. -/
def placeIn (file : String) : Option Span → String
  | none => file
  | some s => s!"{file}:{s.start.line}:{s.start.column}"

/-- One of the things a failure passed through. -/
def frameLine (colour : Bool) (file : String) : String × Option Span → String
  | (name, none) => styled colour "2" s!"      (tj) {name}"
  | (name, some s) => styled colour "2" s!"      (tj) {name} at {placeIn file (some s)}"

/-- The lines that every report begins with. -/
def headLines (colour : Bool) (file : String) (d : Diagnostic) : List String :=
  let p := palette d.module
  [styled colour p.header s!"** ({d.module}) {d.message}",
    styled colour (codeColour p d.code) s!"    error[{d.code.text}]: {d.message}",
    styled colour p.place s!"    at {placeIn file d.span} ({d.phase.text})"]

/-- The lines behind them, where the report is not a sum. -/
def detailLines (colour : Bool) (source : Option String) (file : String) (d : Diagnostic) :
    List String :=
  let p := palette d.module
  let shown := match source, d.span with
    | some source, some span => snippet colour p source span
    | _, _ => []
  let frames :=
    if d.frames.isEmpty then []
    else styled colour "1;95" "    stacktrace:" :: d.frames.reverse.map (frameLine colour file)
  shown ++ frames ++ d.notes.map fun note => styled colour p.hint s!"hint: {note}"

mutual

/-- The lines of a report on a file. -/
def lines (colour : Bool) (source : Option String) (file : String) :
    Diagnostic → List String
  | ⟨module, code, phase, message, span, frames, notes, related⟩ =>
    let d : Diagnostic := ⟨module, code, phase, message, span, frames, notes, related⟩
    match related with
    | [] => headLines colour file d ++ detailLines colour source file d
    | first :: rest =>
      headLines colour file d ++
        styled colour "1;93" s!"    found {(first :: rest).length} error(s)" ::
          relatedLines colour source file 1 (first :: rest)

/-- The lines of the parts of a sum, numbered. -/
def relatedLines (colour : Bool) (source : Option String) (file : String) :
    Nat → List Diagnostic → List String
  | _, [] => []
  | n, d :: rest =>
    styled colour "1;93" s!"    [{n}] ------------------------------" ::
      (lines colour source file d ++ relatedLines colour source file (n + 1) rest)

end

/-- A report as it is shown. -/
def render (colour : Bool) (source file : Option String) (d : Diagnostic) : String :=
  String.join ((lines colour source (file.getD "TJ") d).map (· ++ "\n"))

end Diagnostic
end TracePeel
