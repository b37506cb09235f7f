import TracePeel.Diagnostic.Render

/-! Progress on the way, on the error output.

It is shown on a terminal or if it is asked for. Every line has its own colours. -/
namespace TracePeel.Cli

/-- How progress and errors are shown. -/
structure Console where
  colour : Bool
  detailed : Bool

namespace Console

def dim (c : Console) : String → String := styled c.colour "2"
def red (c : Console) : String → String := styled c.colour "1;91"
def green (c : Console) : String → String := styled c.colour "1;92"
def yellow (c : Console) : String → String := styled c.colour "1;93"
def magenta (c : Console) : String → String := styled c.colour "1;95"
def cyan (c : Console) : String → String := styled c.colour "1;96"
def white (c : Console) : String → String := styled c.colour "1;97"

def padRight (width : Nat) (text : String) : String :=
  String.ofList (text.toList ++ List.replicate (width - text.length) ' ')

/-- Milliseconds below a second, seconds with two places from there on. -/
def durationText (nanoseconds : Nat) : String :=
  let milliseconds := nanoseconds / 1000000
  if milliseconds < 1000 then s!"{milliseconds}ms"
  else
    let hundredths := (nanoseconds + 5000000) / 10000000
    let places := hundredths % 100
    s!"{hundredths / 100}.{places / 10}{places % 10}s"

def detail (c : Console) (text : String) : String :=
  if c.detailed then text else ""

def banner (c : Console) (input : String) : String :=
  c.detail
    (c.yellow "[+]" ++ " " ++ c.red "TJ trace optimizer" ++ "\n " ++ c.dim "└─" ++ " " ++
      c.white s!"Input: {input}" ++ "\n")

def step (c : Console) (index total : Nat) (title detail : String) : String :=
  c.detail
    (c.cyan "=>" ++ " " ++ c.magenta s!"[{index}/{total}]" ++ " " ++ c.red (padRight 16 title) ++
      " " ++ c.yellow detail ++ "\n")

def stepDone (c : Console) (text : String) : String :=
  c.detail ("   " ++ c.green "✓" ++ " " ++ c.white text ++ "\n")

def success (c : Console) (nanoseconds : Nat) : String :=
  c.detail
    (c.green "✔" ++ " " ++ c.green s!"Optimized in {durationText nanoseconds}" ++ "\n")

def error (c : Console) (text : String) : String :=
  c.red "x" ++ " " ++ c.red text ++ "\n"

end Console
end TracePeel.Cli
