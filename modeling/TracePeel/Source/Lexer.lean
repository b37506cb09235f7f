import TracePeel.Source.Number
import TracePeel.Text.Blank
import TracePeel.Text.Letter

/-! From text to tokens.

Between tokens stand blanks and comments, which run from `#` to the end of the
line. `scan` reads the token at the head of the text together with its characters
and knows nothing of positions; `tokens` lays the tokens side by side and derives
every position from the characters passed over. The last token, and no other, is
the end of the text. -/
namespace TracePeel.Lexer

/-- The blanks and comments at the head of the text; in a comment, all up to the
newline. -/
def gap : Bool → List Char → List Char
  | _, [] => []
  | true, c :: rest => c :: gap (c != '\n') rest
  | false, c :: rest =>
    if Text.isBlank c then c :: gap false rest
    else if c = '#' then c :: gap true rest
    else []

def startsName (c : Char) : Bool :=
  Text.isAlphabetic c || c == '_'

def continuesName (c : Char) : Bool :=
  Text.isAlphanumeric c || c == '_'

def nameToken (text : String) : Token :=
  if text = "loop" then .loop else .name text

/-- The token that a single character is. -/
def charToken : Char → Token
  | '=' => .assign
  | '@' => .atSign
  | '<' => .lt
  | '>' => .gt
  | '(' => .lparen
  | ')' => .rparen
  | '[' => .lbracket
  | ']' => .rbracket
  | ',' => .comma
  | c => .invalid (.unexpected c)

def startsWithDigit : List Char → Bool
  | c :: _ => c.isDigit
  | [] => false

/-- The token that begins with `c` and its characters. -/
def scan (c : Char) (rest : List Char) : Token × List Char :=
  if startsName c then
    let name := (c :: rest).takeWhile continuesName
    (nameToken (String.ofList name), name)
  else if c.isDigit || (c == '-' && startsWithDigit rest) then Number.scan (c :: rest)
  else (charToken c, [c])

/-- The tokens of a text from a position on. Every token but the last takes at
least one character, so the length of the text bounds their number. -/
def tokensFrom : Nat → Position → List Char → List Lexed
  | fuel, p, cs =>
    let skipped := gap false cs
    let start := p.afterAll skipped
    match fuel, cs.drop skipped.length with
    | fuel + 1, c :: rest =>
      let (token, lexeme) := scan c rest
      let stop := start.afterAll lexeme
      ⟨token, start, stop⟩ :: tokensFrom fuel stop ((c :: rest).drop lexeme.length)
    | _, _ => [⟨.eof, start, start⟩]

def tokens (source : String) : List Lexed :=
  let cs := source.toList
  tokensFrom cs.length {} cs

end TracePeel.Lexer
