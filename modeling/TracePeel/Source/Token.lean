import TracePeel.Decimal.Layout
import TracePeel.Source.Span
import TracePeel.Text.Quoted

/-! Tokens of the trace text.

A piece of text that is no token is kept as one, with the reason, so reading the
text never fails; whoever meets the token reports it. -/
namespace TracePeel

/-- Why a piece of text is no token. -/
inductive LexError where
  | badHex (digits : String)
  | badFloat (text : String)
  | outOfRange (text : String)
  | unexpected (c : Char)
  deriving Repr, DecidableEq

def LexError.message : LexError → String
  | badHex digits => s!"bad hex literal '0x{digits}'"
  | badFloat text => s!"bad float literal '{text}'"
  | outOfRange text => s!"integer literal '{text}' out of range"
  | unexpected c => s!"unexpected character '{c}'"

inductive Token where
  | loop
  | name (text : String)
  | int (value : Int64)
  | float (bits : UInt64)
  | assign
  | atSign
  | lt
  | gt
  | lparen
  | rparen
  | lbracket
  | rbracket
  | comma
  | invalid (reason : LexError)
  | eof
  deriving Repr, DecidableEq

namespace Token

/-- The name of the sort of token. -/
def sort : Token → String
  | loop => "Loop"
  | name _ => "Ident"
  | int _ => "Int"
  | float _ => "Float"
  | assign => "Assign"
  | atSign => "At"
  | lt => "Lt"
  | gt => "Gt"
  | lparen => "LParen"
  | rparen => "RParen"
  | lbracket => "LBracket"
  | rbracket => "RBracket"
  | comma => "Comma"
  | invalid _ => "Invalid"
  | eof => "EOF"

/-- What the token carries, as messages show it. -/
def payload? : Token → Option String
  | name text => some (Text.quoted text)
  | int value => some (toString value.toInt)
  | float bits => some (Decimal.constantLayout.write bits)
  | invalid reason => some (Text.quoted reason.message)
  | _ => none

/-- The token as messages show it. -/
def text (t : Token) : String :=
  match t.payload? with
  | none => t.sort
  | some payload => t.sort ++ "(" ++ payload ++ ")"

end Token

/-- A token and where it stands. -/
structure Lexed where
  token : Token
  span : Span
  deriving Repr, DecidableEq

end TracePeel
