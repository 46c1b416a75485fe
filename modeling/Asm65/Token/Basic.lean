import Asm65.Number
import Asm65.Source.Tag
import Asm65.Text.Hex
import Asm65.Text.Quoted

/-!
# Tokens
-/

namespace Asm65

/-- What a token is, with the text or the number it carries. -/
inductive TokenKind
  | newline
  | eof
  | comment (text : String)
  | identifier (name : String)
  | directive (name : String)
  | number (number : Number)
  | string (text : String)
  | hash
  | less
  | greater
  | comma
  | colon
  | leftParen
  | rightParen
deriving DecidableEq, Repr

namespace TokenKind

/-- The name of a kind. -/
def name : TokenKind → String
  | newline => "NEWLINE"
  | eof => "EOF"
  | comment _ => "COMMENT"
  | identifier _ => "IDENTIFIER"
  | directive _ => "DIRECTIVE"
  | number _ => "NUMBER"
  | string _ => "STRING"
  | hash => "HASH"
  | less => "LT"
  | greater => "GT"
  | comma => "COMMA"
  | colon => "COLON"
  | leftParen => "LPAREN"
  | rightParen => "RPAREN"

/-- The text a token carries. -/
def text? : TokenKind → Option String
  | comment text | identifier text | directive text | string text => some text
  | _ => none

/-- The number a token carries. -/
def number? : TokenKind → Option Number
  | number n => some n
  | _ => none

/-- The name that an identifier is. -/
def word? : TokenKind → Option String
  | identifier name => some name
  | _ => none

/-- The text in quotes. -/
def quoted? : TokenKind → Option String
  | string text => some text
  | _ => none

/-- Whether tokens of this kind end the operand field. -/
def endsField : TokenKind → Bool
  | newline | comment _ | eof => true
  | _ => false

end TokenKind

/-- A token with the place of its first character. -/
structure Token where
  kind : TokenKind
  unit : Int
  offset : Nat
  line : Nat
  column : Nat
deriving DecidableEq, Repr

namespace Token

/-- The place of a token. -/
def tag (t : Token) : Tag :=
  ⟨t.unit, t.offset⟩

/-- A one-line description of a token. -/
def text (t : Token) : String :=
  let value :=
    match t.kind.number?, t.kind.text? with
    | some n, _ => "$" ++ Text.signedHex 0 n.value ++ ", "
    | none, some text => Text.quoted text ++ ", "
    | none, none => ""
  "Token(" ++ t.kind.name ++ ", " ++ value ++ toString t.line ++ ":" ++ toString t.column ++ ")"

end Token

end Asm65
