import Asm65.Decimal
import Asm65.Error
import Asm65.Source.Cursor
import Asm65.Text.Blank
import Asm65.Text.Digit
import Asm65.Text.Upper
import Asm65.Token.Basic

/-!
# From text to tokens

The text is read character by character.  At the first character of a lexeme the kind of the
token and the number of further characters of the lexeme are found by looking ahead; those
characters are then passed over.  Blanks, tabs and carriage returns stand between lexemes.
-/

namespace Asm65

namespace Token

/-- The characters that separate lexemes on a line. -/
def isSpace (c : Char) : Bool :=
  c == ' ' || c == '\t' || c == '\r'

/-- Whether a name can start with a character. -/
def isNameStart (c : Char) : Bool :=
  ('a' ≤ c && c ≤ 'z') || ('A' ≤ c && c ≤ 'Z') || c == '_'

/-- Whether a name can go on with a character. -/
def isNameChar (c : Char) : Bool :=
  isNameStart c || ('0' ≤ c && c ≤ '9')

/-- The kinds of tokens that are one character. -/
def punctuation? (c : Char) : Option TokenKind :=
  match c with
  | '#' => some .hash
  | '<' => some .less
  | '>' => some .greater
  | ',' => some .comma
  | ':' => some .colon
  | '(' => some .leftParen
  | ')' => some .rightParen
  | _ => none

/-- Why no lexeme could be read.  A misspelling is counted in characters from the first character
of the lexeme. -/
inductive Refusal
  | misspelt (problem : Problem) (distance : Nat)
  | unreadable (fault : Fault)
deriving DecidableEq, Repr

/-- A token kind with the number of characters of its lexeme after the first. -/
abbrev Found :=
  Except Refusal (TokenKind × Nat)

/-- The value of a run of digits.  There may not be too many decimal digits in front of any other
digit sign. -/
def decimalOf (run : List Char) : Except Fault Nat :=
  let digits := (run.takeWhile fun c => (Text.decimalValue? c).isSome)
  if digits.length > Decimal.digitLimit then .error (.longDecimal digits.length)
  else if digits.length < run.length then .error (.badDecimal (String.ofList run))
  else .ok (Text.positional 10 (run.map fun c => (Text.decimalValue? c).getD 0))

/-- A decimal literal that starts with `c`.  No name may follow it directly. -/
def scanDecimal (c : Char) (rest : List Char) : Found :=
  let run := rest.takeWhile Text.isDigit
  match (rest.drop run.length).head?.filter isNameStart with
  | some next => .error (.misspelt (.badDecimalDigit next) (run.length + 1))
  | none =>
      match decimalOf (c :: run) with
      | .ok value => .ok (.number (.ofValue value), run.length)
      | .error fault => .error (.unreadable fault)

/-- The digits after a `$` or a `%`. -/
def scanDigits (isDigit : Char → Bool) (base byteDigits : Nat) (rest : List Char) : Found :=
  let run := rest.takeWhile isDigit
  if run.isEmpty then .error (.misspelt .digitsExpected 1)
  else
    let value := Text.positional base (run.map Text.hexValue)
    .ok (.number (.ofDigits byteDigits run.length value), run.length)

/-- The name after a full stop. -/
def scanDirective (rest : List Char) : Found :=
  match rest.head?.filter isNameStart with
  | none => .error (.misspelt .directiveNameExpected 0)
  | some _ =>
      let run := rest.takeWhile isNameChar
      .ok (.directive (String.ofList (Text.lower run)), run.length)

/-- The text after an opening quote. -/
def scanString (rest : List Char) : Found :=
  let body := rest.takeWhile fun c => c != '"' && c != '\n'
  if (rest.drop body.length).head? == some '"' then
    .ok (.string (String.ofList body), body.length + 1)
  else .error (.misspelt .unterminatedString 0)

/-- The token that starts with `c`. -/
def scanLexeme (c : Char) (rest : List Char) : Found :=
  if c == '\n' then .ok (.newline, 0)
  else if c == ';' then
    let body := rest.takeWhile (· != '\n')
    .ok (.comment (String.ofList (Text.strip body)), body.length)
  else if isNameStart c then
    let run := rest.takeWhile isNameChar
    .ok (.identifier (String.ofList (c :: run)), run.length)
  else if c == '.' then scanDirective rest
  else if c == '$' then scanDigits Text.isHexDigit 16 2 rest
  else if c == '%' then scanDigits Text.isBinaryDigit 2 8 rest
  else if Text.isDigit c then scanDecimal c rest
  else if c == '"' then scanString rest
  else
    match punctuation? c with
    | some kind => .ok (kind, 0)
    | none => .error (.misspelt (.unexpectedCharacter c) 0)

/-- The tokens of a text, and what stopped the reading before its end, if anything did. -/
structure Scan where
  tokens : List Token
  error : Option Error
deriving DecidableEq, Repr

/-- The error that a refusal at a position stands for. -/
def Refusal.error (unit : Int) (position : Cursor) : Refusal → Error
  | .misspelt problem distance => .located problem ⟨unit, (position.offset + distance : Nat)⟩
  | .unreadable fault => .fault fault

/-- A token at a position. -/
def placed (unit : Int) (position : Cursor) (kind : TokenKind) : Token :=
  ⟨kind, unit, position.offset, position.line, position.column⟩

/-- Reads on from a position.  The first `owed` characters belong to the last token, and `found`
holds the tokens so far, newest first. -/
def scanFrom (unit : Int) (position : Cursor) (owed : Nat) (found : List Token) :
    List Char → Scan
  | [] => ⟨(placed unit position .eof :: found).reverse, none⟩
  | c :: rest =>
      match owed with
      | owed + 1 => scanFrom unit (position.advance c) owed found rest
      | 0 =>
          if isSpace c then scanFrom unit (position.advance c) 0 found rest
          else
            match scanLexeme c rest with
            | .ok (kind, more) =>
                scanFrom unit (position.advance c) more (placed unit position kind :: found) rest
            | .error refusal => ⟨found.reverse, some (refusal.error unit position)⟩

/-- The tokens of a text. -/
def scan (unit : Int) (text : List Char) : Scan :=
  scanFrom unit .start 0 [] text

end Token

end Asm65
