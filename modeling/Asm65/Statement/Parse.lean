import Asm65.Error
import Asm65.Isa.Op
import Asm65.Statement.Basic
import Asm65.Token.Scan

/-!
# From tokens to statements

One cursor runs over the tokens of a text.  A production takes the tokens from the cursor on and
returns what it read together with the tokens it leaves; an error stands at the first token that
does not fit.  The last token marks the end of the text: no production passes it, and one that looks
further ahead sees it again.

A line has an optional label, then an instruction or a directive, then an optional comment, and it
ends with a newline or with the text.
-/

namespace Asm65

namespace Reader

/-- What a production reads, and the tokens it leaves. -/
abbrev Read (α : Type) :=
  α × List Token

/-- The token under the cursor. -/
def current (last : Token) (tokens : List Token) : Token :=
  tokens.headD last

/-- A problem at the next token. -/
def problemAt {α : Type} (problem : Problem) (last : Token) (tokens : List Token) :
    Except Error α :=
  .error (.located problem (current last tokens).tag)

/-- Whether nothing more belongs to the operand. -/
def atEndOfField (last : Token) (tokens : List Token) : Bool :=
  (current last tokens).kind.endsField

/-- The next token, as what `pick` takes it for. -/
def expect {α : Type} (pick : Token → Option α) (problem : Problem) (last : Token)
    (tokens : List Token) : Except Error (Read α) :=
  match pick (current last tokens) with
  | some value => .ok (value, tokens.tail)
  | none => problemAt problem last tokens

/-- The rest after a comma, if one comes next. -/
def afterComma? (last : Token) (tokens : List Token) : Option (List Token) :=
  match (current last tokens).kind with
  | .comma => some tokens.tail
  | _ => none

/-- The term that a token is. -/
def term? (t : Token) : Option Term :=
  match t.kind with
  | .number n => some (.number t.tag n)
  | .identifier name => some (.name t.tag name)
  | _ => none

/-- A literal or a label. -/
def readTerm : Token → List Token → Except Error (Read Term) :=
  expect term? .termExpected

/-- An optional sign that picks one half of a value. -/
def readModifier (last : Token) (tokens : List Token) : Read Modifier :=
  match (current last tokens).kind with
  | .less => (.lowByte, tokens.tail)
  | .greater => (.highByte, tokens.tail)
  | _ => (.none, tokens)

/-- Whether a token closes a parenthesis. -/
def closing? (t : Token) : Option Unit :=
  match t.kind with
  | .rightParen => some ()
  | _ => none

/-- A closing parenthesis. -/
def readClosing : Token → List Token → Except Error (Read Unit) :=
  expect closing? .closingParenthesisExpected

/-- The register a name stands for, in either case. -/
def register? (name : String) : Option Register :=
  let letter := Text.upper name
  if letter == Register.x.letter then some .x
  else if letter == Register.y.letter then some .y
  else none

/-- The index register that a token is. -/
def index? (t : Token) : Option Register :=
  t.kind.word?.bind register?

/-- A given register. -/
def readRegister (register : Register) : Token → List Token → Except Error (Read Register) :=
  expect (fun t => (index? t).filter (· == register)) (.registerExpected register)

/-- Either index register. -/
def readIndex : Token → List Token → Except Error (Read Register) :=
  expect index? .indexRegisterExpected

/-- An operand after its opening parenthesis. -/
def readIndirect (last : Token) (tokens : List Token) : Except Error (Read Operand) := do
  let (term, rest) ← readTerm last tokens
  match afterComma? last rest with
  | some rest =>
      let (_, rest) ← readRegister .x last rest
      let (_, rest) ← readClosing last rest
      return (.plain .indirectX term, rest)
  | none =>
      let (_, rest) ← readClosing last rest
      match afterComma? last rest with
      | some rest =>
          let (_, rest) ← readRegister .y last rest
          return (.plain .indirectY term, rest)
      | none => return (.plain .indirect term, rest)

/-- An operand after its number sign. -/
def readImmediate (last : Token) (tokens : List Token) : Except Error (Read Operand) := do
  let (modifier, rest) := readModifier last tokens
  let (term, rest) ← readTerm last rest
  return (⟨.immediate, modifier, some term⟩, rest)

/-- The place of a term. -/
def termTag : Term → Option Tag
  | .number tag _ => tag
  | .name tag _ => tag

/-- An address, indexed or not. -/
def readAddress (last : Token) (tokens : List Token) : Except Error (Read Operand) := do
  let (modifier, rest) := readModifier last tokens
  let (term, rest) ← readTerm last rest
  match afterComma? last rest with
  | none => return (⟨.address, modifier, some term⟩, rest)
  | some rest =>
      if modifier = .none then
        let (register, rest) ← readIndex last rest
        match register with
        | .x => return (.plain .absoluteX term, rest)
        | .y => return (.plain .absoluteY term, rest)
      else throw (.problem .modifierOnIndexed (termTag term))

/-- The rest after an accumulator operand: an `A` at the end of the field. -/
def afterAccumulator? (last : Token) (tokens : List Token) : Option (List Token) :=
  match (current last tokens).kind with
  | .identifier name =>
      if Text.upper name == "A" && atEndOfField last tokens.tail then some tokens.tail else none
  | _ => none

/-- The operand of an instruction; `accumulator` tells whether an `A` can stand for the
accumulator. -/
def readOperand (accumulator : Bool) (last : Token) (tokens : List Token) :
    Except Error (Read Operand) :=
  if atEndOfField last tokens then .ok (.none, tokens)
  else
    match (if accumulator then afterAccumulator? last tokens else none) with
    | some rest => .ok (.none, rest)
    | none =>
        match (current last tokens).kind with
        | .hash => readImmediate last tokens.tail
        | .leftParen => readIndirect last tokens.tail
        | _ => readAddress last tokens

/-- A number. -/
def readNumber : Token → List Token → Except Error (Read Number) :=
  expect (fun t => t.kind.number?) .numberExpected

/-- The numbers after a first one, each behind a comma.  `read` holds the numbers so far, newest
first. -/
def readMoreNumbers (last : Token) (read : List Number) :
    List Token → Except Error (Read (List Number))
  | [] => .ok (read.reverse, [])
  | [t] =>
      match t.kind with
      | .comma => problemAt .numberExpected last []
      | _ => .ok (read.reverse, [t])
  | t :: u :: rest =>
      match t.kind with
      | .comma =>
          match u.kind.number? with
          | some n => readMoreNumbers last (n :: read) rest
          | none => problemAt .numberExpected last (u :: rest)
      | _ => .ok (read.reverse, t :: u :: rest)

/-- One or more numbers with commas between them. -/
def readNumbers (last : Token) (tokens : List Token) : Except Error (Read (List Number)) := do
  let (first, rest) ← readNumber last tokens
  readMoreNumbers last [first] rest

/-- The name of a label. -/
def readLabelName : Token → List Token → Except Error (Read String) :=
  expect (fun t => t.kind.word?) .labelNameExpected

/-- The quoted name of a file. -/
def readFileName : Token → List Token → Except Error (Read String) :=
  expect (fun t => t.kind.quoted?) .fileNameExpected

/-- A directive, from its argument on. -/
def readArgument (tag : Tag) (directive : Directive) (last : Token) (tokens : List Token) :
    Except Error (Read Statement) :=
  match directive with
  | .org => do
      let (address, rest) ← readNumber last tokens
      return (.org tag address, rest)
  | .pad => do
      let (address, rest) ← readNumber last tokens
      return (.pad tag address, rest)
  | .byte => do
      let (values, rest) ← readNumbers last tokens
      return (.bytes tag values, rest)
  | .word => do
      let (values, rest) ← readNumbers last tokens
      return (.words tag values, rest)
  | .vector => do
      let (label, rest) ← readLabelName last tokens
      return (.vector tag label, rest)
  | .includeFile => do
      let (path, rest) ← readFileName last tokens
      return (.includeFile tag path, rest)

/-- The directive of a given name, from its argument on. -/
def readDirective (tag : Tag) (name : String) (last : Token) (tokens : List Token) :
    Except Error (Read Statement) :=
  match Directive.ofName? name with
  | some directive => readArgument tag directive last tokens
  | none => .error (.located (.unknownDirective name) tag)

/-- Whether a mnemonic takes the accumulator as an operand. -/
def takesAccumulator (mnemonic : String) : Bool :=
  match Op.ofMnemonic? mnemonic with
  | some op => op.hasAccumulatorForm
  | none => false

/-- An instruction or a directive, if one comes next. -/
def readBody (last : Token) (tokens : List Token) : Except Error (Read (Option Statement)) := do
  let t := current last tokens
  match t.kind with
  | .identifier mnemonic =>
      let (operand, rest) ← readOperand (takesAccumulator mnemonic) last tokens.tail
      return (some (.instruction t.tag mnemonic operand), rest)
  | .directive name =>
      let (statement, rest) ← readDirective t.tag name last tokens.tail
      return (some statement, rest)
  | _ => return (none, tokens)

/-- A label at the start of a line, if there is one. -/
def readLabel (last : Token) (tokens : List Token) : Read (Option Statement) :=
  let t := current last tokens
  match t.kind, (current last tokens.tail).kind with
  | .identifier name, .colon => (some (.label t.tag name), tokens.tail.tail)
  | _, _ => (none, tokens)

/-- The comment at the end of a line; it is a statement only where it stands alone. -/
def readComment (alone : Bool) (last : Token) (tokens : List Token) : Read (Option Statement) :=
  let t := current last tokens
  match t.kind with
  | .comment _ => (if alone then some (.comment t.tag) else none, tokens.tail)
  | _ => (none, tokens)

/-- The end of a line: a newline, or the end of the text, which stays. -/
def readEndOfLine (last : Token) (tokens : List Token) : Except Error (List Token) :=
  match (current last tokens).kind with
  | .newline => .ok tokens.tail
  | .eof => .ok tokens
  | _ => problemAt .endOfLineExpected last tokens

/-- What follows the statements `read` in their line. -/
def readLineFrom (read : List Statement) (last : Token) (tokens : List Token) :
    Except Error (Read (List Statement)) := do
  let (comment, rest) := readComment read.isEmpty last tokens
  let rest ← readEndOfLine last rest
  return (read ++ comment.toList, rest)

/-- The statements of a line. -/
def readLine (last : Token) (tokens : List Token) : Except Error (Read (List Statement)) := do
  let (label, rest) := readLabel last tokens
  let (body, rest) ← readBody last rest
  readLineFrom (label.toList ++ body.toList) last rest

/-- The statements of all lines; `read` holds those of the lines so far, newest first.  Each round
takes a token, so that as many rounds as there are tokens are enough. -/
def readLines (last : Token) (read : List Statement) :
    Nat → List Token → Except Error (List Statement)
  | 0, _ => .ok read.reverse
  | rounds + 1, tokens =>
      match (current last tokens).kind with
      | .eof => .ok read.reverse
      | .newline => readLines last read rounds tokens.tail
      | _ =>
          match readLine last tokens with
          | .ok (more, rest) => readLines last (more.reverse ++ read) rounds rest
          | .error e => .error e

end Reader

namespace Statement

/-- The statements of the tokens of a text. -/
def ofTokens (tokens : List Token) : Except Error (List Statement) :=
  match tokens.getLast? with
  | some last => Reader.readLines last [] tokens.length tokens
  | none => .ok []

/-- The statements of a text. -/
def parse (unit : Int) (text : List Char) : Except Error (List Statement) :=
  let scan := Token.scan unit text
  match scan.error with
  | some e => .error e
  | none => ofTokens scan.tokens

end Statement

end Asm65
