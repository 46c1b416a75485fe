import Asm65.Number
import Asm65.Source.Tag

/-!
# Statements

A program text is a sequence of statements.  Operands stand as they were written: which mode they
lead to is decided when the program is built.
-/

namespace Asm65

/-- A literal or a label in an operand. -/
inductive Term
  | number (tag : Option Tag) (number : Number)
  | name (tag : Option Tag) (name : String)
deriving DecidableEq, Repr

/-- Which half of a two-byte value is meant. -/
inductive Modifier
  | none
  | highByte
  | lowByte
deriving DecidableEq, Repr

/-- The shapes an operand can be written in. -/
inductive OperandKind
  | none
  | immediate
  | address
  | absoluteX
  | absoluteY
  | indirect
  | indirectX
  | indirectY
deriving DecidableEq, Repr

/-- An operand.  Operands put together by hand may lack a term or have a modifier out of place. -/
structure Operand where
  kind : OperandKind
  modifier : Modifier
  term : Option Term
deriving DecidableEq, Repr

namespace Operand

/-- The operand of an instruction that is written without one. -/
def none : Operand :=
  ⟨.none, .none, Option.none⟩

/-- An operand without a modifier. -/
def plain (kind : OperandKind) (term : Term) : Operand :=
  ⟨kind, .none, some term⟩

end Operand

/-- The directives. -/
inductive Directive
  | org
  | pad
  | byte
  | word
  | vector
  | includeFile
deriving DecidableEq, Repr

namespace Directive

/-- All directives. -/
def all : List Directive :=
  [org, pad, byte, word, vector, includeFile]

/-- The name of a directive, without its full stop. -/
def name : Directive → String
  | org => "org"
  | pad => "pad"
  | byte => "byte"
  | word => "word"
  | vector => "vector"
  | includeFile => "include"

/-- The directive of a name. -/
def ofName? (name : String) : Option Directive :=
  all.find? fun d => d.name == name

end Directive

/-- A statement, with the place where it starts.  Statements put together by hand may have no
place. -/
inductive Statement
  | comment (tag : Option Tag)
  | label (tag : Option Tag) (name : String)
  | instruction (tag : Option Tag) (mnemonic : String) (operand : Operand)
  | org (tag : Option Tag) (address : Number)
  | pad (tag : Option Tag) (address : Number)
  | bytes (tag : Option Tag) (values : List Number)
  | words (tag : Option Tag) (values : List Number)
  | vector (tag : Option Tag) (label : String)
  | includeFile (tag : Option Tag) (path : String)
  /-- An item that is no statement; lists put together by hand may hold one. -/
  | unknown
deriving DecidableEq, Repr

end Asm65
