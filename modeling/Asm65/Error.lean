import Asm65.Isa.Mode
import Asm65.Isa.Op
import Asm65.Source.Tag
import Asm65.Text.Quoted
import Asm65.Text.Utf8

/-!
# What can go wrong

A *problem* is a mistake in the program being assembled.  It has a message for the programmer and
usually a place.  A *fault* is anything else that stops the work: an unreadable file, a value
outside the range of its field, a program that was put together by hand and breaks the rules.
-/

namespace Asm65

/-- The families that problems fall into. -/
inductive Family
  | general
  | malformed
  | opcode
  | addressing
  | literal
  | directive
  | symbol
  | branch
  | capacity
  | inclusion
deriving DecidableEq, Repr

/-- An index register. -/
inductive Register
  | x
  | y
deriving DecidableEq, Repr

/-- The letter of a register. -/
def Register.letter : Register → String
  | .x => "X"
  | .y => "Y"

/-- Why a file cannot be included. -/
inductive InclusionFault
  | notFound
  | circular
  | stated (text : String)
deriving DecidableEq, Repr

/-- The wording of an inclusion fault. -/
def InclusionFault.text : InclusionFault → String
  | .notFound => "file not found"
  | .circular => "circular include detected"
  | .stated text => text

/-- A mistake in a program. -/
inductive Problem
  /-- A problem that brings its own wording. -/
  | stated (family : Family) (text : String)
  | directiveNameExpected
  | digitsExpected
  | badDecimalDigit (c : Char)
  | unterminatedString
  | unexpectedCharacter (c : Char)
  | endOfLineExpected
  | termExpected
  | indexRegisterExpected
  | modifierOnIndexed
  | registerExpected (register : Register)
  | closingParenthesisExpected
  | unknownDirective (name : String)
  | labelNameExpected
  | fileNameExpected
  | numberExpected
  | unknownOpcode (mnemonic : String)
  | parameterRequired (mnemonic : String)
  | operandWidth (mnemonic : String) (width : Int) (mode : Mode)
  | halfOfByte
  | literalRange
  | orgAddress
  | padAddress
  | byteConstants
  | wordConstants
  | unknownLabel (name : String)
  | branchRange (target : String) (offset : Int)
  | capacity
  | inclusion (path : String) (fault : InclusionFault) (searchPaths : List String)
deriving DecidableEq, Repr

namespace Problem

/-- The family of a problem. -/
def family : Problem → Family
  | stated family _ => family
  | directiveNameExpected | digitsExpected | badDecimalDigit _ | unterminatedString
  | unexpectedCharacter _ | endOfLineExpected | termExpected | indexRegisterExpected
  | modifierOnIndexed | registerExpected _ | closingParenthesisExpected | unknownDirective _
  | labelNameExpected | fileNameExpected | numberExpected => .malformed
  | unknownOpcode _ => .opcode
  | parameterRequired _ | operandWidth _ _ _ => .addressing
  | halfOfByte | literalRange => .literal
  | orgAddress | padAddress | byteConstants | wordConstants => .directive
  | unknownLabel _ => .symbol
  | branchRange _ _ => .branch
  | capacity => .capacity
  | inclusion _ _ _ => .inclusion

/-- The wording of a problem. -/
def message : Problem → String
  | stated _ text => text
  | directiveNameExpected => "expected directive name after '.'"
  | digitsExpected => "expected digits after number prefix"
  | badDecimalDigit c => "invalid digit '" ++ String.singleton c ++ "' in decimal number"
  | unterminatedString => "unterminated string"
  | unexpectedCharacter c => "unexpected character '" ++ String.singleton c ++ "'"
  | endOfLineExpected => "expected end of line"
  | termExpected => "expected number or label"
  | indexRegisterExpected => "expected index register X or Y"
  | modifierOnIndexed => "byte modifiers can't be used with indexed addressing"
  | registerExpected register => "expected register " ++ register.letter
  | closingParenthesisExpected => "expected ')'"
  | unknownDirective name => "unknown directive '." ++ name ++ "'"
  | labelNameExpected => "expected label name"
  | fileNameExpected => "expected quoted file name"
  | numberExpected => "expected number"
  | unknownOpcode mnemonic => "unknown opcode: " ++ mnemonic
  | parameterRequired mnemonic => "op " ++ mnemonic ++ " requires a parameter"
  | operandWidth mnemonic width mode =>
      "op " ++ mnemonic ++ " can't take a " ++ toString width ++ "-byte operand in " ++
        mode.text ++ " mode"
  | halfOfByte => "can't take high/low byte of a single byte"
  | literalRange => "number not within 8-bit or 16-bit bounds"
  | orgAddress => "org must be a 16-bit address"
  | padAddress => "pad requires a 16-bit address"
  | byteConstants => "byte constants must be in range"
  | wordConstants => "word constants must be in range"
  | unknownLabel name => "unknown label: \"" ++ name ++ "\""
  | branchRange _ _ =>
      "modifying code to fix branch offsets outside of range -128 to +127 is not currently " ++
        "supported"
  | capacity => "assembly won't fit in 65535 bytes"
  | inclusion path fault _ => "cannot include '" ++ path ++ "': " ++ fault.text

end Problem

/-- The kinds of faults. -/
inductive FaultKind
  | badValue
  | overflow
  | wrongType
  | outOfRange
  | missingPart
  | memory
  | assertion
  | decoding
  | fileNotFound
  | isDirectory
  | notDirectory
  | permission
  | fileExists
  | badArgument
  | system
  | runtime
deriving DecidableEq, Repr

/-- Anything but a mistake in the program that stops the work. -/
inductive Fault
  /-- A fault that brings its own wording. -/
  | stated (kind : FaultKind) (text : String)
  /-- A decimal literal with a digit sign that has no positional value. -/
  | badDecimal (literal : String)
  /-- A decimal literal with more digits than are read. -/
  | longDecimal (digits : Nat)
  /-- A number with more digits than are written. -/
  | longNumber
  | byteRange
  | negativeWidth
  | emptyName
  | valueTooWide
  | outOfMemory
  | notStatement
  | notParameter
  | notChunk
  | termMissing
  | positionMissing
  | unknownUnit
  | unknownBlock
  | tagMissing
  | unresolvedParameter (tag : Option Tag)
  | parameterWidth (op : Op) (mode : Mode) (width length : Int)
  | imageTooLarge (size : Nat)
  | undecodable (refusal : Text.Utf8.Refusal)
  | fileNotFound (path : String)
  | isDirectory (path : String)
  | notDirectory (path : String)
  | fileExists (path : String)
  | nameTooLong (path : String)
  | nullInPath
deriving DecidableEq, Repr

namespace Fault

/-- The kind of a fault. -/
def kind : Fault → FaultKind
  | stated kind _ => kind
  | badDecimal _ | longDecimal _ | longNumber | byteRange | negativeWidth | emptyName | nullInPath =>
      .badValue
  | valueTooWide => .overflow
  | outOfMemory => .memory
  | notStatement | notParameter | notChunk | termMissing | positionMissing => .wrongType
  | unknownUnit | unknownBlock => .outOfRange
  | tagMissing => .missingPart
  | unresolvedParameter _ | parameterWidth _ _ _ _ | imageTooLarge _ => .assertion
  | undecodable _ => .decoding
  | fileNotFound _ => .fileNotFound
  | isDirectory _ => .isDirectory
  | notDirectory _ => .notDirectory
  | fileExists _ => .fileExists
  | nameTooLong _ => .system

/-- How much of a refused literal is shown. -/
def shownLiteral : Nat := 200

/-- The wording of a fault. -/
def message : Fault → String
  | stated _ text => text
  | badDecimal literal =>
      "invalid literal for int() with base 10: " ++
        String.ofList ((Text.quoted literal).toList.take shownLiteral)
  | longDecimal digits =>
      "Exceeds the limit (4300 digits) for integer string conversion: value has " ++
        toString digits ++ " digits; use sys.set_int_max_str_digits() to increase the limit"
  | longNumber =>
      "Exceeds the limit (4300 digits) for integer string conversion; use " ++
        "sys.set_int_max_str_digits() to increase the limit"
  | byteRange => "a byte is out of range"
  | negativeWidth => "a width is negative"
  | emptyName => "the path has an empty name"
  | valueTooWide => "value does not fit its width"
  | outOfMemory => ""
  | notStatement => "unknown statement type"
  | notParameter => "unknown parameter type"
  | notChunk => "unknown chunk type"
  | termMissing => "unknown operand term"
  | positionMissing => "a block has no position"
  | unknownUnit => "there is no unit of this number"
  | unknownBlock => "there is no block of this number"
  | tagMissing => "a place is missing"
  | unresolvedParameter tag => "unresolved parameter at " ++ (tag.map Tag.text).getD "None"
  | parameterWidth op mode width length =>
      op.mnemonic ++ " " ++ mode.text ++ ": " ++ toString width ++ "-byte parameter for a " ++
        toString length ++ "-byte opcode"
  | imageTooLarge size =>
      "image overflows the address space (" ++ toString size ++ " bytes)"
  | undecodable refusal => refusal.message
  | fileNotFound path => "[Errno 2] No such file or directory: " ++ Text.quoted path
  | isDirectory path => "[Errno 21] Is a directory: " ++ Text.quoted path
  | notDirectory path => "[Errno 20] Not a directory: " ++ Text.quoted path
  | fileExists path => "[Errno 17] File exists: " ++ Text.quoted path
  | nameTooLong path => "[Errno 36] File name too long: " ++ Text.quoted path
  | nullInPath => "embedded null byte"

end Fault

/-- Why a stage of the assembly stopped. -/
inductive Error
  | problem (problem : Problem) (tag : Option Tag)
  | fault (fault : Fault)
deriving DecidableEq, Repr

namespace Error

/-- A problem at a place. -/
def located (problem : Problem) (tag : Tag) : Error :=
  .problem problem (some tag)

end Error

end Asm65
