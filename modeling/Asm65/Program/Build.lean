import Asm65.Program.Basic
import Asm65.Statement.Basic

/-!
# From statements to programs

Every statement gives at most one piece of the program, whatever stands around it: either a chunk
or the beginning of a block.  The pieces are then gathered into blocks.
-/

namespace Asm65

namespace OperandKind

/-- The mode an operand shape asks for. -/
def mode : OperandKind → Mode
  | none => .implied
  | immediate => .immediate
  | address => .absolute
  | absoluteX => .absoluteX
  | absoluteY => .absoluteY
  | indirect => .indirect
  | indirectX => .preIndirectX
  | indirectY => .postIndirectY

/-- Whether a modifier counts in an operand shape. -/
def takesModifier : OperandKind → Bool
  | immediate | address => true
  | _ => false

end OperandKind

namespace Param

/-- The parameter for a label. -/
def ofName (tag : Option Tag) (name : String) (modifier : Modifier) (mode : Mode) : Param :=
  match modifier with
  | .none => .address mode tag name
  | .lowByte => .lowByte mode tag name
  | .highByte => .highByte mode tag name

/-- The parameter for a literal.  A byte narrows absolute modes to the zero page. -/
def ofNumber (tag : Option Tag) (number : Number) (modifier : Modifier) (mode : Mode) :
    Except Error Param :=
  match number.width with
  | .byte =>
      match modifier with
      | .none => .ok (.resolved mode.narrowed (.byte number.value))
      | _ => .error (.problem .halfOfByte tag)
  | .word =>
      let value := OperandValue.word number.value
      match modifier with
      | .none => .ok (.resolved mode value)
      | .lowByte => .ok (.resolved mode (.byte value.low))
      | .highByte => .ok (.resolved mode (.byte value.high))
  | .invalid => .error (.problem .literalRange tag)

/-- The parameter for an operand.  An operand shape without a place for a modifier ignores it. -/
def ofOperand (operand : Operand) : Except Error Param :=
  if operand.kind = .none then .ok (.resolved .implied .none)
  else
    let mode := operand.kind.mode
    let modifier := if operand.kind.takesModifier then operand.modifier else .none
    match operand.term with
    | some (.number tag number) => ofNumber tag number modifier mode
    | some (.name tag name) => .ok (ofName tag name modifier mode)
    | none => .error (.fault .termMissing)

end Param

namespace Chunk

/-- The chunk for an instruction.  A conditional branch takes its parameter as a distance. -/
def ofInstruction (tag : Option Tag) (mnemonic : String) (operand : Operand) : Except Error Chunk :=
  match Op.ofMnemonic? mnemonic with
  | none => .error (.problem (.unknownOpcode mnemonic) tag)
  | some operation => do
      let written ← Param.ofOperand operand
      let param := if operation.isConditional then written.withMode .pcRelative else written
      match Opcode.lookup? operation param.mode with
      | none => .error (.problem (.parameterRequired mnemonic) tag)
      | some code =>
          if param.width = code.length - 1 then .ok (.op tag code param 0)
          else .error (.problem (.operandWidth mnemonic param.width param.mode) tag)

/-- The bytes of byte constants; `read` holds those so far, newest first. -/
def byteData (tag : Option Tag) (read : Bytes) : List Number → Except Error Bytes
  | [] => .ok read.reverse
  | n :: rest =>
      if n.width = .byte then
        match Bytes.single n.value with
        | .ok data => byteData tag (data.reverse ++ read) rest
        | .error fault => .error (.fault fault)
      else .error (.problem .byteConstants tag)

/-- The bytes of word constants; `read` holds those so far, newest first. -/
def wordData (tag : Option Tag) (read : Bytes) : List Number → Except Error Bytes
  | [] => .ok read.reverse
  | n :: rest =>
      if n.width = .invalid then .error (.problem .wordConstants tag)
      else
        match Bytes.ofInt 2 n.value with
        | .ok data => wordData tag (data.reverse ++ read) rest
        | .error fault => .error (.fault fault)

end Chunk

/-- What a statement adds to a program. -/
inductive Piece
  | chunk (chunk : Chunk)
  | block (position : Option Int) (label : Option String)
deriving DecidableEq, Repr

namespace Statement

/-- The address of a directive that moves to another place. -/
def origin (tag : Option Tag) (address : Number) (problem : Problem) : Except Error Int :=
  if address.width = .word then .ok address.value else .error (.problem problem tag)

/-- What a statement adds to a program. -/
def piece : Statement → Except Error (Option Piece)
  | comment _ => .ok none
  | label _ name => .ok (some (.block none (some name)))
  | instruction tag mnemonic operand => do
      let chunk ← Chunk.ofInstruction tag mnemonic operand
      return some (.chunk chunk)
  | org tag address => do
      let position ← origin tag address .orgAddress
      return some (.block (some position) none)
  | pad tag address => do
      let position ← origin tag address .padAddress
      return some (.block (some position) none)
  | bytes tag values => do
      let data ← Chunk.byteData tag [] values
      return some (.chunk (.bytes data))
  | words tag values => do
      let data ← Chunk.wordData tag [] values
      return some (.chunk (.bytes data))
  | vector tag name => .ok (some (.chunk (.vector tag name 0)))
  | includeFile _ _ => .ok none
  | unknown => .error (.fault .notStatement)

end Statement

namespace Program

/-- Adds a piece in front of a program that may begin with chunks of an unfinished block. -/
def addPiece (piece : Piece) (after : List Chunk × Program) : List Chunk × Program :=
  match piece with
  | .chunk chunk => (chunk :: after.1, after.2)
  | .block position label => ([], ⟨position, label, after.1, 0⟩ :: after.2)

/-- Gathers pieces into blocks.  Chunks before the first block form a block without a label. -/
def ofPieces (pieces : List Piece) : Program :=
  let (first, blocks) := pieces.foldr addPiece ([], [])
  if first.isEmpty then blocks else ⟨none, none, first, 0⟩ :: blocks

/-- The pieces of statements in order; `read` holds those so far, newest first. -/
def piecesFrom (read : List Piece) : List Statement → Except Error (List Piece)
  | [] => .ok read.reverse
  | statement :: rest =>
      match statement.piece with
      | .ok added => piecesFrom (added.toList ++ read) rest
      | .error e => .error e

/-- The program that statements describe. -/
def ofStatements (statements : List Statement) : Except Error Program := do
  let pieces ← piecesFrom [] statements
  return ofPieces pieces

end Program

end Asm65
