import Asm65.Bytes
import Asm65.Decimal
import Asm65.Isa.Opcode
import Asm65.Source.Tag

/-!
# Programs

A program is a list of blocks, and a block is a list of chunks that stand one after the other.  A
chunk is an instruction, a run of bytes or the address of a label.  Programs may be put together
by hand, so their numbers are not bounded, and items of no known kind may stand where a chunk or a
parameter belongs.
-/

namespace Asm65

/-- The bytes after an opcode as one number with a width. -/
structure OperandValue where
  width : Int
  value : Int
deriving DecidableEq, Repr

namespace OperandValue

/-- No operand. -/
def none : OperandValue :=
  ⟨0, 0⟩

/-- The lowest byte of a number. -/
def byte (n : Int) : OperandValue :=
  ⟨1, n % 0x100⟩

/-- The two lowest bytes of a number. -/
def word (n : Int) : OperandValue :=
  ⟨2, n % 0x10000⟩

/-- The low byte of a value. -/
def low (v : OperandValue) : Int :=
  v.value % 0x100

/-- The byte above the low byte of a value. -/
def high (v : OperandValue) : Int :=
  v.value / 0x100 % 0x100

/-- The bytes of a value, lowest first. -/
def bytes (v : OperandValue) : Except Fault Bytes :=
  Bytes.ofInt v.width v.value

end OperandValue

/-- The parameter of an instruction: a value, or a label whose address is not known yet. -/
inductive Param
  | resolved (mode : Mode) (value : OperandValue)
  | address (mode : Mode) (tag : Option Tag) (name : String)
  | lowByte (mode : Mode) (tag : Option Tag) (name : String)
  | highByte (mode : Mode) (tag : Option Tag) (name : String)
  /-- An item that is no parameter. -/
  | unknown
deriving DecidableEq, Repr

namespace Param

/-- How many bytes a parameter takes. -/
def width : Param → Int
  | resolved _ value => value.width
  | address mode _ _ => if mode = .pcRelative then 1 else 2
  | lowByte _ _ _ => 1
  | highByte _ _ _ => 1
  | unknown => 0

/-- The mode of a parameter. -/
def mode : Param → Mode
  | resolved mode _ | address mode _ _ | lowByte mode _ _ | highByte mode _ _ => mode
  | unknown => .implied

/-- The parameter in another mode. -/
def withMode (newMode : Mode) : Param → Param
  | resolved _ value => resolved newMode value
  | address _ tag name => address newMode tag name
  | lowByte _ tag name => lowByte newMode tag name
  | highByte _ tag name => highByte newMode tag name
  | unknown => unknown

end Param

/-- A piece of a program. -/
inductive Chunk
  | op (tag : Option Tag) (code : Opcode) (param : Param) (position : Int)
  | bytes (data : Bytes)
  | vector (tag : Option Tag) (label : String) (value : Int)
  /-- An item that is no chunk. -/
  | unknown
deriving DecidableEq, Repr

namespace Chunk

/-- How many bytes an address takes. -/
def vectorWidth : Int := 2

/-- How many bytes a chunk takes. -/
def length : Chunk → Except Fault Int
  | op _ code _ _ => .ok code.length
  | bytes data => .ok data.length
  | vector _ _ _ => .ok vectorWidth
  | unknown => .error .notChunk

/-- The fault of an instruction whose parameter is not known. -/
def unresolved (tag : Option Tag) : Fault :=
  Decimal.stating ((tag.map fun t => [t.unit, t.offset]).getD []) (.unresolvedParameter tag)

/-- The bytes of a chunk whose parameter is known. -/
def encode : Chunk → Except Fault Bytes
  | op _ code (.resolved _ value) _ => do
      let opcode ← Bytes.single code.value
      let operand ← value.bytes
      return opcode ++ operand
  | op tag _ _ _ => .error (unresolved tag)
  | bytes data => .ok data
  | vector _ _ value => Bytes.ofInt vectorWidth value
  | unknown => .error .notChunk

end Chunk

/-- Chunks that stand one after the other.  The position is given by a directive or found by the
layout; the length is found by the layout. -/
structure Block where
  position : Option Int
  label : Option String
  chunks : List Chunk
  length : Int
deriving DecidableEq, Repr

/-- Blocks in the order of the source. -/
abbrev Program :=
  List Block

namespace Program

/-- The chunks of a program in order. -/
def chunks (p : Program) : List Chunk :=
  p.flatMap Block.chunks

end Program

end Asm65
