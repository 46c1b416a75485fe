import Asm65.Isa.Mode
import Asm65.Isa.Op
import Asm65.Text.Hex

/-!
# Opcodes of the 6502

The opcode byte of every operation in every mode it has.
-/

namespace Asm65

/-- The modes of an operation with their opcode bytes. -/
def Op.encodings : Op → List (Mode × UInt8)
  | .adc =>
      [(.immediate, 0x69), (.zeroPage, 0x65), (.zeroPageX, 0x75), (.absolute, 0x6D),
        (.absoluteX, 0x7D), (.absoluteY, 0x79), (.preIndirectX, 0x61), (.postIndirectY, 0x71)]
  | .and =>
      [(.immediate, 0x29), (.zeroPage, 0x25), (.zeroPageX, 0x35), (.absolute, 0x2D),
        (.absoluteX, 0x3D), (.absoluteY, 0x39), (.preIndirectX, 0x21), (.postIndirectY, 0x31)]
  | .asl =>
      [(.implied, 0x0A), (.zeroPage, 0x06), (.zeroPageX, 0x16), (.absolute, 0x0E),
        (.absoluteX, 0x1E)]
  | .bcc => [(.pcRelative, 0x90)]
  | .bcs => [(.pcRelative, 0xB0)]
  | .beq => [(.pcRelative, 0xF0)]
  | .bit => [(.zeroPage, 0x24), (.absolute, 0x2C)]
  | .bmi => [(.pcRelative, 0x30)]
  | .bne => [(.pcRelative, 0xD0)]
  | .bpl => [(.pcRelative, 0x10)]
  | .brk => [(.implied, 0x00)]
  | .bvc => [(.pcRelative, 0x50)]
  | .bvs => [(.pcRelative, 0x70)]
  | .clc => [(.implied, 0x18)]
  | .cld => [(.implied, 0xD8)]
  | .cli => [(.implied, 0x58)]
  | .clv => [(.implied, 0xB8)]
  | .cmp =>
      [(.immediate, 0xC9), (.zeroPage, 0xC5), (.zeroPageX, 0xD5), (.absolute, 0xCD),
        (.absoluteX, 0xDD), (.absoluteY, 0xD9), (.preIndirectX, 0xC1), (.postIndirectY, 0xD1)]
  | .cpx => [(.immediate, 0xE0), (.zeroPage, 0xE4), (.absolute, 0xEC)]
  | .cpy => [(.immediate, 0xC0), (.zeroPage, 0xC4), (.absolute, 0xCC)]
  | .dec => [(.zeroPage, 0xC6), (.zeroPageX, 0xD6), (.absolute, 0xCE), (.absoluteX, 0xDE)]
  | .dex => [(.implied, 0xCA)]
  | .dey => [(.implied, 0x88)]
  | .eor =>
      [(.immediate, 0x49), (.zeroPage, 0x45), (.zeroPageX, 0x55), (.absolute, 0x4D),
        (.absoluteX, 0x5D), (.absoluteY, 0x59), (.preIndirectX, 0x41), (.postIndirectY, 0x51)]
  | .inc => [(.zeroPage, 0xE6), (.zeroPageX, 0xF6), (.absolute, 0xEE), (.absoluteX, 0xFE)]
  | .inx => [(.implied, 0xE8)]
  | .iny => [(.implied, 0xC8)]
  | .jmp => [(.absolute, 0x4C), (.indirect, 0x6C)]
  | .jsr => [(.absolute, 0x20)]
  | .lda =>
      [(.immediate, 0xA9), (.zeroPage, 0xA5), (.zeroPageX, 0xB5), (.absolute, 0xAD),
        (.absoluteX, 0xBD), (.absoluteY, 0xB9), (.preIndirectX, 0xA1), (.postIndirectY, 0xB1)]
  | .ldx =>
      [(.immediate, 0xA2), (.zeroPage, 0xA6), (.zeroPageY, 0xB6), (.absolute, 0xAE),
        (.absoluteY, 0xBE)]
  | .ldy =>
      [(.immediate, 0xA0), (.zeroPage, 0xA4), (.zeroPageX, 0xB4), (.absolute, 0xAC),
        (.absoluteX, 0xBC)]
  | .lsr =>
      [(.implied, 0x4A), (.zeroPage, 0x46), (.zeroPageX, 0x56), (.absolute, 0x4E),
        (.absoluteX, 0x5E)]
  | .nop => [(.implied, 0xEA)]
  | .ora =>
      [(.immediate, 0x09), (.zeroPage, 0x05), (.zeroPageX, 0x15), (.absolute, 0x0D),
        (.absoluteX, 0x1D), (.absoluteY, 0x19), (.preIndirectX, 0x01), (.postIndirectY, 0x11)]
  | .pha => [(.implied, 0x48)]
  | .php => [(.implied, 0x08)]
  | .pla => [(.implied, 0x68)]
  | .plp => [(.implied, 0x28)]
  | .rol =>
      [(.implied, 0x2A), (.zeroPage, 0x26), (.zeroPageX, 0x36), (.absolute, 0x2E),
        (.absoluteX, 0x3E)]
  | .ror =>
      [(.implied, 0x6A), (.zeroPage, 0x66), (.zeroPageX, 0x76), (.absolute, 0x6E),
        (.absoluteX, 0x7E)]
  | .rti => [(.implied, 0x40)]
  | .rts => [(.implied, 0x60)]
  | .sbc =>
      [(.immediate, 0xE9), (.zeroPage, 0xE5), (.zeroPageX, 0xF5), (.absolute, 0xED),
        (.absoluteX, 0xFD), (.absoluteY, 0xF9), (.preIndirectX, 0xE1), (.postIndirectY, 0xF1)]
  | .sec => [(.implied, 0x38)]
  | .sed => [(.implied, 0xF8)]
  | .sei => [(.implied, 0x78)]
  | .sta =>
      [(.zeroPage, 0x85), (.zeroPageX, 0x95), (.absolute, 0x8D), (.absoluteX, 0x9D),
        (.absoluteY, 0x99), (.preIndirectX, 0x81), (.postIndirectY, 0x91)]
  | .stx => [(.zeroPage, 0x86), (.zeroPageY, 0x96), (.absolute, 0x8E)]
  | .sty => [(.zeroPage, 0x84), (.zeroPageX, 0x94), (.absolute, 0x8C)]
  | .tax => [(.implied, 0xAA)]
  | .tay => [(.implied, 0xA8)]
  | .tsx => [(.implied, 0xBA)]
  | .txa => [(.implied, 0x8A)]
  | .txs => [(.implied, 0x9A)]
  | .tya => [(.implied, 0x98)]

/-- One instruction form.  Programs made by hand may hold forms that the instruction set lacks, so
neither the opcode nor the length is bounded here. -/
structure Opcode where
  op : Op
  mode : Mode
  value : Int
  length : Int
deriving DecidableEq, Repr

namespace Opcode

/-- The form of an operation in a mode, if the instruction set has it. -/
def lookup? (op : Op) (mode : Mode) : Option Opcode :=
  (op.encodings.lookup mode).map fun value => ⟨op, mode, value.toNat, mode.length⟩

/-- A one-line description of a form. -/
def text (code : Opcode) : String :=
  "OpCode(" ++ code.op.mnemonic ++ " " ++ code.mode.text ++ ", value=$" ++
    Text.signedHex 2 code.value ++ ", length=" ++ toString code.length ++ ")"

end Opcode

end Asm65
