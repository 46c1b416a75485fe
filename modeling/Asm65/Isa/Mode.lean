/-!
# Addressing modes of the 6502
-/

namespace Asm65

/-- How the bytes after an opcode are to be understood. -/
inductive Mode
  | implied
  | immediate
  | zeroPage
  | zeroPageX
  | zeroPageY
  | absolute
  | absoluteX
  | absoluteY
  | indirect
  | preIndirectX
  | postIndirectY
  | pcRelative
deriving DecidableEq, Repr

namespace Mode

/-- All modes. -/
def all : List Mode :=
  [implied, immediate, zeroPage, zeroPageX, zeroPageY, absolute, absoluteX, absoluteY, indirect,
    preIndirectX, postIndirectY, pcRelative]

/-- The name of a mode in messages. -/
def text : Mode → String
  | implied => "implied"
  | immediate => "immediate"
  | zeroPage => "zero page"
  | zeroPageX => "zero page x"
  | zeroPageY => "zero page y"
  | absolute => "absolute"
  | absoluteX => "absolute x"
  | absoluteY => "absolute y"
  | indirect => "indirect"
  | preIndirectX => "pre indirect x"
  | postIndirectY => "post indirect y"
  | pcRelative => "pc relative"

/-- Bytes of an instruction in a mode, its opcode included. -/
def length : Mode → Nat
  | implied => 1
  | absolute | absoluteX | absoluteY | indirect => 3
  | _ => 2

/-- The mode that a one-byte address turns a mode into: the zero-page form of an absolute mode. -/
def narrowed : Mode → Mode
  | absolute => zeroPage
  | absoluteX => zeroPageX
  | absoluteY => zeroPageY
  | mode => mode

end Mode

end Asm65
