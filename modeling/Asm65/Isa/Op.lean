import Asm65.Text.Upper

/-!
# Operations of the 6502

One constructor per mnemonic of the documented instruction set.
-/

namespace Asm65

/-- An operation, named by its mnemonic. -/
inductive Op
  | adc | and | asl | bcc | bcs | beq | bit | bmi
  | bne | bpl | brk | bvc | bvs | clc | cld | cli
  | clv | cmp | cpx | cpy | dec | dex | dey | eor
  | inc | inx | iny | jmp | jsr | lda | ldx | ldy
  | lsr | nop | ora | pha | php | pla | plp | rol
  | ror | rti | rts | sbc | sec | sed | sei | sta
  | stx | sty | tax | tay | tsx | txa | txs | tya
deriving DecidableEq, Repr

namespace Op

/-- All operations in alphabetical order. -/
def all : List Op :=
  [adc, and, asl, bcc, bcs, beq, bit, bmi, bne, bpl, brk, bvc, bvs, clc, cld, cli, clv, cmp, cpx,
    cpy, dec, dex, dey, eor, inc, inx, iny, jmp, jsr, lda, ldx, ldy, lsr, nop, ora, pha, php,
    pla, plp, rol, ror, rti, rts, sbc, sec, sed, sei, sta, stx, sty, tax, tay, tsx, txa, txs,
    tya]

/-- The mnemonic of an operation. -/
def mnemonic : Op → String
  | adc => "ADC"
  | and => "AND"
  | asl => "ASL"
  | bcc => "BCC"
  | bcs => "BCS"
  | beq => "BEQ"
  | bit => "BIT"
  | bmi => "BMI"
  | bne => "BNE"
  | bpl => "BPL"
  | brk => "BRK"
  | bvc => "BVC"
  | bvs => "BVS"
  | clc => "CLC"
  | cld => "CLD"
  | cli => "CLI"
  | clv => "CLV"
  | cmp => "CMP"
  | cpx => "CPX"
  | cpy => "CPY"
  | dec => "DEC"
  | dex => "DEX"
  | dey => "DEY"
  | eor => "EOR"
  | inc => "INC"
  | inx => "INX"
  | iny => "INY"
  | jmp => "JMP"
  | jsr => "JSR"
  | lda => "LDA"
  | ldx => "LDX"
  | ldy => "LDY"
  | lsr => "LSR"
  | nop => "NOP"
  | ora => "ORA"
  | pha => "PHA"
  | php => "PHP"
  | pla => "PLA"
  | plp => "PLP"
  | rol => "ROL"
  | ror => "ROR"
  | rti => "RTI"
  | rts => "RTS"
  | sbc => "SBC"
  | sec => "SEC"
  | sed => "SED"
  | sei => "SEI"
  | sta => "STA"
  | stx => "STX"
  | sty => "STY"
  | tax => "TAX"
  | tay => "TAY"
  | tsx => "TSX"
  | txa => "TXA"
  | txs => "TXS"
  | tya => "TYA"

/-- The operation a mnemonic names, in whatever case it is written. -/
def ofMnemonic? (mnemonic : String) : Option Op :=
  let wanted := Text.upper mnemonic
  all.find? fun op => op.mnemonic == wanted

/-- Whether an operation jumps to an address given in full. -/
def isJump : Op → Bool
  | jmp | jsr => true
  | _ => false

/-- Whether an operation branches on a condition, over a signed one-byte distance. -/
def isConditional : Op → Bool
  | bcc | bcs | beq | bmi | bne | bpl | bvc | bvs => true
  | _ => false

/-- Whether an operation transfers control to the place its operand names. -/
def isBranch (op : Op) : Bool :=
  op.isConditional || op.isJump

/-- Whether an operation can work on the accumulator, which is then written `A`. -/
def hasAccumulatorForm : Op → Bool
  | asl | lsr | rol | ror => true
  | _ => false

end Op

end Asm65
