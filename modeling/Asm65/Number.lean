/-!
# Numeric literals

A literal carries the width it was written with: `$10` is a byte, `$0010` a word.
-/

namespace Asm65

/-- How wide a literal was written. -/
inductive Width
  | byte
  | word
  | invalid
deriving DecidableEq, Repr

/-- A literal. -/
structure Number where
  width : Width
  value : Int
deriving DecidableEq, Repr

namespace Number

/-- The literal of a value, as narrow as the value allows. -/
def ofValue (value : Int) : Number :=
  if 0 ≤ value ∧ value ≤ 0xFF then ⟨.byte, value⟩
  else if 0 ≤ value ∧ value ≤ 0xFFFF then ⟨.word, value⟩
  else ⟨.invalid, value⟩

/-- The literal of a number written with digits of a fixed count of bits: a byte if it has at most
`byteDigits` digits. -/
def ofDigits (byteDigits digits : Nat) (value : Nat) : Number :=
  if digits ≤ byteDigits ∧ value ≤ 0xFF then ⟨.byte, value⟩
  else if value ≤ 0xFFFF then ⟨.word, value⟩
  else ⟨.invalid, value⟩

end Number

end Asm65
