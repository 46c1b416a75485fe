import Asm65.Text.Ranges

/-!
# Decimal digits of all scripts

Every script writes its ten decimal digits as one row of consecutive code points that starts with
its zero.  Besides those there are characters that stand for a digit but take no part in
positional notation (superscripts, circled digits and the like).
-/

namespace Asm65.Text

/-- Code points of the zeros of all rows of decimal digits. -/
def digitZeros : List Nat :=
  [0x30, 0x660, 0x6F0, 0x7C0, 0x966, 0x9E6, 0xA66, 0xAE6, 0xB66, 0xBE6, 0xC66, 0xCE6, 0xD66,
    0xDE6, 0xE50, 0xED0, 0xF20, 0x1040, 0x1090, 0x17E0, 0x1810, 0x1946, 0x19D0, 0x1A80, 0x1A90,
    0x1B50, 0x1BB0, 0x1C40, 0x1C50, 0xA620, 0xA8D0, 0xA900, 0xA9D0, 0xA9F0, 0xAA50, 0xABF0,
    0xFF10, 0x104A0, 0x10D30, 0x11066, 0x110F0, 0x11136, 0x111D0, 0x112F0, 0x11450, 0x114D0,
    0x11650, 0x116C0, 0x11730, 0x118E0, 0x11950, 0x11C50, 0x11D50, 0x11DA0, 0x16A60, 0x16AC0,
    0x16B50, 0x1D7CE, 0x1D7D8, 0x1D7E2, 0x1D7EC, 0x1D7F6, 0x1E140, 0x1E2F0, 0x1E950, 0x1FBF0]

/-- Code-point ranges of the characters that stand for a digit outside positional notation. -/
def digitSignRanges : List (Nat × Nat) :=
  [(0xB2, 0xB3), (0xB9, 0xB9), (0x1369, 0x1371), (0x19DA, 0x19DA), (0x2070, 0x2070),
    (0x2074, 0x2079), (0x2080, 0x2089), (0x2460, 0x2468), (0x2474, 0x247C), (0x2488, 0x2490),
    (0x24EA, 0x24EA), (0x24F5, 0x24FD), (0x24FF, 0x24FF), (0x2776, 0x277E), (0x2780, 0x2788),
    (0x278A, 0x2792), (0x10A40, 0x10A43), (0x10E60, 0x10E68), (0x11052, 0x1105A),
    (0x1F100, 0x1F10A)]

/-- The value of a decimal digit of any script. -/
def decimalValue? (c : Char) : Option Nat :=
  (digitZeros.find? fun z => z ≤ c.toNat && c.toNat < z + 10).map (c.toNat - ·)

/-- Whether a character is read as part of a decimal number. -/
def isDigit (c : Char) : Bool :=
  (decimalValue? c).isSome || inRanges digitSignRanges c

/-- Digits of a base, least significant first, taken in pairs as digits of its square; `paired`
holds those so far, newest first. -/
def pairDigits (base : Nat) (paired : List Nat) : List Nat → List Nat
  | low :: high :: rest => pairDigits base ((low + base * high) :: paired) rest
  | [last] => (last :: paired).reverse
  | [] => paired.reverse

/-- The value of digits of a base, least significant first.  Pairing them first, a number of times,
keeps the numbers that are multiplied of like size. -/
def valueByPairs : Nat → Nat → List Nat → Nat
  | 0, base, digits => digits.foldr (fun d value => d + base * value) 0
  | pairings + 1, base, digits => valueByPairs pairings (base * base) (pairDigits base [] digits)

/-- The value of a digit string in a base, most significant digit first. -/
def positional (base : Nat) (digits : List Nat) : Nat :=
  valueByPairs digits.length.log2 base digits.reverse

theorem foldr_pairDigits (base : Nat) (paired digits : List Nat) :
    (pairDigits base paired digits).foldr (fun d value => d + base * base * value) 0 =
      paired.reverse.foldr (fun d value => d + base * base * value)
        (digits.foldr (fun d value => d + base * value) 0) := by
  fun_induction pairDigits base paired digits with
  | case1 paired low high rest ih =>
      rw [ih]
      simp [Nat.mul_add, Nat.mul_assoc, Nat.add_assoc]
  | case2 paired last => simp
  | case3 paired => simp

theorem valueByPairs_eq_foldr (pairings base : Nat) (digits : List Nat) :
    valueByPairs pairings base digits = digits.foldr (fun d value => d + base * value) 0 := by
  induction pairings generalizing base digits with
  | zero => rfl
  | succ pairings ih => simp [valueByPairs, ih, foldr_pairDigits]

/-- Each further digit of a digit string multiplies the value before it by the base. -/
theorem positional_eq_foldl (base : Nat) (digits : List Nat) :
    positional base digits = digits.foldl (fun value d => base * value + d) 0 := by
  simp [positional, valueByPairs_eq_foldr, Nat.add_comm]

/-- The value of a hexadecimal digit; any other character counts as zero. -/
def hexValue (c : Char) : Nat :=
  if '0' ≤ c ∧ c ≤ '9' then c.toNat - '0'.toNat
  else if 'a' ≤ c ∧ c ≤ 'f' then c.toNat - 'a'.toNat + 10
  else if 'A' ≤ c ∧ c ≤ 'F' then c.toNat - 'A'.toNat + 10
  else 0

/-- Whether a character is a hexadecimal digit. -/
def isHexDigit (c : Char) : Bool :=
  ('0' ≤ c && c ≤ '9') || ('a' ≤ c && c ≤ 'f') || ('A' ≤ c && c ≤ 'F')

/-- Whether a character is a binary digit. -/
def isBinaryDigit (c : Char) : Bool :=
  c == '0' || c == '1'

end Asm65.Text
