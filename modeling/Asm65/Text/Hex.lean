/-!
# Hexadecimal text

Numbers in hexadecimal with a least number of digits.
-/

namespace Asm65.Text

/-- The digits up to nine, then capital letters. -/
def capitalDigits : List Char :=
  "0123456789ABCDEF".toList

/-- The digits up to nine, then small letters. -/
def smallDigits : List Char :=
  "0123456789abcdef".toList

/-- The last `count` base-16 digits of `n`, most significant first, in front of `rest`. -/
def digitsOnto (alphabet : List Char) : Nat → Nat → List Char → List Char
  | 0, _, rest => rest
  | count + 1, n, rest =>
      digitsOnto alphabet count (n / 16) (alphabet.getD (n % 16) '0' :: rest)

/-- How many base-16 digits `n` has; zero has one. -/
def digitCount (n : Nat) : Nat :=
  n.log2 / 4 + 1

/-- `n` in capital hexadecimal with at least `width` digits. -/
def hex (width n : Nat) : String :=
  String.ofList (digitsOnto capitalDigits (max width (digitCount n)) n [])

/-- `n` in small hexadecimal with at least `width` digits. -/
def smallHex (width n : Nat) : String :=
  String.ofList (digitsOnto smallDigits (max width (digitCount n)) n [])

/-- A signed number in capital hexadecimal; a minus sign counts towards the width. -/
def signedHex (width : Nat) (n : Int) : String :=
  if n < 0 then "-" ++ hex (width - 1) n.natAbs else hex width n.natAbs

end Asm65.Text
