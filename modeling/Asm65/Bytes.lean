import Asm65.Error

/-!
# Numbers as bytes

Little-endian byte sequences of a fixed width.
-/

namespace Asm65

/-- A sequence of bytes. -/
abbrev Bytes :=
  List UInt8

namespace Bytes

/-- The lowest `width` bytes of a number, lowest first. -/
def littleEndian : Nat → Nat → Bytes
  | 0, _ => []
  | width + 1, n => UInt8.ofNat n :: littleEndian width (n / 256)

/-- The one byte of a number, which has to be one. -/
def single (n : Int) : Except Fault Bytes :=
  if 0 ≤ n ∧ n < 256 then .ok [UInt8.ofNat n.toNat] else .error .byteRange

/-- The first size of a run of bytes that cannot be counted. -/
def countLimit : Nat := 0x8000000000000000 - 33

/-- The first size of a run of bytes that no memory holds. -/
def memoryLimit : Nat := 0x800000000

/-- Checks that there can be a run of bytes of a size. -/
def checkSize (size : Nat) : Except Fault Unit :=
  if size ≥ countLimit then .error .valueTooWide
  else if size ≥ memoryLimit then .error .outOfMemory
  else .ok ()

/-- Checks that a number of bytes can be asked for. -/
def checkWidth (width : Int) : Except Fault Unit :=
  if width < -0x8000000000000000 then .error .valueTooWide
  else if width < 0 then .error .negativeWidth
  else checkSize width.toNat

/-- Whether a number fits in `width` bytes: its highest bit lies in one of them. -/
def fits (width n : Nat) : Bool :=
  n == 0 || n.log2 < 8 * width

/-- A number in `width` bytes, lowest first; it has to fit. -/
def ofInt (width n : Int) : Except Fault Bytes :=
  match checkWidth width with
  | .error fault => .error fault
  | .ok _ =>
      if 0 ≤ n ∧ fits width.toNat n.toNat then .ok (littleEndian width.toNat n.toNat)
      else .error .valueTooWide

end Bytes

end Asm65
