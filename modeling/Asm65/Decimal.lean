import Asm65.Error

/-!
# Numbers in decimal

Numbers are read and written in decimal up to a number of digits.  A longer one is a fault, also
where it would stand in the wording of another fault.
-/

namespace Asm65.Decimal

/-- The most digits a number may have. -/
def digitLimit : Nat := 4300

/-- Whether a number is short enough to be written. -/
def isWritable (n : Int) : Bool :=
  n.natAbs < Nat.pow 10 digitLimit

/-- Checks that numbers can be written. -/
def check (numbers : List Int) : Except Fault Unit :=
  if numbers.all isWritable then .ok () else .error .longNumber

/-- A fault with numbers in its wording, which have to be written. -/
def stating (numbers : List Int) (fault : Fault) : Fault :=
  if numbers.all isWritable then fault else .longNumber

end Asm65.Decimal
