import Asm65.Text.Hex

/-!
# The record of a run

While it works, the assembler notes what it has done.
-/

namespace Asm65

/-- Something the assembler has done. -/
inductive Event
  | parsed (statements : Nat) (unit : String)
  | including (path : String)
  | built (blocks statements : Nat)
  | measured (blocks : Nat) (bytes : Int)
  | relabelled (name : String) (old new : Int)
  | bound (labels : Nat)
  | resolved
  | emitted (bytes : Nat) (origin : Int)
  | assembled (bytes labels : Nat)
  | wroteImage (bytes : Nat) (path : String)
  | wroteMap (entries : Nat) (path : String)
deriving DecidableEq, Repr

namespace Event

/-- An address as it is shown: a dollar sign and at least four digits. -/
def address (n : Int) : String :=
  "$" ++ Text.signedHex 4 n

/-- The wording of an event. -/
def text : Event → String
  | parsed statements unit =>
      "Parsed " ++ toString statements ++ " statements from " ++ unit
  | including path => "Including " ++ path
  | built blocks statements =>
      "Generated " ++ toString blocks ++ " blocks from " ++ toString statements ++ " statements"
  | measured blocks bytes =>
      "Pass 1: " ++ toString blocks ++ " blocks, " ++ toString bytes ++ " bytes"
  | relabelled name old new =>
      "Label '" ++ name ++ "' redefined, " ++ address old ++ " -> " ++ address new
  | bound labels => "Pass 2: " ++ toString labels ++ " labels bound"
  | resolved => "Pass 3: all parameters resolved"
  | emitted bytes origin =>
      "Emitted " ++ toString bytes ++ " bytes starting at " ++ address origin
  | assembled bytes labels =>
      "Assembled " ++ toString bytes ++ " bytes, " ++ toString labels ++ " labels"
  | wroteImage bytes path => "Wrote " ++ toString bytes ++ " bytes to " ++ path
  | wroteMap entries path =>
      "Wrote source map with " ++ toString entries ++ " entries to " ++ path

end Event

end Asm65
