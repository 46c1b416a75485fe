import Asm65.Error

/-!
# Source texts

Every text that is read is kept under a number, the first under zero.  A tag is turned back into
a name, a row, a column and a line with the help of the texts.
-/

namespace Asm65

/-- A source text with its name. -/
structure SourceUnit where
  name : String
  text : List Char
deriving DecidableEq, Repr

/-- The source texts in the order they were read; a unit's number is its place in the list. -/
abbrev Units :=
  List SourceUnit

namespace Units

/-- The texts with one more, and its number. -/
def push (units : Units) (name : String) (text : List Char) : Units × Nat :=
  (units ++ [⟨name, text⟩], units.length)

/-- A unit by its number, with the number counted from the start.  Negative numbers count from
the end. -/
def findNumbered (units : Units) (id : Int) : Except Fault (Nat × SourceUnit) :=
  let place := if id < 0 then units.length + id else id
  if place < 0 then .error .unknownUnit
  else
    match units[place.toNat]? with
    | some unit => .ok (place.toNat, unit)
    | none => .error .unknownUnit

/-- The unit of a number. -/
def find (units : Units) (id : Int) : Except Fault SourceUnit :=
  (units.findNumbered id).map Prod.snd

/-- The numbered names of the units. -/
def names (units : Units) : List (Nat × String) :=
  units.zipIdx.map fun (unit, id) => (id, unit.name)

/-- A text with the name, the row and the column of a place in front of it. -/
def labelled (units : Units) (tag : Tag) (text : SourceUnit → String) : Except Fault String := do
  let unit ← units.find tag.unit
  let (row, column) := tag.rowCol unit.text
  return unit.name ++ ":" ++ toString row ++ ":" ++ toString column ++ ": " ++ text unit

/-- A place with the rest of its line. -/
def lineComment (units : Units) : Option Tag → Except Fault String
  | none => .error .tagMissing
  | some tag => units.labelled tag fun unit => String.ofList (tag.line unit.text)

/-- The message of a problem, with its place in front if it has one. -/
def describe (units : Units) (problem : Problem) : Option Tag → Except Fault String
  | none => .ok problem.message
  | some tag => units.labelled tag fun _ => problem.message

end Units

end Asm65
