import Asm65.Decimal
import Asm65.Program.Basic
import Asm65.Source.Units
import Asm65.Text.Json

/-!
# Source maps

A source map leads from the address of each instruction back to the place where it was written.
Data has no entry.
-/

namespace Asm65

/-- An instruction's address and where it was written. -/
structure MapEntry where
  address : Int
  tag : Option Tag
deriving DecidableEq, Repr

namespace Chunk

/-- The map entry of an instruction. -/
def mapEntry? : Chunk → Option MapEntry
  | op tag _ _ position => some ⟨position, tag⟩
  | _ => none

end Chunk

namespace Program

/-- One entry for each instruction, in program order. -/
def mapEntries (program : Program) : List MapEntry :=
  (chunks program).filterMap Chunk.mapEntry?

end Program

/-- An entry together with the line it lies in. -/
structure SourceMap.Line where
  unit : Int
  offset : Int
  line : Nat
  address : Int
deriving DecidableEq, Repr

/-- The names of the units and the entries that refer to them. -/
structure SourceMap where
  units : List (Nat × String)
  entries : List SourceMap.Line
deriving DecidableEq, Repr

namespace SourceMap

/-- Finds the line of an entry; `rows` holds the rows of each unit's text. -/
def locate (units : Units) (rows : List (Array Nat)) (entry : MapEntry) : Except Fault Line := do
  match entry.tag with
  | none => .error .tagMissing
  | some tag =>
      let (id, _) ← units.findNumbered tag.unit
      return ⟨tag.unit, tag.offset, tag.rowIn (rows.getD id #[]), entry.address⟩

/-- The lines of entries in order; `found` holds those so far, newest first. -/
def locateAll (units : Units) (rows : List (Array Nat)) (found : List Line) :
    List MapEntry → Except Fault (List Line)
  | [] => .ok found.reverse
  | entry :: rest =>
      match locate units rows entry with
      | .ok line => locateAll units rows (line :: found) rest
      | .error fault => .error fault

/-- The source map of entries. -/
def ofEntries (units : Units) (entries : List MapEntry) : Except Fault SourceMap := do
  let lines ← locateAll units (units.map fun unit => Tag.rows unit.text) [] entries
  return ⟨units.names, lines⟩

/-- A source map in JSON; `indent` is the number of blanks per level, or none for one line. -/
def json (map : SourceMap) (indent : Option Nat) : String :=
  let units := map.units.map fun (id, name) =>
    Text.Json.object indent 2 [("id", toString id), ("name", Text.Json.string name)]
  let entries := map.entries.map fun e =>
    Text.Json.object indent 2
      [("unit", toString e.unit), ("offset", toString e.offset), ("line", toString e.line),
        ("address", toString e.address)]
  Text.Json.object indent 0
    [("src_units", Text.Json.array indent 1 units), ("entries", Text.Json.array indent 1 entries)]

/-- The numbers of a source map that may be of any length. -/
def numbers (map : SourceMap) : List Int :=
  map.entries.flatMap fun e => [e.unit, e.offset, e.address]

/-- A source map in JSON, with its numbers short enough to be written. -/
def text (map : SourceMap) (indent : Option Nat) : Except Fault String := do
  Decimal.check map.numbers
  return map.json indent

end SourceMap

end Asm65
