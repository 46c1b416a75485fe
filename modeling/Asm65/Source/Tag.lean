/-!
# Places in source texts

A source text is a list of characters, and a tag names a place in it by unit and offset.  Offsets
and unit numbers may be negative: they then count from the end.
-/

namespace Asm65

/-- A point in a numbered source text. -/
structure Tag where
  unit : Int
  offset : Int
deriving DecidableEq, Repr, Inhabited

namespace Tag

/-- The unit and the offset with a colon between them. -/
def text (t : Tag) : String :=
  toString t.unit ++ ":" ++ toString t.offset

/-- How many characters of a text of the given length lie before an offset.  A negative offset
counts from the end, and no offset leaves the text. -/
def charsBefore (length : Nat) (offset : Int) : Nat :=
  if offset < 0 then (length + offset).toNat else min offset.toNat length

/-- The row and the column after one more character. -/
def stepRowCol (place : Nat × Nat) (c : Char) : Nat × Nat :=
  if c == '\n' then (place.1 + 1, 1) else (place.1, place.2 + 1)

/-- The row and the column, both from one, at which a tag stands in its text. -/
def rowCol (t : Tag) (source : List Char) : Nat × Nat :=
  (source.take (charsBefore source.length t.offset)).foldl stepRowCol (1, 1)

/-- The rows of the offsets of a text from `row` on, behind the rows of earlier offsets. -/
def rowsFrom (earlier : Array Nat) (row : Nat) : List Char → Array Nat
  | [] => earlier.push row
  | c :: rest => rowsFrom (earlier.push row) (if c == '\n' then row + 1 else row) rest

/-- The row of every offset of a text, that of its end included. -/
def rows (source : List Char) : Array Nat :=
  rowsFrom #[] 1 source

/-- The row at which a tag stands in a text with the given rows. -/
def rowIn (t : Tag) (rows : Array Nat) : Nat :=
  rows.getD (charsBefore (rows.size - 1) t.offset) 1

/-- The text from the tag to the end of its line. -/
def line (t : Tag) (source : List Char) : List Char :=
  (source.drop (charsBefore source.length t.offset)).takeWhile (· != '\n')

end Tag

end Asm65
