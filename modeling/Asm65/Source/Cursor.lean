/-!
# Reading positions

The position of a reader that goes through a text character by character.
-/

namespace Asm65

/-- Characters read so far, and the line and column of the next one, both from one. -/
structure Cursor where
  offset : Nat
  line : Nat
  column : Nat
deriving DecidableEq, Repr

namespace Cursor

/-- The position before the first character. -/
def start : Cursor :=
  ⟨0, 1, 1⟩

/-- The position after one more character. -/
def advance (p : Cursor) (c : Char) : Cursor :=
  if c == '\n' then ⟨p.offset + 1, p.line + 1, 1⟩ else ⟨p.offset + 1, p.line, p.column + 1⟩

end Cursor

end Asm65
