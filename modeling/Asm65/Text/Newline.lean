/-!
# Line ends

Files may end their lines with a line feed, a carriage return or both; reading a file turns each
of these into one line feed.
-/

namespace Asm65.Text

/-- Unified text in front of which stands `read`, newest character first; `afterReturn` tells
that the last character was a carriage return. -/
def unifyFrom (read : List Char) (afterReturn : Bool) : List Char → List Char
  | [] => read.reverse
  | c :: rest =>
      if c == '\r' then unifyFrom ('\n' :: read) true rest
      else if c == '\n' && afterReturn then unifyFrom read false rest
      else unifyFrom (c :: read) false rest

/-- The text with every line end written as a line feed. -/
def unifyNewlines (text : List Char) : List Char :=
  unifyFrom [] false text

end Asm65.Text
