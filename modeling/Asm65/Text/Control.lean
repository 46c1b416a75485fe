/-!
# Control sequences

A control sequence tells a terminal how to show text.  It starts with an escape character and an
opening bracket; parameter characters, intermediate characters and one final character follow.
-/

namespace Asm65.Text

/-- The character that starts a control sequence. -/
def escapeChar : Char :=
  Char.ofNat 0x1B

/-- Whether a character is a parameter of a control sequence. -/
def isParameter (c : Char) : Bool :=
  '0' ≤ c && c ≤ '?'

/-- Whether a character may stand between the parameters and the final character. -/
def isIntermediate (c : Char) : Bool :=
  ' ' ≤ c && c ≤ '/'

/-- Whether a character ends a control sequence. -/
def isFinal (c : Char) : Bool :=
  '@' ≤ c && c ≤ '~'

/-- How many characters of a control sequence follow its escape character. -/
def sequenceLength? (rest : List Char) : Option Nat :=
  let parameters := (rest.tail.takeWhile isParameter).length
  let intermediates := ((rest.tail.drop parameters).takeWhile isIntermediate).length
  let count := 1 + parameters + intermediates
  if rest.head? = some '[' ∧ (rest.drop count).head?.any isFinal then some (count + 1) else none

/-- The text without control sequences; the next `owed` characters belong to one, and `kept` holds
the characters so far, newest first. -/
def withoutControlFrom (kept : List Char) (owed : Nat) : List Char → List Char
  | [] => kept.reverse
  | c :: rest =>
      match owed with
      | owed + 1 => withoutControlFrom kept owed rest
      | 0 =>
          match (if c = escapeChar then sequenceLength? rest else none) with
          | some length => withoutControlFrom kept length rest
          | none => withoutControlFrom (c :: kept) 0 rest

/-- The text without control sequences. -/
def withoutControl (text : String) : String :=
  String.ofList (withoutControlFrom [] 0 text.toList)

end Asm65.Text
