import Asm65.Error

/-!
# Screens

What a run shows goes to one of two streams, line by line.  A line may fail to be shown: where a
stream leads to is not known, and it may be closed or unable to take some of the characters.
-/

namespace Asm65.Command

/-- What becomes of a line, given the lines that were shown before it, newest first. -/
abbrev Stream :=
  List String → String → Except Fault Unit

namespace Stream

/-- Shows lines up to the first that fails; `shown` holds the lines so far, newest first. -/
def showAll (stream : Stream) (shown : List String) :
    List String → List String × Except Fault Unit
  | [] => (shown, .ok ())
  | line :: rest =>
      match stream shown line with
      | .error fault => (shown, .error fault)
      | .ok _ => showAll stream (line :: shown) rest

/-- A stream that takes every line. -/
def clear : Stream :=
  fun _ _ => .ok ()

end Stream

/-- Where a run shows what it does and what it complains about. -/
structure Screen where
  out : Stream
  err : Stream

/-- A screen that takes every line. -/
def Screen.clear : Screen :=
  ⟨.clear, .clear⟩

end Asm65.Command
