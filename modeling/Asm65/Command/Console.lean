import Asm65.Command.Run
import Asm65.Text.Control

/-!
# Console text

What a run shows is text in lines.  Control sequences are not passed on to the console in messages,
and a line break is a line feed without a carriage return.
-/

namespace Asm65.Command

/-- A message as a line of its own. -/
def message (text : String) : String :=
  Text.withoutControl text ++ "\n"

/-- A line as it stands. -/
def plainLine (text : String) : String :=
  text ++ "\n"

/-- The text without the carriage returns right before a line feed; `kept` holds the characters so
far, newest first. -/
def plainBreaksFrom (kept : List Char) : List Char → List Char
  | [] => kept.reverse
  | c :: rest =>
      if c = '\r' ∧ rest.head? = some '\n' then plainBreaksFrom kept rest
      else plainBreaksFrom (c :: kept) rest

/-- Lines as they appear on the console. -/
def console (lines : List String) : String :=
  String.ofList (plainBreaksFrom [] (String.join lines).toList)

/-- A run as it appears from outside. -/
structure Report where
  status : Nat
  stdout : String
  stderr : String
  tree : FileTree

/-- The status of a run that ends without choosing one. -/
def brokenStatus : Nat := 1

/-- The status that an ending shows. -/
def Ending.status : Ending → Nat
  | exit status => status
  | broken _ => brokenStatus

/-- An outcome as it appears from outside. -/
def Outcome.report (outcome : Outcome) : Report where
  status := outcome.ending.status
  stdout := console (outcome.shown.map message)
  stderr := console (outcome.noted.map (fun e => plainLine ("DEBUG: " ++ e.text)) ++
    outcome.said.map message)
  tree := outcome.tree

end Asm65.Command
