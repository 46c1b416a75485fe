import Asm65.Error

/-!
# Path texts

A path is a root and a list of names.  Empty names and single dots vanish, double dots stay:
whether they lead anywhere depends on the files.
-/

namespace Asm65

/-- The names between the slashes of a text; there is one more than there are slashes. -/
def pathComponents (text : String) : List String :=
  let (first, others) := text.toList.foldr
    (fun c (name, names) =>
      if c == '/' then ([], String.ofList name :: names) else (c :: name, names))
    ([], [])
  String.ofList first :: others

/-- Where a path starts.  Exactly two slashes in front are kept, more count as one. -/
inductive PathRoot
  | relative
  | slash
  | doubleSlash
deriving DecidableEq, Repr

/-- The text of a root. -/
def PathRoot.text : PathRoot → String
  | .relative => ""
  | .slash => "/"
  | .doubleSlash => "//"

/-- A path. -/
structure Path where
  root : PathRoot
  names : List String
deriving DecidableEq, Repr

namespace Path

/-- The root of a path text. -/
def rootOf (text : List Char) : PathRoot :=
  match (text.takeWhile (· == '/')).length with
  | 0 => .relative
  | 2 => .doubleSlash
  | _ => .slash

/-- The path of a text. -/
def ofText (text : String) : Path :=
  ⟨rootOf text.toList, (pathComponents text).filter fun name => name != "" && name != "."⟩

/-- The text of a path; the empty path is a dot. -/
def text (p : Path) : String :=
  if p.root = .relative ∧ p.names = [] then "."
  else p.root.text ++ String.intercalate "/" p.names

/-- Whether a path starts at a root. -/
def isAbsolute (p : Path) : Bool :=
  p.root != .relative

/-- A path seen from another one. -/
def join (p q : Path) : Path :=
  if q.isAbsolute then q else ⟨p.root, p.names ++ q.names⟩

/-- The path without its last name. -/
def parent (p : Path) : Path :=
  ⟨p.root, p.names.dropLast⟩

/-- The path of the same place with more text at the end of its last name. -/
def withSuffix (p : Path) (suffix : String) : Except Fault Path :=
  match p.names.getLast? with
  | none => .error .emptyName
  | some name => .ok ⟨p.root, p.names.dropLast ++ [name ++ suffix]⟩

end Path

end Asm65
