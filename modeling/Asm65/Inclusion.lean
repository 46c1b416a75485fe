import Asm65.Event
import Asm65.File.Tree
import Asm65.Source.Units
import Asm65.Statement.Parse

/-!
# Included files

The statements of a text are followed, at each include directive, by those of the file that the
directive names.  A file is looked for beside the file that includes it, then in the search paths.
A file that is still being read is not read again inside itself, so the depth of inclusion is at
most the number of files.
-/

namespace Asm65

/-- Where included files are looked for. -/
structure Library where
  tree : FileTree
  searchPaths : List Path

/-- What reading has gathered so far. -/
structure Reading where
  units : Units
  /-- Newest first. -/
  events : List Event

namespace Reading

/-- The reading with one more event. -/
def note (reading : Reading) (event : Event) : Reading :=
  { reading with events := event :: reading.events }

end Reading

/-- The name of a text that does not come from a file. -/
def inputName : String :=
  "<input>"

namespace Library

/-- The file behind the name of a unit. -/
def unitPlace (library : Library) (name : String) : Except Fault (Option Place) :=
  if name = inputName then .ok none else library.tree.locateFile (Path.ofText name).text

/-- Where an included file may be, best first; `home` is the place of the file that includes it. -/
def candidates (library : Library) (home : Option Place) (file : String) : List Path :=
  let path := Path.ofText file
  if path.isAbsolute then [path]
  else
    let beside := home.map fun place => (Path.mk .slash place.dropLast)
    (beside.toList ++ library.searchPaths).map fun directory => directory.join path

/-- The first of some paths that leads to a file, and the place of the file. -/
def firstFile (library : Library) : List Path → Except Fault (Option (Path × Place))
  | [] => .ok none
  | path :: rest =>
      match library.tree.locateFile path.text with
      | .error fault => .error fault
      | .ok (some place) => .ok (some (path, place))
      | .ok none => firstFile library rest

/-- The error of a file that is not found. -/
def notFound (library : Library) (tag : Option Tag) (file : String) : Error :=
  .problem (.inclusion file .notFound (library.searchPaths.map Path.text)) tag

/-- The error of a file that includes itself. -/
def circular (tag : Option Tag) (file : String) : Error :=
  .problem (.inclusion file .circular []) tag

/-- The file behind a unit that was found by a path. -/
def homeOf (path : Path) (place : Place) : Option Place :=
  if path.text = inputName then none else some place

/-- Reads a unit of a name and a text, while the files at some places are being read; the second
argument is the place of the unit's file. -/
abbrev Reader :=
  List Place → Option Place → String → List Char → Reading →
    Reading × Except Error (List Statement)

/-- The statements of an included file. -/
def readIncluded (library : Library) (nested : Option Reader) (active : List Place)
    (home : Option Place) (tag : Option Tag) (file : String) (reading : Reading) :
    Reading × Except Error (List Statement) :=
  match library.firstFile (library.candidates home file) with
  | .error fault => (reading, .error (.fault fault))
  | .ok none => (reading, .error (library.notFound tag file))
  | .ok (some (path, place)) =>
      if place ∈ active then (reading, .error (circular tag file))
      else
        match nested with
        | none => (reading, .error (circular tag file))
        | some reader =>
            let noted := reading.note (.including path.text)
            match library.tree.readText path.text with
            | .error fault => (noted, .error (.fault fault))
            | .ok text => reader (active ++ [place]) (homeOf path place) path.text text noted

/-- Puts the statements of included files behind their directives; `flat` holds the statements so
far, newest first. -/
def splice (library : Library) (nested : Option Reader) (active : List Place)
    (home : Option Place) (flat : List Statement) (reading : Reading) :
    List Statement → Reading × Except Error (List Statement)
  | [] => (reading, .ok flat.reverse)
  | .includeFile tag file :: rest =>
      match library.readIncluded nested active home tag file reading with
      | (next, .error e) => (next, .error e)
      | (next, .ok inner) =>
          splice library nested active home (inner.reverseAux (.includeFile tag file :: flat))
            next rest
  | statement :: rest => splice library nested active home (statement :: flat) reading rest

/-- Reads a unit, with `nested` to read the files it includes. -/
def readUnit (library : Library) (nested : Option Reader) : Reader :=
  fun active home name text reading =>
    let (units, id) := reading.units.push name text
    let registered := { reading with units }
    match Statement.parse id text with
    | .error e => (registered, .error e)
    | .ok statements =>
        library.splice nested active home []
          (registered.note (.parsed statements.length name)) statements

/-- Reads a unit and the files it includes down to a number of levels. -/
def readLevels (library : Library) : Nat → Reader
  | 0 => library.readUnit none
  | levels + 1 => library.readUnit (some (library.readLevels levels))

/-- Reads a unit and all the files it includes. -/
def read (library : Library) (name : String) (text : List Char) (reading : Reading) :
    Reading × Except Error (List Statement) :=
  match library.unitPlace name with
  | .error fault => (reading, .error (.fault fault))
  | .ok home =>
      library.readLevels library.tree.fileCount home.toList home name text reading

end Library

end Asm65
