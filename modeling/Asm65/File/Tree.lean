import Asm65.Bytes
import Asm65.File.Path
import Asm65.Text.Newline

/-!
# File trees

A tree holds files and directories by their places: the names on the way from the root.  Path
texts are followed name by name from the root or from the working directory.
-/

namespace Asm65

/-- The names on the way from the root to an entry; no name is empty, a dot or two dots. -/
abbrev Place :=
  List String

/-- What stands at a place. -/
inductive FileEntry
  | file (data : Bytes)
  | directory
deriving DecidableEq, Repr

/-- Files and directories, and the place that relative paths start from. -/
structure FileTree where
  entries : List (Place × FileEntry)
  workDir : Place
deriving DecidableEq, Repr

namespace FileTree

/-- A tree with nothing in its working directory. -/
def empty (workDir : Place) : FileTree :=
  ⟨[], workDir⟩

/-- What stands at a place. -/
def entry? (tree : FileTree) (place : Place) : Option FileEntry :=
  if place.isPrefixOf tree.workDir then some .directory else tree.entries.lookup place

/-- The tree with another entry at a place. -/
def set (tree : FileTree) (place : Place) (entry : FileEntry) : FileTree :=
  { tree with entries := tree.entries.filter (fun e => e.1 != place) ++ [(place, entry)] }

/-- How many files a tree has. -/
def fileCount (tree : FileTree) : Nat :=
  tree.entries.countP fun e => e.2 != .directory

/-! ## Following paths -/

/-- The most bytes a name may have. -/
def nameLimit : Nat := 255

/-- The most bytes a path text may have. -/
def pathLimit : Nat := 4095

/-- Why a path leads nowhere. -/
inductive Obstacle
  | missing
  | throughFile
  | tooLong
  | nullCharacter
deriving DecidableEq, Repr

/-- An obstacle as the fault of using a path. -/
def Obstacle.fault (path : String) : Obstacle → Fault
  | missing => .fileNotFound path
  | throughFile => .notDirectory path
  | tooLong => .nameTooLong path
  | nullCharacter => .nullInPath

/-- Follows names from a place; only directories lead on. -/
def follow (tree : FileTree) (place : Place) : List String → Except Obstacle Place
  | [] => .ok place
  | name :: rest =>
      match tree.entry? place with
      | some .directory =>
          if name = "" ∨ name = "." then follow tree place rest
          else if name = ".." then follow tree place.dropLast rest
          else if name.utf8ByteSize > nameLimit then .error .tooLong
          else if (tree.entry? (place ++ [name])).isSome then follow tree (place ++ [name]) rest
          else .error .missing
      | some (.file _) => .error .throughFile
      | none => .error .missing

/-- What keeps a path text from being followed at all. -/
def textObstacle? (path : String) : Option Obstacle :=
  if path.toList.contains '\x00' then some .nullCharacter
  else if path = "" then some .missing
  else if path.utf8ByteSize > pathLimit then some .tooLong
  else none

/-- Where a path text starts. -/
def startOf (tree : FileTree) (path : String) : Place :=
  if path.toList.head? = some '/' then [] else tree.workDir

/-- The place a path text leads to. -/
def locate (tree : FileTree) (path : String) : Except Obstacle Place :=
  match textObstacle? path with
  | some obstacle => .error obstacle
  | none => follow tree (tree.startOf path) (pathComponents path)

/-- The place of a file, or none if the path leads to no file.  A name that is too long to be
looked up is a fault. -/
def locateFile (tree : FileTree) (path : String) : Except Fault (Option Place) :=
  match tree.locate path with
  | .ok place =>
      match tree.entry? place with
      | some (.file _) => .ok (some place)
      | _ => .ok none
  | .error .tooLong => .error (.nameTooLong path)
  | .error _ => .ok none

/-- What stands where a path text leads to. -/
def find? (tree : FileTree) (path : String) : Option FileEntry :=
  match tree.locate path with
  | .ok place => tree.entry? place
  | .error _ => none

/-! ## Reading and writing -/

/-- The place of a file and its bytes. -/
def readAt (tree : FileTree) (path : String) : Except Fault (Place × Bytes) :=
  match tree.locate path with
  | .error obstacle => .error (obstacle.fault path)
  | .ok place =>
      match tree.entry? place with
      | some (.file data) => .ok (place, data)
      | some .directory => .error (.isDirectory path)
      | none => .error (.fileNotFound path)

/-- The bytes of a file. -/
def read (tree : FileTree) (path : String) : Except Fault Bytes :=
  (tree.readAt path).map Prod.snd

/-- The text of a file, with every line break made a line feed. -/
def readText (tree : FileTree) (path : String) : Except Fault (List Char) := do
  let data ← tree.read path
  match Text.Utf8.decode data with
  | .ok text => return Text.unifyNewlines text
  | .error refusal => .error (.undecodable refusal)

/-- Where a file of a name would be written in a directory.  A slash behind the name asks for a
directory. -/
def targetIn (tree : FileTree) (path : String) (parent : Place) (name : String)
    (slashed : Bool) : Except Fault Place :=
  if tree.entry? parent != some .directory then .error (.notDirectory path)
  else if slashed ∨ name = "." ∨ name = ".." then .error (.isDirectory path)
  else if name.utf8ByteSize > nameLimit then .error (.nameTooLong path)
  else if tree.entry? (parent ++ [name]) = some .directory then .error (.isDirectory path)
  else .ok (parent ++ [name])

/-- Where a file of a path text would be written. -/
def target (tree : FileTree) (path : String) : Except Fault Place :=
  match textObstacle? path with
  | some obstacle => .error (obstacle.fault path)
  | none =>
      let reversed := (pathComponents path).reverse
      match reversed.dropWhile (· == "") with
      | [] => .error (.isDirectory path)
      | name :: before =>
          match tree.follow (tree.startOf path) before.reverse with
          | .error obstacle => .error (obstacle.fault path)
          | .ok parent => tree.targetIn path parent name (reversed.head? == some "")

/-- The tree after a file is written. -/
def write (tree : FileTree) (path : String) (data : Bytes) : Except Fault FileTree := do
  let place ← tree.target path
  return tree.set place (.file data)

/-- The tree without a file. -/
def remove (tree : FileTree) (path : String) : Except Fault FileTree := do
  let (place, _) ← tree.readAt path
  return { tree with entries := tree.entries.filter fun e => e.1 != place }

/-! ## Filling a tree -/

/-- Makes directories along a chain of names from a place; those made before a failure stay. -/
def makeDirectoriesAt (tree : FileTree) (path : String) (place : Place) :
    List String → FileTree × Except Fault Unit
  | [] => (tree, .ok ())
  | name :: rest =>
      if name = ".." then makeDirectoriesAt tree path place.dropLast rest
      else
        let next := place ++ [name]
        match tree.entry? next with
        | some .directory => makeDirectoriesAt tree path next rest
        | some (.file _) =>
            (tree, .error (if rest.isEmpty then .fileExists path else .notDirectory path))
        | none =>
            if name.utf8ByteSize > nameLimit then (tree, .error (.nameTooLong path))
            else makeDirectoriesAt (tree.set next .directory) path next rest

/-- Makes a directory at a path and those on the way to it. -/
def makeDirectories (tree : FileTree) (path : Path) : FileTree × Except Fault Unit :=
  match textObstacle? path.text with
  | some obstacle => (tree, .error (obstacle.fault path.text))
  | none => tree.makeDirectoriesAt path.text (tree.startOf path.text) path.names

/-- Puts an entry at a path, and directories on the way to it. -/
def put (tree : FileTree) (path : Path) (entry : FileEntry) : FileTree × Except Fault Unit :=
  match tree.makeDirectories path.parent, entry with
  | (made, .error fault), _ => (made, .error fault)
  | (made, .ok _), .directory => made.makeDirectories path
  | (made, .ok _), .file data =>
      match made.write path.text data with
      | .ok written => (written, .ok ())
      | .error fault => (made, .error fault)

/-- The files under the working directory that another tree has not, with their paths. -/
def changes (before after : FileTree) : List (String × Bytes) :=
  after.entries.filterMap fun (place, entry) =>
    match entry with
    | .directory => none
    | .file data =>
        if before.entry? place = some entry ∨ !after.workDir.isPrefixOf place then none
        else some (String.intercalate "/" (place.drop after.workDir.length), data)

end FileTree

end Asm65
