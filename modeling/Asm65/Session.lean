import Asm65.Inclusion
import Asm65.Program.Build
import Asm65.Program.Image
import Asm65.SourceMap
import Asm65.SymbolTable

/-!
# Sessions

A session collects the statements of any number of units and assembles them into one program.
Units stay registered when reading them fails; statements are added only when it succeeds.
-/

namespace Asm65

/-- Why a session could not do what it was asked for. -/
inductive Failure
  /-- A problem together with its message, which names the place. -/
  | problem (message : String) (problem : Problem) (tag : Option Tag)
  | fault (fault : Fault)
deriving DecidableEq, Repr

namespace Failure

/-- An error as a failure. -/
def ofError (units : Units) : Error → Failure
  | .fault f => .fault f
  | .problem p tag =>
      match units.describe p tag with
      | .ok message => .problem message p tag
      | .error f => .fault f

end Failure

/-- What an assembly produces. -/
structure Output where
  statements : List Statement
  program : Program
  code : Bytes
  labels : Labels

namespace Output

/-- Where the image starts. -/
def origin (output : Output) : Int :=
  Program.origin output.program

/-- The entries of the source map. -/
def mapEntries (output : Output) : List MapEntry :=
  Program.mapEntries output.program

/-- The source map, with the units that the entries refer to. -/
def sourceMap (output : Output) (units : Units) : Except Fault SourceMap :=
  SourceMap.ofEntries units output.mapEntries

/-- The symbol table. -/
def symbols (output : Output) : String :=
  SymbolTable.text output.labels

end Output

/-- Units and statements read so far. -/
structure Session where
  searchPaths : List Path
  units : Units
  statements : List Statement

namespace Session

/-- A session that has read nothing. -/
def start (searchPaths : List String) : Session :=
  ⟨searchPaths.map Path.ofText, [], []⟩

/-- What a step of a session leads to: the session after it, what was done, newest first, and an
answer. -/
structure Step (α : Type) where
  session : Session
  events : List Event
  answer : Except Failure α

/-- Reads a text under a name. -/
def addText (session : Session) (tree : FileTree) (name : String) (text : List Char) :
    Step Unit :=
  let library : Library := ⟨tree, session.searchPaths⟩
  match library.read name text ⟨session.units, []⟩ with
  | (reading, .ok statements) =>
      ⟨{ session with units := reading.units, statements := session.statements ++ statements },
        reading.events, .ok ()⟩
  | (reading, .error e) =>
      ⟨{ session with units := reading.units }, reading.events,
        .error (.ofError reading.units e)⟩

/-- Reads a file. -/
def addFile (session : Session) (tree : FileTree) (path : String) : Step Unit :=
  let name := (Path.ofText path).text
  match tree.readText name with
  | .error fault => ⟨session, [], .error (.fault fault)⟩
  | .ok text => session.addText tree name text

/-- The events of an image; a program without blocks has none. -/
def imageEvents (program : Program) (code : Bytes) : List Event :=
  if program.isEmpty then [] else [.emitted code.length (Program.origin program)]

/-- Assembles the statements read so far. -/
def assemble (session : Session) : List Event × Except Failure Output :=
  match Program.ofStatements session.statements with
  | .error e => ([], .error (.ofError session.units e))
  | .ok built =>
      let first := Event.built built.length session.statements.length
      let layout := Program.layout built
      let done := layout.events ++ [first]
      match layout.labels with
      | .error e => (done, .error (.ofError session.units e))
      | .ok labels =>
          match Program.image layout.program with
          | .error fault => (done, .error (.fault fault))
          | .ok code =>
              (.assembled code.length labels.size :: imageEvents layout.program code ++ done,
                .ok ⟨session.statements, layout.program, code, labels⟩)

/-- Assembles after a first step. -/
def Step.assemble {α : Type} (step : Step α) : Except Failure (Units × Output) :=
  match step.answer with
  | .error failure => .error failure
  | .ok _ => step.session.assemble.2.map fun output => (step.session.units, output)

/-- Assembles a text in a session of its own. -/
def assembleText (tree : FileTree) (searchPaths : List String) (name : String)
    (text : List Char) : Except Failure (Units × Output) :=
  ((start searchPaths).addText tree name text).assemble

/-- Assembles a file in a session of its own. -/
def assembleFile (tree : FileTree) (searchPaths : List String) (path : String) :
    Except Failure (Units × Output) :=
  ((start searchPaths).addFile tree path).assemble

end Session

end Asm65
