import Asm65.Command.Complaint
import Asm65.Command.Screen

/-!
# Runs of the command

A run reads the input, assembles it and writes the results one after the other.  A verbose run also
shows what it does.  The first file that cannot be written and the first line that cannot be shown
end the run; what was written before stays.

How arguments are read is left open here: a run takes what they come to.
-/

namespace Asm65.Command

/-- What an assembly is asked for; paths are texts as they were given. -/
structure Options where
  input : String
  output : String
  searchPaths : List String
  symbols : Option String
  writeMap : Bool
  verbose : Bool
deriving DecidableEq, Repr

/-- Where the source map of an image goes. -/
def mapPath (image : Path) : Except Fault Path :=
  image.withSuffix ".map"

/-- A file to be written. -/
structure Write where
  path : String
  data : Bytes
  /-- What is noted when the file is written. -/
  events : List Event
  /-- What is shown when the file is written. -/
  line : String
deriving DecidableEq, Repr

namespace Write

/-- The image file. -/
def image (path : Path) (output : Output) : Write :=
  { path := path.text
    data := output.code
    events := [.wroteImage output.code.length path.text]
    line := "Wrote " ++ toString output.code.length ++ " bytes to " ++ path.text }

/-- The source map file beside the image file. -/
def sourceMap (imagePath : Path) (units : Units) (output : Output) : Except Fault Write := do
  let path ← mapPath imagePath
  let map ← output.sourceMap units
  let text ← map.text none
  let write : Write :=
    { path := path.text
      data := text.toUTF8.toList
      events := [.wroteMap map.entries.length path.text]
      line := "Wrote source map to " ++ path.text }
  return write

/-- The symbol file. -/
def symbols (path : Path) (output : Output) : Write :=
  { path := path.text
    data := output.symbols.toUTF8.toList
    events := []
    line := "Wrote symbols to " ++ path.text }

/-- The files an assembly writes, in order. -/
def all (options : Options) (units : Units) (output : Output) : List (Except Fault Write) :=
  [.ok (image (.ofText options.output) output)] ++
    (if options.writeMap then [sourceMap (.ofText options.output) units output] else []) ++
    (options.symbols.map fun path => .ok (symbols (.ofText path) output)).toList

end Write

/-- What a run has done so far. -/
structure Progress where
  tree : FileTree
  /-- Newest first. -/
  events : List Event
  /-- What is shown, newest first. -/
  shown : List String

namespace Progress

/-- A run that has done nothing. -/
def start (tree : FileTree) : Progress :=
  ⟨tree, [], []⟩

/-- Shows lines on a stream, if there is one, up to the first that fails. -/
def say (stream : Option Stream) (progress : Progress) (lines : List String) :
    Progress × Except Fault Unit :=
  match stream with
  | none => (progress, .ok ())
  | some stream =>
      let (shown, answer) := stream.showAll progress.shown lines
      ({ progress with shown }, answer)

/-- Writes a file and says so. -/
def write (stream : Option Stream) (progress : Progress) (w : Write) :
    Progress × Except Fault Unit :=
  match progress.tree.write w.path w.data with
  | .error fault => (progress, .error fault)
  | .ok tree => say stream { progress with tree, events := w.events ++ progress.events } [w.line]

/-- Writes files in order up to the first that fails. -/
def writeAll (stream : Option Stream) (progress : Progress) :
    List (Except Fault Write) → Progress × Except Fault Unit
  | [] => (progress, .ok ())
  | .error fault :: _ => (progress, .error fault)
  | .ok w :: rest =>
      match progress.write stream w with
      | (next, .error fault) => (next, .error fault)
      | (next, .ok _) => writeAll stream next rest

end Progress

/-- A failed run: the failure, and the line of the source it is about. -/
structure Stop where
  complaint : Complaint
  sourceLine : Except Fault (Option String)

namespace Stop

/-- The end of a run whose session failed. -/
def ofFailure (units : Units) (failure : Failure) : Stop :=
  match failure with
  | .problem _ _ (some tag) => ⟨.ofFailure failure, (units.lineComment (some tag)).map some⟩
  | _ => ⟨.ofFailure failure, .ok none⟩

/-- The end of a run that could not write or show something. -/
def ofFault (fault : Fault) : Stop :=
  ⟨.ofFault fault, .ok none⟩

end Stop

/-- The line that begins a run. -/
def heading (options : Options) : String :=
  "Assembling " ++ (Path.ofText options.input).text ++ "..."

/-- The lines that end a run without failure. -/
def summary (output : Output) : List String :=
  ["Assembly complete: " ++ toString output.code.length ++ " bytes at " ++
      Event.address output.origin,
    "Defined " ++ toString output.labels.size ++ " labels"]

/-- Writes all results of an assembly and sums up. -/
def deliver (stream : Option Stream) (options : Options) (progress : Progress) (units : Units)
    (output : Output) : Progress × Except Fault Unit :=
  match progress.writeAll stream (Write.all options units output) with
  | (written, .error fault) => (written, .error fault)
  | (written, .ok _) => written.say stream (summary output)

/-- Assembles and writes as the options say.  Only a verbose run has a stream to show things on. -/
def build (stream : Option Stream) (options : Options) (tree : FileTree) :
    Progress × Except Stop Unit :=
  match (Progress.start tree).say stream [heading options] with
  | (begun, .error fault) => (begun, .error (.ofFault fault))
  | (begun, .ok _) =>
      let step := (Session.start options.searchPaths).addFile tree options.input
      let progress := { begun with events := step.events ++ begun.events }
      match step.answer with
      | .error failure => (progress, .error (.ofFailure step.session.units failure))
      | .ok _ =>
          match step.session.assemble with
          | (events, .error failure) =>
              ({ progress with events := events ++ progress.events },
                .error (.ofFailure step.session.units failure))
          | (events, .ok output) =>
              match deliver stream options { progress with events := events ++ progress.events }
                  step.session.units output with
              | (delivered, .error fault) => (delivered, .error (.ofFault fault))
              | (delivered, .ok _) => (delivered, .ok ())

/-- How a run ends. -/
inductive Ending
  | exit (status : Nat)
  /-- The complaint about a failure failed itself. -/
  | broken (fault : Fault)
deriving DecidableEq, Repr

/-- Complains about a failed run: what is said, and how the run ends. -/
def Stop.complain (stop : Stop) (stream : Stream) (verbose : Bool) : List String × Ending :=
  match (if verbose then stop.sourceLine else .ok none) with
  | .error fault => ([], .broken fault)
  | .ok sourceLine =>
      match stream.showAll [] (stop.complaint.lines verbose (some "Assembly") sourceLine) with
      | (said, .error fault) => (said.reverse, .broken fault)
      | (said, .ok _) => (said.reverse, .exit stop.complaint.kind.status)

/-- What a run leaves behind. -/
structure Outcome where
  ending : Ending
  /-- What was shown, in order. -/
  shown : List String
  /-- What was noted, in order. -/
  noted : List Event
  /-- What was complained about, in order. -/
  said : List String
  tree : FileTree

/-- Assembles as the options say.  Only a verbose run shows and notes what it does. -/
def assemble (screen : Screen) (options : Options) (tree : FileTree) : Outcome :=
  let stream := if options.verbose then some screen.out else none
  let (progress, answer) := build stream options tree
  let noted := if options.verbose then progress.events.reverse else []
  match answer with
  | .ok _ => ⟨.exit 0, progress.shown.reverse, noted, [], progress.tree⟩
  | .error stop =>
      let (said, ending) := stop.complain screen.err options.verbose
      ⟨ending, progress.shown.reverse, noted, said, progress.tree⟩

/-- How arguments are read: the options they come to, if they ask for an assembly and can be
used with the files there are. -/
abbrev Reading :=
  FileTree → List String → Option Options

/-- Runs the command on arguments that ask for an assembly. -/
def run (reading : Reading) (screen : Screen) (tree : FileTree) (arguments : List String) :
    Option Outcome :=
  (reading tree arguments).map fun options => assemble screen options tree

end Asm65.Command
