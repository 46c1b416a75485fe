import Asm65.Command.Console

/-!
# Arguments of the command

The command takes one input file and options.  Options stand anywhere before a double dash; short
ones may be run together, and a value may follow in the same argument or in the next.  This is one
way of reading arguments; what a run does with what they come to does not depend on it.
-/

namespace Asm65.Command

/-- Options without a value. -/
inductive Switch
  | map
  | noMap
  | verbose
  | version
  | help
deriving DecidableEq, Repr

/-- Options with a value. -/
inductive Setting
  | output
  | includePath
  | symbols
deriving DecidableEq, Repr

/-- An option by its name. -/
inductive Named
  | switch (switch : Switch)
  | setting (setting : Setting)
deriving DecidableEq, Repr

/-- An option as it was given. -/
inductive Given
  | switch (switch : Switch)
  | setting (setting : Setting) (value : String)
deriving DecidableEq, Repr

/-- The options with long names. -/
def longName? : String → Option Named
  | "--output" => some (.setting .output)
  | "--include" => some (.setting .includePath)
  | "--symbols" => some (.setting .symbols)
  | "--map" => some (.switch .map)
  | "--no-map" => some (.switch .noMap)
  | "--verbose" => some (.switch .verbose)
  | "--version" => some (.switch .version)
  | "--help" => some (.switch .help)
  | _ => none

/-- The options with short names. -/
def shortName? : Char → Option Named
  | 'o' => some (.setting .output)
  | 'I' => some (.setting .includePath)
  | 's' => some (.setting .symbols)
  | 'v' => some (.switch .verbose)
  | _ => none

/-- Options found in one argument, and a setting whose value is in the next. -/
abbrev Found :=
  List Given × Option Setting

/-- The options of a run of short names.  What follows a setting is its value. -/
def cluster? : List Char → Option Found
  | [] => some ([], none)
  | c :: rest =>
      match shortName? c with
      | some (.switch s) => (cluster? rest).map fun (given, next) => (.switch s :: given, next)
      | some (.setting s) =>
          if rest.isEmpty then some ([], some s)
          else some ([.setting s (String.ofList rest)], none)
      | none => none

/-- The options of an argument that starts with a dash. -/
def option? (argument : List Char) : Option Found :=
  let name := argument.takeWhile (· != '=')
  let value := (argument.drop name.length).tail?
  match longName? (String.ofList name) with
  | some (.switch s) => if value.isSome then none else some ([.switch s], none)
  | some (.setting s) =>
      match value with
      | some text => some ([.setting s (String.ofList text)], none)
      | none => some ([], some s)
  | none => if argument.take 2 = ['-', '-'] then none else cluster? argument.tail

/-- Arguments sorted into options and names, both in order. -/
structure Arguments where
  given : List Given
  names : List String
deriving DecidableEq, Repr

/-- Sorts arguments; `given` and `names` hold what was found so far, newest first, and `pending`
is a setting that waits for its value. -/
def sortFrom (given : List Given) (names : List String) (pending : Option Setting) :
    List String → Option Arguments
  | [] => if pending.isSome then none else some ⟨given.reverse, names.reverse⟩
  | argument :: rest =>
      match pending with
      | some s => sortFrom (.setting s argument :: given) names none rest
      | none =>
          if argument = "--" then some ⟨given.reverse, names.reverse ++ rest⟩
          else if argument.toList.head? = some '-' ∧ argument ≠ "-" then
            match option? argument.toList with
            | some (found, next) => sortFrom (found.reverse ++ given) names next rest
            | none => none
          else sortFrom given (argument :: names) none rest

/-- Sorts arguments into options and names; there is no result if an option is not known, lacks
its value or has one it does not take. -/
def sort? (arguments : List String) : Option Arguments :=
  sortFrom [] [] none arguments

namespace Arguments

/-- The values of a setting in order. -/
def values (arguments : Arguments) (setting : Setting) : List String :=
  arguments.given.filterMap fun
    | .setting s value => if s = setting then some value else none
    | .switch _ => none

/-- The switches in order. -/
def switches (arguments : Arguments) : List Switch :=
  arguments.given.filterMap fun
    | .switch s => some s
    | .setting _ _ => none

/-- Whether a source map is asked for: the last word on it counts. -/
def wantsMap (arguments : Arguments) : Bool :=
  (arguments.switches.filter fun s => s = .map ∨ s = .noMap).getLast? != some .noMap

end Arguments

/-- Where the image goes when no output is named. -/
def defaultOutput : String :=
  "out.rom"

/-- What the command is asked for. -/
inductive Request
  | version
  | help
  | assemble (options : Options)
deriving DecidableEq, Repr

/-- Why arguments are not usable. -/
inductive Rejection
  /-- They are not what the command takes. -/
  | usage
  /-- A path has a null character, so nothing can be said about it. -/
  | nullCharacter
deriving DecidableEq, Repr

/-- What a path in the arguments has to be. -/
inductive Expected
  | file
  | directory
  /-- Anything but a directory. -/
  | writable
deriving DecidableEq, Repr

/-- Whether an entry, or nothing, is what was expected. -/
def Expected.holds : Expected → Option FileEntry → Bool
  | file, some (.file _) => true
  | file, _ => false
  | directory, entry => entry == some .directory
  | writable, entry => entry != some .directory

/-- Checks a path in the arguments. -/
def checkPath (tree : FileTree) (expected : Expected) (path : String) : Except Rejection Unit :=
  if FileTree.textObstacle? path = some .nullCharacter then .error .nullCharacter
  else if expected.holds (tree.find? path) then .ok ()
  else .error .usage

namespace Arguments

/-- The settings in the order in which they first appear. -/
def settings (arguments : Arguments) : List Setting :=
  (arguments.given.filterMap fun
    | .setting s _ => some s
    | .switch _ => none).eraseDups

/-- Checks the values of a setting.  Of all outputs only the last one counts. -/
def checkSetting (arguments : Arguments) (tree : FileTree) (setting : Setting) :
    Except Rejection Unit :=
  match setting with
  | .includePath => (arguments.values setting).forM (checkPath tree .directory)
  | .output | .symbols =>
      (arguments.values setting).getLast?.toList.forM (checkPath tree .writable)

/-- Where the image goes. -/
def output (arguments : Arguments) : String :=
  ((arguments.values .output).getLast?).getD defaultOutput

/-- The options that the arguments ask for.  Settings are checked first, then the input and the
place of the image. -/
def options (arguments : Arguments) (tree : FileTree) : Except Rejection Options := do
  arguments.settings.forM (arguments.checkSetting tree)
  match arguments.names with
  | [] => .error .usage
  | input :: more =>
      checkPath tree .file input
      checkPath tree .writable arguments.output
      if more.isEmpty then
        return {
          input
          output := arguments.output
          searchPaths := arguments.values .includePath
          symbols := (arguments.values .symbols).getLast?
          writeMap := arguments.wantsMap
          verbose := arguments.switches.contains .verbose }
      else .error .usage

/-- The request of sorted arguments.  Asking for the version or for help goes before all else. -/
def request (arguments : Arguments) (tree : FileTree) : Except Rejection Request :=
  match arguments.switches.find? fun s => s = .version ∨ s = .help with
  | some .version => .ok .version
  | some _ => .ok .help
  | none => (arguments.options tree).map .assemble

end Arguments

/-- The request of arguments. -/
def request (tree : FileTree) (arguments : List String) : Except Rejection Request :=
  match sort? arguments with
  | none => .error .usage
  | some sorted => sorted.request tree

/-- The options of arguments that ask for an assembly. -/
def reading : Reading :=
  fun tree arguments =>
    match request tree arguments with
    | .ok (.assemble options) => some options
    | _ => none

/-- The version line. -/
def versionLine : String :=
  "m6502asm, version 1.0.0"

/-- The status of a run that was given a path with a null character. -/
def nullStatus : Nat := 1

/-- What the command does with its arguments. -/
inductive Answer
  /-- The arguments are not usable. -/
  | refused
  | help
  | report (report : Report)

/-- What the command answers to its arguments, on a screen that takes every line. -/
def answer (tree : FileTree) (arguments : List String) : Answer :=
  match run reading .clear tree arguments with
  | some outcome => .report outcome.report
  | none =>
      match request tree arguments with
      | .ok .version => .report ⟨0, console [message versionLine], "", tree⟩
      | .error .nullCharacter => .report ⟨nullStatus, "", "", tree⟩
      | .error .usage => .refused
      | .ok _ => .help

end Asm65.Command
