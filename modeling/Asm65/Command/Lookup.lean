import Asm65.Command.Arguments

/-!
# Paths a run looks at

Which files a run needs is known only while it runs, since a file may include others.  Given the
files known so far, these are the paths whose contents could change what the run does.
-/

namespace Asm65.Command

/-- The paths of the files that a text under a name may include. -/
def includedPaths (library : Library) (unit : SourceUnit) : List String :=
  let home := ((library.unitPlace unit.name).toOption).join
  match Statement.parse 0 unit.text with
  | .error _ => []
  | .ok statements =>
      statements.flatMap fun
        | .includeFile _ file => (library.candidates home file).map Path.text
        | _ => []

/-- The paths that a run with some arguments looks at. -/
def lookups (tree : FileTree) (arguments : List String) : List String :=
  match sort? arguments with
  | none => []
  | some sorted =>
      let images := defaultOutput :: sorted.values .output
      let maps := images.filterMap fun image =>
        (mapPath (.ofText image)).toOption.map Path.text
      let outputs := images ++ maps ++ sorted.values .symbols
      let searchPaths := sorted.values .includePath
      let library : Library := ⟨tree, searchPaths.map .ofText⟩
      let units := sorted.names.flatMap fun input =>
        ((Session.start searchPaths).addFile tree input).session.units
      sorted.names ++ outputs ++ outputs.map (fun path => (Path.ofText path).parent.text) ++
        searchPaths ++ units.flatMap (includedPaths library)

/-- How the command is used. -/
def usage : String :=
  console <| List.map plainLine
    ["Usage: m6502asm [OPTIONS] INPUT_FILE",
      "",
      "  Assemble 6502 source code into a ROM image.",
      "",
      "Options:",
      "  -o, --output FILE        Output ROM image  [default: out.rom]",
      "  -I, --include DIRECTORY  Add include search path (can be repeated)",
      "  -s, --symbols FILE       Generate symbol file",
      "  --map / --no-map         Write the JSON source map to OUTPUT.map (default: enabled)",
      "  -v, --verbose            Verbose output",
      "  --version                Show the version and exit.",
      "  --help                   Show this message and exit."]

end Asm65.Command
