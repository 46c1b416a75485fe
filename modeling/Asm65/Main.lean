import Asm65.Command.Lookup

/-!
# The command line

Gathers the files that a run looks at, runs the command on them and writes what has changed.
-/

namespace Asm65.Main

/-- What stands at a path. -/
def probe (path : String) : IO (Option FileEntry) := do
  try
    let real ← IO.FS.realPath path
    if ← real.isDir then return some .directory
    let data ← IO.FS.readBinFile path
    return some (.file data.toList)
  catch _ => return none

/-- Adds the files that a run looks at until there are no more. -/
partial def gather (arguments : List String) (tree : FileTree) (asked : List String) :
    IO FileTree := do
  let wanted := (Command.lookups tree arguments).filter fun path => !asked.contains path
  if wanted.isEmpty then return tree
  let mut known := tree
  for path in wanted do
    match ← probe path with
    | some entry => known := (known.put (.ofText path) entry).1
    | none => pure ()
  gather arguments known (wanted ++ asked)

/-- Writes the files that a run has changed. -/
def save (before after : FileTree) : IO Unit := do
  for (place, entry) in after.entries do
    match entry with
    | .directory => pure ()
    | .file data =>
        if before.entry? place != some entry then
          IO.FS.writeBinFile (Path.text ⟨.slash, place⟩) ⟨data.toArray⟩

/-- Runs the command on the files at hand. -/
def run (arguments : List String) : IO UInt32 := do
  let here ← IO.currentDir
  let workDir := (Path.ofText here.toString).names
  let tree ← gather arguments (FileTree.empty workDir) []
  match Command.answer tree arguments with
  | .refused => do
      (← IO.getStderr).putStr Command.usage
      return 2
  | .help => do
      (← IO.getStdout).putStr Command.usage
      return 0
  | .report report => do
      save tree report.tree
      (← IO.getStdout).putStr report.stdout
      (← IO.getStderr).putStr report.stderr
      return UInt32.ofNat report.status

end Asm65.Main

/-- Assembles the input file that the arguments name. -/
def main (arguments : List String) : IO UInt32 :=
  Asm65.Main.run arguments
