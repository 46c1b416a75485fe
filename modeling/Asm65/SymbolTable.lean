import Asm65.Program.Layout

/-!
# Symbol tables

A symbol table is a text with a line for each label, in the order of their names.
-/

namespace Asm65.SymbolTable

/-- The lines before the labels. -/
def header : String :=
  "# Symbol table\n# Generated by m6502asm\n"

/-- The line of a label. -/
def line (name : String) (address : Int) : String :=
  name ++ " " ++ Event.address address ++ "\n"

/-- The symbol table of labels. -/
def text (labels : Labels) : String :=
  header ++ String.join (labels.toList.map fun (name, address) => line name address)

end Asm65.SymbolTable
