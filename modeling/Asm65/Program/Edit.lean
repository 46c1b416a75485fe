import Asm65.Program.Basic

/-!
# Changing a program by hand

Blocks are named by their place in the program; negative numbers count from the end.
-/

namespace Asm65.Program

/-- Changes a block. -/
def modifyBlock (program : Program) (index : Int) (change : Block → Block) :
    Except Fault Program :=
  let place := if index < 0 then program.length + index else index
  if 0 ≤ place ∧ place < program.length then .ok (program.modify place.toNat change)
  else .error .unknownBlock

/-- Adds a chunk at the end of a block. -/
def addChunk (program : Program) (index : Int) (chunk : Chunk) : Except Fault Program :=
  modifyBlock program index fun block => { block with chunks := block.chunks ++ [chunk] }

/-- Gives a block a position or takes it away. -/
def setPosition (program : Program) (index : Int) (position : Option Int) :
    Except Fault Program :=
  modifyBlock program index fun block => { block with position }

/-- Adds a block at the end. -/
def addBlock (program : Program) (block : Block) : Program :=
  program ++ [block]

end Asm65.Program
