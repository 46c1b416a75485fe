import Asm65.Program.Layout

/-!
# Images

The image of a program is one run of bytes that starts at the position of the first block.  A
block that lies further on is reached by zeros; a block that lies further back follows the bytes
before it without a gap.
-/

namespace Asm65

namespace Block

/-- The bytes of chunks; `written` holds the bytes so far, newest first. -/
def encodeFrom (written : Bytes) : List Chunk → Except Fault Bytes
  | [] => .ok written.reverse
  | chunk :: rest =>
      match chunk.encode with
      | .ok data => encodeFrom (data.reverseAux written) rest
      | .error fault => .error fault

/-- The bytes of a block. -/
def encode (block : Block) : Except Fault Bytes :=
  encodeFrom [] block.chunks

end Block

namespace Program

/-- The image of blocks from a base address on; `written` holds the bytes so far, newest first,
and `size` is their number. -/
def imageFrom (base : Int) (size : Nat) (written : Bytes) : Program → Except Fault Bytes
  | [] => .ok written.reverse
  | block :: rest =>
      match block.position with
      | none => .error .positionMissing
      | some position =>
          let gap := (position - (base + size)).toNat
          match Bytes.checkSize gap *> block.encode with
          | .error fault => .error fault
          | .ok body =>
              let newSize := size + gap + body.length
              if newSize > addressSpace then .error (.imageTooLarge newSize)
              else imageFrom base newSize (body.reverseAux (List.replicate gap 0 ++ written)) rest

/-- Where the image of a program starts. -/
def origin : Program → Int
  | [] => 0
  | block :: _ => block.position.getD 0

/-- The image of a program. -/
def image (program : Program) : Except Fault Bytes :=
  imageFrom program.origin 0 [] program

end Program

end Asm65
