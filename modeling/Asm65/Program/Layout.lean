import Std.Data.TreeMap
import Asm65.Event
import Asm65.Program.Basic
import Asm65.Program.Walk

/-!
# Layout

A program is laid out in three passes.  The first measures the blocks, the second gives each block
its position and binds the labels, the third gives each instruction its position and replaces
labels by what they stand for.  Addresses wrap around at the end of the address space.

A pass that fails leaves the program as far as it has come; the layout tells what is left.
-/

namespace Asm65

/-- The addresses of labels. -/
abbrev Labels :=
  Std.TreeMap String Int

/-- Addresses are counted modulo this number. -/
def addressSpace : Nat := 0x10000

/-- The most bytes a program may have. -/
def capacity : Int := 0xFFFF

/-- An address brought back into the address space. -/
def wrap (address : Int) : Int :=
  address % addressSpace

/-! ## Lengths -/

namespace Block

/-- The sum of the lengths of chunks, on top of a sum so far. -/
def sumLengths (sum : Int) : List Chunk → Except Fault Int
  | [] => .ok sum
  | chunk :: rest =>
      match chunk.length with
      | .ok length => sumLengths (sum + length) rest
      | .error fault => .error fault

/-- Measures a block; `total` is the size of the blocks before it. -/
def measure (total : Int) (block : Block) : Block × Except Error Int :=
  match sumLengths 0 block.chunks with
  | .error fault => (block, .error (.fault fault))
  | .ok length =>
      ({ block with length },
        if total + length > capacity then .error (.problem .capacity none)
        else .ok (total + length))

end Block

/-! ## Positions and labels -/

/-- How far the placement of blocks has come. -/
structure Placement where
  address : Int
  labels : Labels
  events : List Event

namespace Placement

/-- The placement before the first block. -/
def start : Placement :=
  ⟨0, ∅, []⟩

/-- Binds the label of a block to its address; a later label of the same name wins. -/
def bind (p : Placement) : Option String → Placement
  | none => p
  | some name =>
      match p.labels[name]? with
      | some old =>
          { p with
            labels := p.labels.insert name p.address
            events := .relabelled name old p.address :: p.events }
      | none => { p with labels := p.labels.insert name p.address }

end Placement

namespace Block

/-- Gives a block its position, unless it has one, and binds its label to it. -/
def place (p : Placement) (block : Block) : Block × Placement :=
  let address := block.position.getD p.address
  let bound := Placement.bind { p with address } block.label
  ({ block with position := some address },
    { bound with address := wrap (address + block.length) })

/-- Places blocks; `passed` holds the placed ones so far, newest first. -/
def placeFrom (passed : Program) (p : Placement) : Program → Program × Placement
  | [] => (passed.reverse, p)
  | block :: rest =>
      let (placed, next) := block.place p
      placeFrom (placed :: passed) next rest

end Block

/-! ## References -/

/-- The distance from the instruction after a branch to its target: the number from -32768 to
32767 that leads there modulo the address space. -/
def branchOffset (position target : Int) : Int :=
  let distance := wrap (target - wrap (position + 2))
  if distance ≥ 0x8000 then distance - addressSpace else distance

/-- The address of a label that is referred to at a place. -/
def Labels.find (labels : Labels) (name : String) (tag : Option Tag) : Except Error Int :=
  match labels[name]? with
  | some address => .ok address
  | none => .error (.problem (.unknownLabel name) tag)

namespace Param

/-- The parameter of an instruction at a position with its label replaced. -/
def resolve (labels : Labels) (position : Int) : Param → Except Error Param
  | resolved mode value => .ok (.resolved mode value)
  | address mode tag name => do
      let target ← labels.find name tag
      if mode = .pcRelative then
        let offset := branchOffset position target
        if -128 ≤ offset ∧ offset ≤ 127 then return .resolved mode (.byte offset)
        else .error (.problem (.branchRange name offset) tag)
      else return .resolved mode (.word target)
  | lowByte mode tag name => do
      let target ← labels.find name tag
      return .resolved mode (.byte target)
  | highByte mode tag name => do
      let target ← labels.find name tag
      return .resolved mode (.byte (target / 0x100))
  | unknown => .error (.fault .notParameter)

end Param

namespace Chunk

/-- Settles a chunk at a position, and gives the position after it. -/
def settle (labels : Labels) (position : Int) : Chunk → Chunk × Except Error Int
  | op tag code param _ =>
      match param.resolve labels position with
      | .ok resolved => (op tag code resolved position, .ok (wrap (position + code.length)))
      | .error e => (op tag code param position, .error e)
  | bytes data => (bytes data, .ok (wrap (position + data.length)))
  | vector tag label value =>
      match labels.find label tag with
      | .ok address => (vector tag label address, .ok (wrap (position + vectorWidth)))
      | .error e => (vector tag label value, .error e)
  | unknown => (unknown, .error (.fault .notChunk))

/-- An instruction's parameter has to fill the bytes after its opcode. -/
def checkWidth : Chunk → Except Error Unit
  | op _ code param _ =>
      if param.width = code.length - 1 then .ok ()
      else
        .error (.fault (Decimal.stating [param.width, code.length]
          (.parameterWidth code.op code.mode param.width code.length)))
  | _ => .ok ()

end Chunk

namespace Block

/-- Settles the chunks of a placed block. -/
def settle (labels : Labels) (block : Block) : Block × Except Error Unit :=
  let (chunks, outcome) := walk (Chunk.settle labels) (block.position.getD 0) block.chunks
  ({ block with chunks }, outcome.map fun _ => ())

end Block

/-! ## The three passes -/

/-- A layout: the program as it was left, what was done, and the labels or the failure. -/
structure Layout where
  program : Program
  /-- Newest first. -/
  events : List Event
  labels : Except Error Labels

namespace Program

/-- Checks the instructions of a program in order. -/
def checkWidths (program : Program) : Except Error Unit :=
  program.forM fun block => block.chunks.forM Chunk.checkWidth

/-- Measures the blocks of a program, and gives its size, which has to be written. -/
def measure (program : Program) : Program × Except Error Int :=
  match walk Block.measure 0 program with
  | (measured, .error e) => (measured, .error e)
  | (measured, .ok total) =>
      (measured, match Decimal.check [total] with
        | .ok _ => .ok total
        | .error fault => .error (.fault fault))

/-- Lays out a program. -/
def layout (program : Program) : Layout :=
  match measure program with
  | (measured, .error e) => ⟨measured, [], .error e⟩
  | (measured, .ok total) =>
      let (placed, placement) := Block.placeFrom [] .start measured
      let labels := placement.labels
      let events :=
        .bound labels.size :: placement.events ++ [.measured program.length total]
      match walk (fun _ block => block.settle labels) () placed with
      | (settled, .error e) => ⟨settled, events, .error e⟩
      | (settled, .ok _) =>
          match checkWidths settled with
          | .error e => ⟨settled, events, .error e⟩
          | .ok _ => ⟨settled, .resolved :: events, .ok labels⟩

end Program

end Asm65
