import Asm65.Proofs.Encoding
import Asm65.Proofs.Walks

/-!
# Laying out what was laid out

The layout of a program that was laid out before changes nothing and comes to the same end, with
labels or with a failure.  Each of the three passes is a walk, and a step of a pass that is taken
again at what it left behind leaves it as it is.  No pass sees what only a later pass changes:
measuring sees the lengths of the chunks, placing sees the frame of a block.
-/

namespace Asm65

variable {labels : Labels}

/-! ## Chunks -/

namespace Param

/-- A parameter whose label was replaced stays as it is. -/
theorem resolve_resolve {position : Int} {param resolved : Param}
    (h : param.resolve labels position = .ok resolved) :
    resolved.resolve labels position = .ok resolved := by
  obtain ⟨value, rfl, -⟩ := resolve_eq_ok h
  rfl

end Param

namespace Chunk

/-- A chunk that was settled at a position, or could not be settled there, stays as it is. -/
theorem settle_settle (position : Int) (c : Chunk) :
    (c.settle labels position).1.settle labels position = c.settle labels position := by
  cases c with
  | op tag code param old =>
      cases hparam : param.resolve labels position with
      | ok resolved => simp only [settle, hparam, Param.resolve_resolve hparam]
      | error e => simp only [settle, hparam]
  | bytes data => rfl
  | vector tag label value =>
      cases hfind : labels.find label tag with
      | ok address => simp only [settle, hfind]
      | error e => simp only [settle, hfind]
  | unknown => rfl

@[simp] theorem length_settle (position : Int) (c : Chunk) :
    (c.settle labels position).1.length = c.length := by
  cases c with
  | op tag code param old =>
      simp only [settle]
      split <;> rfl
  | bytes data => rfl
  | vector tag label value =>
      simp only [settle]
      split <;> rfl
  | unknown => rfl

end Chunk

/-! ## Blocks -/

namespace Block

/-- What measuring sees of a block. -/
def extent (b : Block) : Int × List (Except Fault Int) :=
  (b.length, b.chunks.map Chunk.length)

/-- What placing sees of a block. -/
def frame (b : Block) : Option Int × Option String × Int :=
  (b.position, b.label, b.length)

theorem sumLengths_congr {cs ds : List Chunk} (h : cs.map Chunk.length = ds.map Chunk.length)
    (sum : Int) : sumLengths sum cs = sumLengths sum ds := by
  induction cs generalizing ds sum with
  | nil =>
      obtain rfl := List.map_eq_nil_iff.1 h.symm
      rfl
  | cons c cs ih =>
      obtain ⟨d, ds, rfl, hd, hds⟩ := List.map_eq_cons_iff.1 h.symm
      simp only [sumLengths, hd]
      split
      · exact ih hds.symm _
      · rfl

theorem measure_measure (total : Int) (b : Block) :
    (b.measure total).1.measure total = b.measure total := by
  cases hsum : sumLengths 0 b.chunks with
  | ok length => simp only [measure, hsum]
  | error fault => simp only [measure, hsum]

/-- A block that is measured already is one with the right length. -/
theorem measure_of_extent {total : Int} {b d : Block} {outcome : Except Error Int}
    (hextent : b.extent = d.extent) (h : b.measure total = (b, outcome)) :
    d.measure total = (d, outcome) := by
  obtain ⟨hlength, hchunks⟩ := Prod.mk.inj hextent
  have hsums := sumLengths_congr hchunks 0
  cases hsum : sumLengths 0 b.chunks with
  | ok length =>
      simp only [measure, hsum] at h
      simp only [measure, ← hsums, hsum]
      obtain ⟨hblock, rfl⟩ := Prod.mk.inj h
      have hmeasured : b.length = length := (congrArg Block.length hblock).symm
      rw [← hmeasured, hlength]
  | error fault =>
      simp only [measure, hsum] at h
      simp only [measure, ← hsums, hsum]
      rw [(Prod.mk.inj h).2]

/-- Placing as a step of a walk; it never fails. -/
def placeStep (placement : Placement) (b : Block) : Block × Except Error Placement :=
  ((b.place placement).1, .ok (b.place placement).2)

theorem walkFrom_placeStep (passed : Program) (placement : Placement) (program : Program) :
    walkFrom placeStep passed placement program =
      ((placeFrom passed placement program).1, .ok (placeFrom passed placement program).2) := by
  induction program generalizing passed placement with
  | nil => rfl
  | cons b rest ih => exact ih _ _

theorem placeStep_placeStep (placement : Placement) (b : Block) :
    placeStep placement (placeStep placement b).1 = placeStep placement b :=
  rfl

/-- A block that is placed already is one with a position. -/
theorem placeStep_of_frame {placement : Placement} {b d : Block}
    {outcome : Except Error Placement} (hframe : b.frame = d.frame)
    (h : placeStep placement b = (b, outcome)) : placeStep placement d = (d, outcome) := by
  obtain ⟨position, label, chunks, length⟩ := b
  obtain ⟨position', label', chunks', length'⟩ := d
  cases hframe
  obtain ⟨hblock, rfl⟩ := Prod.mk.inj h
  have hposition : some (position.getD placement.address) = position :=
    congrArg Block.position hblock
  simp only [placeStep, place, hposition]

theorem settle_settle (b : Block) : (b.settle labels).1.settle labels = b.settle labels := by
  have hchunks := walk_walk (@Chunk.settle_settle labels) (b.position.getD 0) b.chunks
  simp only [settle, hchunks]

@[simp] theorem extent_settle (b : Block) : (b.settle labels).1.extent = b.extent := by
  have hchunks := map_walk (@Chunk.length_settle labels) (b.position.getD 0) b.chunks
  simp only [settle, extent, hchunks]

@[simp] theorem frame_settle (b : Block) : (b.settle labels).1.frame = b.frame :=
  rfl

@[simp] theorem extent_placeStep (placement : Placement) (b : Block) :
    (placeStep placement b).1.extent = b.extent :=
  rfl

end Block

/-! ## Programs -/

namespace Program

theorem measure_measure (program : Program) :
    measure (measure program).1 = measure program := by
  have hwalk := walk_walk Block.measure_measure 0 program
  unfold measure
  cases hmeasured : walk Block.measure 0 program with
  | mk measured outcome =>
      rw [hmeasured] at hwalk
      cases outcome with
      | ok total => simp only [hwalk]
      | error e => simp only [hwalk]

theorem length_measure (program : Program) : (measure program).1.length = program.length := by
  have hlength := @length_walk _ _ _ Block.measure 0 program
  unfold measure
  split <;> next hwalk => rwa [hwalk] at hlength

/-- A program that is measured already is one whose blocks have the right lengths. -/
theorem measure_of_extent {program other : Program} {outcome : Except Error Int}
    (hextent : program.map Block.extent = other.map Block.extent)
    (h : measure program = (program, outcome)) : measure other = (other, outcome) := by
  unfold measure at h ⊢
  cases hmeasured : walk Block.measure 0 program with
  | mk measured found =>
      rw [hmeasured] at h
      cases found with
      | ok total =>
          obtain ⟨rfl, rfl⟩ := Prod.mk.inj h
          simp only [walk_eq_of_map_eq @Block.measure_of_extent hextent hmeasured]
      | error e =>
          obtain ⟨rfl, rfl⟩ := Prod.mk.inj h
          simp only [walk_eq_of_map_eq @Block.measure_of_extent hextent hmeasured]

theorem placeFrom_placeFrom (placement : Placement) (program : Program) :
    Block.placeFrom [] placement (Block.placeFrom [] placement program).1 =
      Block.placeFrom [] placement program := by
  have hwalk := walk_walk Block.placeStep_placeStep placement program
  unfold walk at hwalk
  rw [Block.walkFrom_placeStep, Block.walkFrom_placeStep] at hwalk
  obtain ⟨hblocks, hplacement⟩ := Prod.mk.inj hwalk
  exact Prod.ext hblocks (Except.ok.inj hplacement)

/-- A program that is placed already is one whose blocks have the right positions. -/
theorem placeFrom_of_frame {program other : Program} {start placement : Placement}
    (hframe : program.map Block.frame = other.map Block.frame)
    (h : Block.placeFrom [] start program = (program, placement)) :
    Block.placeFrom [] start other = (other, placement) := by
  have hwalk : walk Block.placeStep start program = (program, .ok placement) := by
    rw [walk, Block.walkFrom_placeStep, h]
  have hother := walk_eq_of_map_eq @Block.placeStep_of_frame hframe hwalk
  rw [walk, Block.walkFrom_placeStep] at hother
  obtain ⟨hblocks, hplacement⟩ := Prod.mk.inj hother
  exact Prod.ext hblocks (Except.ok.inj hplacement)

theorem map_extent_placeFrom (placement : Placement) (program : Program) :
    (Block.placeFrom [] placement program).1.map Block.extent = program.map Block.extent := by
  have hwalk := map_walk Block.extent_placeStep placement program
  rwa [walk, Block.walkFrom_placeStep] at hwalk

/-- What is left to do when the third pass has come to its end. -/
def finish (blocks : Nat) (total : Int) (placement : Placement) (settled : Program)
    (found : Except Error Unit) : Layout :=
  let events := .bound placement.labels.size :: placement.events ++ [.measured blocks total]
  match found with
  | .error e => ⟨settled, events, .error e⟩
  | .ok _ =>
      match checkWidths settled with
      | .error e => ⟨settled, events, .error e⟩
      | .ok _ => ⟨settled, .resolved :: events, .ok placement.labels⟩

@[simp] theorem finish_program (blocks : Nat) (total : Int) (placement : Placement)
    (settled : Program) (found : Except Error Unit) :
    (finish blocks total placement settled found).program = settled := by
  unfold finish
  cases found with
  | error e => rfl
  | ok done =>
      simp only
      split <;> rfl

/-- The three passes over a program that can be measured, each with what it leaves behind. -/
structure Passes (program measured placed settled : Program) (total : Int)
    (placement : Placement) (found : Except Error Unit) : Prop where
  hmeasure : measure program = (measured, .ok total)
  hplace : Block.placeFrom [] .start measured = (placed, placement)
  hsettle : walk (fun _ b => b.settle placement.labels) () placed = (settled, found)

variable {program measured placed settled : Program} {total : Int} {placement : Placement}
  {found : Except Error Unit}

theorem exists_passes (h : measure program = (measured, .ok total)) :
    ∃ placed settled placement found,
      Passes program measured placed settled total placement found :=
  ⟨_, _, _, _, h, rfl, rfl⟩

/-- The layout of a program that can be measured. -/
theorem Passes.layout_eq (h : Passes program measured placed settled total placement found) :
    layout program = finish program.length total placement settled found := by
  simp only [layout, h.hmeasure, h.hplace, h.hsettle, finish]
  cases found with
  | error e => rfl
  | ok done => rfl

theorem Passes.program_eq (h : Passes program measured placed settled total placement found) :
    (layout program).program = settled := by
  rw [h.layout_eq, finish_program]

/-- The passes behind the measuring keep what measuring sees. -/
theorem map_extent_layout {outcome : Except Error Int}
    (h : measure program = (measured, outcome)) :
    (layout program).program.map Block.extent = measured.map Block.extent := by
  cases outcome with
  | error e => simp only [layout, h]
  | ok total =>
      obtain ⟨placed, settled, placement, found, hpasses⟩ := exists_passes h
      rw [hpasses.program_eq]
      calc
        settled.map Block.extent = placed.map Block.extent := by
          have hkept := map_walk (fun _ => @Block.extent_settle placement.labels) () placed
          rwa [hpasses.hsettle] at hkept
        _ = measured.map Block.extent := by
          have hkept := map_extent_placeFrom .start measured
          rwa [hpasses.hplace] at hkept

/-- The blocks of a program that was measured and laid out have the right lengths. -/
theorem measure_layout {outcome : Except Error Int}
    (h : measure program = (measured, outcome)) :
    measure (layout program).program = ((layout program).program, outcome) := by
  have hagain := measure_measure program
  rw [h] at hagain
  exact measure_of_extent (map_extent_layout h).symm hagain

theorem length_layout (program : Program) : (layout program).program.length = program.length := by
  have hextents := congrArg List.length (map_extent_layout (Eq.refl (measure program)))
  rw [List.length_map, List.length_map] at hextents
  exact hextents.trans (length_measure program)

/-- The passes over what was laid out find it measured, placed and settled. -/
theorem Passes.again (h : Passes program measured placed settled total placement found) :
    Passes settled settled settled settled total placement found where
  hmeasure := by
    have hagain := measure_layout h.hmeasure
    rwa [h.program_eq] at hagain
  hplace := by
    have hagain := placeFrom_placeFrom .start measured
    rw [h.hplace] at hagain
    -- settling gives no block another position, label or length
    have hframe := map_walk (fun _ => @Block.frame_settle placement.labels) () placed
    rw [h.hsettle] at hframe
    exact placeFrom_of_frame hframe.symm hagain
  hsettle := by
    have hagain := walk_walk (fun _ => @Block.settle_settle placement.labels) () placed
    rwa [h.hsettle] at hagain

/-- What a layout that succeeds leaves is measured, and its parameters have the right widths. -/
theorem measure_of_layout_ok {labels : Labels} (h : (layout program).labels = .ok labels) :
    (∃ total, measure (layout program).program = ((layout program).program, .ok total)) ∧
      checkWidths (layout program).program = .ok () := by
  cases hmeasured : measure program with
  | mk measured outcome =>
      cases outcome with
      | error e =>
          simp only [layout, hmeasured] at h
          cases h
      | ok total =>
          refine ⟨⟨total, measure_layout hmeasured⟩, ?_⟩
          obtain ⟨placed, settled, placement, found, hpasses⟩ := exists_passes hmeasured
          rw [hpasses.program_eq]
          rw [hpasses.layout_eq] at h
          unfold finish at h
          cases found with
          | error e => cases h
          | ok done =>
              simp only at h
              split at h
              · cases h
              · next hwidths => exact hwidths

end Program

/-- A program that was laid out is laid out already.  Whether the layout found the labels or
stopped on its way, doing it again leaves the program as it is and has the same result. -/
theorem layout_of_laid_out (program : Program) :
    Program.layout (Program.layout program).program = Program.layout program := by
  cases hmeasured : Program.measure program with
  | mk measured outcome =>
      cases outcome with
      | error e =>
          -- nothing happens behind a measuring that fails, the first time or the second
          have hmeasure := Program.measure_layout hmeasured
          simp only [Program.layout, hmeasured] at hmeasure ⊢
          simp only [hmeasure]
      | ok total =>
          obtain ⟨placed, settled, placement, found, hpasses⟩ := Program.exists_passes hmeasured
          have hlength := Program.length_layout program
          rw [hpasses.program_eq] at hlength ⊢
          rw [hpasses.again.layout_eq, hpasses.layout_eq, hlength]

end Asm65
