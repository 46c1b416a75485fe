import Asm65.Proofs.Derivations
import Asm65.Proofs.Layout
import Asm65.SourceMap

/-!
# Addresses without blocks

The addresses of a program can be found by a walk over its statements that knows nothing of
blocks.  A layout that succeeds gives the same addresses, whatever blocks the statements were
gathered into.
-/

namespace Asm65

/-- What a walk over statements has found so far. -/
structure FlatWalk where
  /-- Where the next byte goes. -/
  cursor : Int
  labels : Labels
  /-- The addresses of the instructions, each with its place in the source. -/
  instructions : List MapEntry

namespace FlatWalk

/-- The walk before the first statement. -/
def start : FlatWalk :=
  ⟨0, ∅, []⟩

/-- Takes one more statement. -/
def step (walk : FlatWalk) (statement : Statement) : FlatWalk :=
  match statement with
  | .org _ address | .pad _ address => { walk with cursor := address.value }
  | .label _ name => { walk with labels := walk.labels.insert name walk.cursor }
  | .instruction tag _ _ =>
      { walk with
        cursor := wrap (walk.cursor + statement.size)
        instructions := walk.instructions ++ [⟨walk.cursor, tag⟩] }
  | .bytes _ _ | .words _ _ | .vector _ _ =>
      { walk with cursor := wrap (walk.cursor + statement.size) }
  | .comment _ | .includeFile _ _ | .unknown => walk

/-- The walk over some statements. -/
def across (statements : List Statement) : FlatWalk :=
  statements.foldl step start

/-! ## The walk over the pieces -/

/-- The map entry of a chunk at its address. -/
def entry? (site : Int × Chunk) : Option MapEntry :=
  match site.2 with
  | .op tag _ _ _ => some ⟨site.1, tag⟩
  | _ => none

/-- Takes more pieces. -/
def pass (walk : FlatWalk) (ps : List Piece) : FlatWalk :=
  ⟨ps.foldl Piece.advance walk.cursor, Piece.bindings walk.cursor walk.labels ps,
    walk.instructions ++ (Piece.listing walk.cursor ps).filterMap entry?⟩

theorem pass_nil (walk : FlatWalk) : walk.pass [] = walk := by
  simp [pass, Piece.bindings, Piece.listing]

theorem pass_append (walk : FlatWalk) (xs ys : List Piece) :
    walk.pass (xs ++ ys) = (walk.pass xs).pass ys := by
  simp [pass, Piece.bindings_append, Piece.listing_append]

/-- An opening without position and label changes nothing. -/
theorem pass_opening (walk : FlatWalk) (ps : List Piece) :
    walk.pass (.block none none :: ps) = walk.pass ps :=
  rfl

/-- One statement takes the walk where the piece of the statement takes it. -/
theorem step_eq_pass {walk : FlatWalk} {s : Statement} {added : Option Piece}
    (h : s.piece = .ok added) : walk.step s = walk.pass added.toList := by
  cases Statement.adds_of_piece h with
  | comment tag => exact (pass_nil walk).symm
  | includeFile tag path => exact (pass_nil walk).symm
  | label tag name => simp [step, pass, Piece.advance, Piece.bindings, Piece.listing]
  | org tag address hwidth => simp [step, pass, Piece.advance, Piece.bindings, Piece.listing]
  | pad tag address hwidth => simp [step, pass, Piece.advance, Piece.bindings, Piece.listing]
  -- a chunk moves the cursor on by the size of its statement
  | instruction tag mnemonic operand code param hmade =>
      simp [step, pass, Piece.advance, Piece.bindings, Piece.listing, entry?,
        ← Statement.size_of_piece h]
  | bytes tag values data hlength =>
      simp [step, pass, Piece.advance, Piece.bindings, Piece.listing, entry?,
        ← Statement.size_of_piece h]
  | words tag values data hlength =>
      simp [step, pass, Piece.advance, Piece.bindings, Piece.listing, entry?,
        ← Statement.size_of_piece h]
  | vector tag label =>
      simp [step, pass, Piece.advance, Piece.bindings, Piece.listing, entry?,
        ← Statement.size_of_piece h]

/-- The walk over statements is the walk over their pieces. -/
theorem foldl_step_eq_pass {walk : FlatWalk} {statements : List Statement}
    (hall : ∀ s ∈ statements, ∃ p, s.piece = .ok p) :
    statements.foldl step walk = walk.pass (statements.filterMap Statement.piece?) := by
  induction statements generalizing walk with
  | nil => exact (pass_nil walk).symm
  | cons s rest ih =>
      obtain ⟨added, hadded⟩ := hall s List.mem_cons_self
      rw [List.foldl_cons, step_eq_pass hadded, Statement.filterMap_piece?_cons hadded,
        pass_append]
      exact ih (fun u hu => hall u (List.mem_cons_of_mem s hu))

theorem cursor_across {statements : List Statement}
    (hall : ∀ s ∈ statements, ∃ p, s.piece = .ok p) :
    (across statements).cursor =
      (statements.filterMap Statement.piece?).foldl Piece.advance 0 := by
  rw [across, foldl_step_eq_pass hall]
  rfl

/-- The walk over the statements of a program is the walk over the blocks of the program. -/
theorem across_eq_pass {statements : List Statement} {program : Program}
    (hbuild : Program.ofStatements statements = .ok program) :
    across statements = start.pass (Program.pieces program) := by
  obtain ⟨rfl, hall⟩ := Program.ofStatements_ok hbuild
  rw [across, foldl_step_eq_pass hall]
  rcases Program.pieces_ofPieces (statements.filterMap Statement.piece?) with heq | ⟨-, heq⟩
  · rw [heq]
  · rw [heq, pass_opening]

/-- All addresses a walk has found are addresses of the address space. -/
structure InSpace (walk : FlatWalk) : Prop where
  cursor : Asm65.InSpace walk.cursor
  labels : walk.labels.InSpace
  instructions : ∀ entry ∈ walk.instructions, Asm65.InSpace entry.address

theorem start_inSpace : start.InSpace where
  cursor := ⟨by decide, by decide⟩
  labels := by
    intro name address h
    simp [start] at h
  instructions := by simp [start]

theorem InSpace.pass {good : Tag → Prop} {walk : FlatWalk} {ps : List Piece}
    (h : walk.InSpace) (hsound : ∀ p ∈ ps, p.Sound good) : (walk.pass ps).InSpace where
  cursor := Piece.foldl_advance_inSpace h.cursor hsound
  labels := Piece.bindings_inSpace h.cursor h.labels hsound
  instructions := by
    intro entry hentry
    rcases List.mem_append.1 hentry with hentry | hentry
    · exact h.instructions entry hentry
    · obtain ⟨site, hsite, hfound⟩ := List.mem_filterMap.1 hentry
      obtain ⟨haddress, -⟩ := Piece.listing_inSpace h.cursor hsound site hsite
      unfold entry? at hfound
      split at hfound
      · cases hfound
        exact haddress
      · cases hfound

theorem across_inSpace {good : Tag → Prop} {statements : List Statement} {program : Program}
    (hform : ∀ s ∈ statements, s.WellFormed good)
    (hbuild : Program.ofStatements statements = .ok program) : (across statements).InSpace := by
  rw [across_eq_pass hbuild]
  exact start_inSpace.pass (Program.ofStatements_sound hform hbuild)

end FlatWalk

/-! ## The layout -/

theorem Chunk.mapEntry?_settledAt (labels : Labels) (site : Int × Chunk) :
    Chunk.mapEntry? (Chunk.settledAt labels site) = FlatWalk.entry? site := by
  obtain ⟨address, c⟩ := site
  unfold Chunk.settledAt FlatWalk.entry?
  cases c with
  | op tag code param position =>
      simp only [Chunk.settle]
      split <;> rfl
  | bytes data => rfl
  | vector tag label value =>
      simp only [Chunk.settle]
      split <;> rfl
  | unknown => rfl

/-- A layout that succeeds gives the instructions the addresses, and the labels the values, that
the walk over the statements finds. -/
theorem Program.layout_eq_across {good : Tag → Prop} {statements : List Statement}
    {program : Program} {labels : Labels} (hform : ∀ s ∈ statements, s.WellFormed good)
    (hbuild : Program.ofStatements statements = .ok program)
    (hlayout : (Program.layout program).labels = .ok labels) :
    Program.mapEntries (Program.layout program).program =
        (FlatWalk.across statements).instructions ∧
      labels = (FlatWalk.across statements).labels := by
  have hsound := Program.ofStatements_sound hform hbuild
  obtain ⟨hlabels, hprogram, -⟩ := Program.layout_ok hsound hlayout
  rw [FlatWalk.across_eq_pass hbuild]
  refine ⟨?_, hlabels⟩
  rw [hprogram, Program.mapEntries, Program.chunks_settledFrom, List.filterMap_map]
  have hentries : Chunk.mapEntry? ∘ Chunk.settledAt labels = FlatWalk.entry? :=
    funext (Chunk.mapEntry?_settledAt labels)
  rw [hentries]
  rfl

/-- Block grouping is invisible in the layout of a text: the instructions stand where the walk
over the statements meets them, the labels are those of the walk, and all these addresses are
sixteen-bit numbers. -/
theorem layout_addresses_eq_flatWalk {unit : Int} {text : List Char} {statements : List Statement}
    {program : Program} {labels : Labels} (hparse : Statement.parse unit text = .ok statements)
    (hbuild : Program.ofStatements statements = .ok program)
    (hlayout : (Program.layout program).labels = .ok labels) :
    Program.mapEntries (Program.layout program).program =
        (FlatWalk.across statements).instructions ∧
      labels = (FlatWalk.across statements).labels ∧
      (∀ entry ∈ (FlatWalk.across statements).instructions,
        0 ≤ entry.address ∧ entry.address ≤ 0xFFFF) ∧
      ∀ (name : String) (address : Int), labels[name]? = some address →
        0 ≤ address ∧ address ≤ 0xFFFF := by
  have hform := Statement.parse_wellFormed hparse
  obtain ⟨hentries, hlabels⟩ := Program.layout_eq_across hform hbuild hlayout
  have hspace := FlatWalk.across_inSpace hform hbuild
  refine ⟨hentries, hlabels, ?_, ?_⟩
  · intro entry hentry
    obtain ⟨hlow, hhigh⟩ := hspace.instructions entry hentry
    exact ⟨hlow, by omega⟩
  · intro name address hbound
    rw [hlabels] at hbound
    obtain ⟨hlow, hhigh⟩ := hspace.labels name address hbound
    exact ⟨hlow, by omega⟩

/-- A block that straddles the end of the address space, with a label that is bound twice. -/
theorem straddling_layout_eq_flatWalk :
    ∃ statements program labels,
      Statement.parse 0 ".org $FFFE\nx: jmp y\ny: .word 1, 2\nx: nop".toList = .ok statements ∧
      Program.ofStatements statements = .ok program ∧
      (Program.layout program).labels = .ok labels ∧
      Program.mapEntries (Program.layout program).program =
        (FlatWalk.across statements).instructions ∧
      labels = (FlatWalk.across statements).labels ∧
      (FlatWalk.across statements).instructions.map MapEntry.address = [0xFFFE, 5] := by
  let statements : List Statement :=
    [.org (some ⟨0, 0⟩) ⟨.word, 0xFFFE⟩, .label (some ⟨0, 11⟩) "x",
      .instruction (some ⟨0, 14⟩) "jmp" (.plain .address (.name (some ⟨0, 18⟩) "y")),
      .label (some ⟨0, 20⟩) "y", .words (some ⟨0, 23⟩) [⟨.byte, 1⟩, ⟨.byte, 2⟩],
      .label (some ⟨0, 34⟩) "x", .instruction (some ⟨0, 37⟩) "nop" .none]
  have hparse :
      Statement.parse 0 ".org $FFFE\nx: jmp y\ny: .word 1, 2\nx: nop".toList = .ok statements := rfl
  have hrun : (do
      let program ← Program.ofStatements statements
      let labels ← (Program.layout program).labels
      return (program, labels)).isOk = true := by decide +kernel
  obtain ⟨result, hrun⟩ := ok_of_isOk hrun
  obtain ⟨program, hbuild, hrun⟩ := bind_ok_inv hrun
  obtain ⟨labels, hlayout, -⟩ := bind_ok_inv hrun
  obtain ⟨hentries, hlabels, -, -⟩ := layout_addresses_eq_flatWalk hparse hbuild hlayout
  exact ⟨statements, program, labels, hparse, hbuild, hlayout, hentries, hlabels, by decide +kernel⟩

end Asm65
