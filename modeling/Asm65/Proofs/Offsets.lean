import Mathlib.Data.List.Induction
import Asm65.Proofs.Image

/-!
# The image block by block

A block is written right behind the block in front of it, or at the distance of its own position
from the origin, if that lies further on.  These offsets say all about the image of a program that
was laid out: there is one exactly if the last block ends within the address space, it ends with
that block, it has the bytes of every block at its offset, and zeros elsewhere.

A block without a position of its own never opens a gap: the cursor of the layout wraps around, the
offset does not, and so the cursor is never ahead.  Where no block was moved back, the two agree
modulo the address space.
-/

namespace Asm65

/-- A block settled behind a cursor. -/
def Block.settledAt (labels : Labels) (cursor : Int) (b : Block) : Block where
  position := some (b.position.getD cursor)
  label := b.label
  chunks := (Piece.listing cursor b.pieces).map (Chunk.settledAt labels)
  length := b.size

theorem Piece.foldl_extend_chunks (base : Int) (size : Nat) {cs : List Chunk}
    (hfit : ∀ c ∈ cs, c.Fitting) :
    (((cs.map Piece.chunk).foldl (Piece.extend base) size : Nat) : Int) =
      size + (cs.map Chunk.size).sum := by
  induction cs generalizing size with
  | nil => simp
  | cons c cs ih =>
      obtain ⟨hc, hcs⟩ := List.forall_mem_cons.1 hfit
      have hnonneg := hc.size_nonneg
      rw [List.map_cons, List.foldl_cons, ih _ hcs, Piece.extend, List.map_cons, List.sum_cons]
      omega

/-- A block adds the zeros that lead to it and its own bytes. -/
theorem Block.foldl_extend_pieces {b : Block} (base : Int) (size : Nat)
    (hfit : ∀ c ∈ b.chunks, c.Fitting) :
    ((b.pieces.foldl (Piece.extend base) size : Nat) : Int) =
      size + Piece.gap base size b.position + b.size := by
  have hchunks := Piece.foldl_extend_chunks base (size + Piece.gap base size b.position) hfit
  rw [Int.natCast_add] at hchunks
  exact hchunks

namespace Program

/-! ## Offsets -/

/-- The position of the block at an index. -/
def positionAt (blocks : Program) (k : Nat) : Int :=
  (blocks[k]?.bind Block.position).getD 0

/-- The length of the block at an index. -/
def lengthAt (blocks : Program) (k : Nat) : Int :=
  (blocks[k]?.map Block.length).getD 0

/-- Where the block at an index is written in the image. -/
def offset (blocks : Program) : Nat → Int
  | 0 => 0
  | k + 1 => max (blocks.offset k + blocks.lengthAt k) (blocks.positionAt (k + 1) - blocks.origin)

/-- The position of a block lies where the block is written, or further back. -/
theorem positionAt_le_offset (blocks : Program) (k : Nat) :
    blocks.positionAt k ≤ blocks.origin + blocks.offset k := by
  cases k with
  | zero =>
      have horigin : blocks.positionAt 0 = blocks.origin := by cases blocks <;> rfl
      have hzero : blocks.offset 0 = 0 := rfl
      omega
  | succ k =>
      rw [offset]
      omega

/-- Where the cursor of the layout is behind some blocks. -/
def cursorAfter (front : Program) : Int :=
  (pieces front).foldl Piece.advance 0

/-- How many bytes are written for some blocks from a base address on. -/
def written (base : Int) (front : Program) : Nat :=
  (pieces front).foldl (Piece.extend base) 0

theorem pieces_append (front back : Program) :
    pieces (front ++ back) = pieces front ++ pieces back :=
  List.flatMap_append

theorem cursorAfter_concat (front : Program) (b : Block) :
    cursorAfter (front ++ [b]) = b.pieces.foldl Piece.advance (cursorAfter front) := by
  simp [cursorAfter, pieces_append]

theorem written_concat {base : Int} {front : Program} {b : Block}
    (hfit : ∀ c ∈ b.chunks, c.Fitting) :
    (written base (front ++ [b]) : Int) =
      written base front + Piece.gap base (written base front) b.position + b.size := by
  rw [← Block.foldl_extend_pieces base (written base front) hfit]
  simp [written, pieces_append]

theorem settledFrom_append (labels : Labels) (cursor : Int) (front back : Program) :
    settledFrom labels cursor (front ++ back) =
      settledFrom labels cursor front ++
        settledFrom labels ((pieces front).foldl Piece.advance cursor) back := by
  induction front generalizing cursor with
  | nil => rfl
  | cons b front ih =>
      rw [List.cons_append, settledFrom, settledFrom, ih, pieces_cons, List.foldl_append]
      rfl

@[simp] theorem length_settledFrom (labels : Labels) (cursor : Int) (program : Program) :
    (settledFrom labels cursor program).length = program.length := by
  induction program generalizing cursor with
  | nil => rfl
  | cons b rest ih => rw [settledFrom, List.length_cons, List.length_cons, ih]

/-- The block at an index, with the blocks in front of it and behind it. -/
theorem exists_split {program : Program} {k : Nat} (hk : k < program.length) :
    ∃ front b back, program = front ++ b :: back ∧ front.length = k := by
  refine ⟨program.take k, program[k], program.drop (k + 1), ?_, ?_⟩
  · rw [← List.drop_eq_getElem_cons hk, List.take_append_drop]
  · rw [List.length_take]
    omega

/-- Blocks as the layout leaves those of a sound program. -/
structure LaidOut (good : Tag → Prop) (labels : Labels) (program blocks : Program) : Prop where
  sound : ∀ p ∈ pieces program, p.Sound good
  blocks_eq : blocks = settledFrom labels 0 program

namespace LaidOut

variable {good : Tag → Prop} {labels : Labels} {program blocks front back : Program} {b : Block}

theorem length_eq (h : LaidOut good labels program blocks) : blocks.length = program.length := by
  rw [h.blocks_eq, length_settledFrom]

theorem fitting (h : LaidOut good labels program blocks)
    (hsplit : program = front ++ b :: back) : ∀ c ∈ b.chunks, c.Fitting :=
  fitting_of_sound h.sound b (by simp [hsplit])

theorem sound_front (h : LaidOut good labels program blocks) (hsplit : program = front ++ back) :
    ∀ p ∈ pieces front, p.Sound good := by
  intro p hp
  apply h.sound
  rw [hsplit, pieces_append]
  exact List.mem_append_left _ hp

theorem sound_back (h : LaidOut good labels program blocks) (hsplit : program = front ++ back) :
    ∀ p ∈ pieces back, p.Sound good := by
  intro p hp
  apply h.sound
  rw [hsplit, pieces_append]
  exact List.mem_append_right _ hp

theorem cursorAfter_inSpace (h : LaidOut good labels program blocks)
    (hsplit : program = front ++ back) : InSpace (cursorAfter front) :=
  Piece.foldl_advance_inSpace ⟨by decide, by decide⟩ (h.sound_front hsplit)

theorem position_inSpace (h : LaidOut good labels program blocks)
    (hsplit : program = front ++ b :: back) : InSpace (b.position.getD (cursorAfter front)) :=
  Program.position_inSpace (h.cursorAfter_inSpace hsplit) (h.sound_back hsplit)

theorem origin_nonneg (h : LaidOut good labels program blocks) : 0 ≤ blocks.origin := by
  rw [h.blocks_eq]
  cases program with
  | nil => exact Int.le_refl 0
  | cons b rest => exact (@position_inSpace _ _ _ _ [] rest b h rfl).1

theorem getElem?_eq (h : LaidOut good labels program blocks)
    (hsplit : program = front ++ b :: back) :
    blocks[front.length]? = some (b.settledAt labels (cursorAfter front)) := by
  rw [h.blocks_eq, hsplit, settledFrom_append, List.getElem?_append_right (by simp),
    length_settledFrom, Nat.sub_self]
  rfl

theorem positionAt_eq (h : LaidOut good labels program blocks)
    (hsplit : program = front ++ b :: back) :
    blocks.positionAt front.length = b.position.getD (cursorAfter front) := by
  rw [positionAt, h.getElem?_eq hsplit]
  rfl

theorem lengthAt_eq (h : LaidOut good labels program blocks)
    (hsplit : program = front ++ b :: back) : blocks.lengthAt front.length = b.size := by
  rw [lengthAt, h.getElem?_eq hsplit]
  rfl

/-- A block of the layout comes from the block at the same index. -/
theorem exists_split (h : LaidOut good labels program blocks) {k : Nat} {block : Block}
    (hblock : blocks[k]? = some block) :
    ∃ front b back, program = front ++ b :: back ∧ front.length = k ∧
      block = b.settledAt labels (cursorAfter front) := by
  have hk : k < program.length := by
    obtain ⟨hlt, -⟩ := List.getElem?_eq_some_iff.1 hblock
    rwa [h.length_eq] at hlt
  obtain ⟨front, b, back, hsplit, rfl⟩ := Program.exists_split hk
  refine ⟨front, b, back, hsplit, rfl, ?_⟩
  rw [h.getElem?_eq hsplit] at hblock
  exact (Option.some.inj hblock).symm

/-- The cursor behind some blocks is not ahead of the bytes written for them. -/
theorem cursorAfter_le (h : LaidOut good labels program blocks)
    (hsplit : program = front ++ back) :
    cursorAfter front ≤ blocks.origin + written blocks.origin front := by
  have hnonneg := h.origin_nonneg
  exact Piece.foldl_advance_le ⟨by decide, by decide⟩ (h.sound_front hsplit) (by omega)

/-- No zeros lead to the first block. -/
theorem gap_first (h : LaidOut good labels program blocks) (hsplit : program = b :: back) :
    Piece.gap blocks.origin 0 b.position = 0 := by
  have horigin : blocks.origin = b.position.getD 0 := by
    rw [h.blocks_eq, hsplit]
    rfl
  rw [horigin]
  cases b.position with
  | none => rfl
  | some position =>
      simp only [Piece.gap, Option.getD_some]
      omega

/-- The offset of a block: the bytes of the blocks in front of it and the zeros that lead to it. -/
theorem offset_eq (h : LaidOut good labels program blocks)
    (hsplit : program = front ++ b :: back) :
    blocks.offset front.length =
      written blocks.origin front +
        Piece.gap blocks.origin (written blocks.origin front) b.position := by
  -- the induction is on the blocks in front, taken from the back as the offset takes them
  induction front using List.reverseRecOn generalizing b back with
  | nil =>
      have hgap : Piece.gap blocks.origin (written blocks.origin []) b.position = 0 :=
        h.gap_first hsplit
      rw [hgap]
      rfl
  | append_singleton front a ih =>
      have hsplit' : program = front ++ a :: b :: back :=
        hsplit.trans (List.append_assoc front [a] (b :: back))
      have hposition := h.positionAt_eq hsplit
      have hgap := gap_getD (h.cursorAfter_le hsplit) b.position
      have hwritten := @written_concat blocks.origin front a (h.fitting hsplit')
      rw [List.length_append, List.length_singleton] at hposition ⊢
      rw [offset, ih hsplit', h.lengthAt_eq hsplit', hposition, ← hwritten, ← hgap]
      omega

/-- A block ends where the bytes written for it and the blocks in front of it end. -/
theorem offset_add_lengthAt (h : LaidOut good labels program blocks)
    (hsplit : program = front ++ b :: back) :
    blocks.offset front.length + blocks.lengthAt front.length =
      written blocks.origin (front ++ [b]) := by
  rw [h.offset_eq hsplit, h.lengthAt_eq hsplit, written_concat (h.fitting hsplit)]

/-- The last block ends where the bytes written for the program end. -/
theorem offset_add_lengthAt_last (h : LaidOut good labels program blocks) {n : Nat}
    (hlength : blocks.length = n + 1) :
    blocks.offset n + blocks.lengthAt n = written blocks.origin program := by
  rw [h.length_eq] at hlength
  obtain ⟨front, b, back, hsplit, rfl⟩ := Program.exists_split (by omega : n < program.length)
  have hnil : back = [] := by
    have hcount := congrArg List.length hsplit
    rw [List.length_append, List.length_cons] at hcount
    exact List.eq_nil_of_length_eq_zero (by omega)
  rw [h.offset_add_lengthAt hsplit, ← hnil, ← hsplit]

/-! ## Gaps -/

theorem lengthAt_nonneg (h : LaidOut good labels program blocks) (k : Nat) :
    0 ≤ blocks.lengthAt k := by
  by_cases hk : k < program.length
  · obtain ⟨front, b, back, hsplit, rfl⟩ := Program.exists_split hk
    rw [h.lengthAt_eq hsplit]
    exact Block.size_nonneg (h.fitting hsplit)
  · rw [← h.length_eq] at hk
    rw [lengthAt, List.getElem?_eq_none (Nat.not_lt.1 hk)]
    exact Int.le_refl 0

theorem positionAt_nonneg (h : LaidOut good labels program blocks) (k : Nat) :
    0 ≤ blocks.positionAt k := by
  by_cases hk : k < program.length
  · obtain ⟨front, b, back, hsplit, rfl⟩ := Program.exists_split hk
    rw [h.positionAt_eq hsplit]
    exact (h.position_inSpace hsplit).1
  · rw [← h.length_eq] at hk
    rw [positionAt, List.getElem?_eq_none (Nat.not_lt.1 hk)]
    exact Int.le_refl 0

/-- A block without a position of its own stands at the cursor behind the block in front of it. -/
theorem positionAt_succ (h : LaidOut good labels program blocks) {k : Nat}
    (hb : program[k + 1]? = some b) :
    blocks.positionAt (k + 1) =
      b.position.getD (wrap (blocks.positionAt k + blocks.lengthAt k)) := by
  obtain ⟨hk, hb⟩ := List.getElem?_eq_some_iff.1 hb
  obtain ⟨front, a, rest, hsplit, rfl⟩ := Program.exists_split (by omega : k < program.length)
  cases rest with
  | nil =>
      rw [hsplit, List.length_append, List.length_singleton] at hk
      omega
  | cons c back =>
      have hsplit' : program = (front ++ [a]) ++ c :: back :=
        hsplit.trans (List.append_assoc front [a] (c :: back)).symm
      have hcursor : cursorAfter (front ++ [a]) =
          wrap (a.position.getD (cursorAfter front) + a.size) := by
        rw [cursorAfter_concat, Block.foldl_advance_pieces (h.position_inSpace hsplit)]
      have hposition := h.positionAt_eq hsplit'
      rw [List.length_append, List.length_singleton] at hposition
      have hc : b = c := by
        rw [← hb]
        simp [hsplit]
      rw [hposition, hcursor, h.positionAt_eq hsplit, h.lengthAt_eq hsplit, hc]

/-- A block without a position of its own is written right behind the block in front of it. -/
theorem offset_succ_of_position_eq_none (h : LaidOut good labels program blocks) {k : Nat}
    (hb : program[k + 1]? = some b) (hnone : b.position = none) :
    blocks.offset (k + 1) = blocks.offset k + blocks.lengthAt k := by
  have hposition := h.positionAt_succ hb
  have hreach := positionAt_le_offset blocks k
  have hnonneg := h.positionAt_nonneg k
  have hlength := h.lengthAt_nonneg k
  rw [hnone, Option.getD_none, wrap_eq] at hposition
  rw [offset, hposition]
  -- wrapping never leads ahead
  omega

/-- Where no block was moved back, the offsets and the positions agree modulo the address space. -/
theorem offset_aligned (h : LaidOut good labels program blocks)
    (hforward : ∀ k b position, program[k + 1]? = some b → b.position = some position →
      blocks.origin + blocks.offset k + blocks.lengthAt k ≤ position) {k : Nat}
    (hk : k < program.length) :
    (blocks.origin + blocks.offset k - blocks.positionAt k) % 0x10000 = 0 := by
  induction k with
  | zero =>
      have horigin : blocks.positionAt 0 = blocks.origin := by cases blocks <;> rfl
      rw [horigin, offset]
      omega
  | succ k ih =>
      have haligned := ih (by omega)
      obtain ⟨b, hb⟩ : ∃ b, program[k + 1]? = some b := ⟨_, List.getElem?_eq_getElem hk⟩
      have hposition := h.positionAt_succ hb
      cases hgiven : b.position with
      | none =>
          rw [h.offset_succ_of_position_eq_none hb hgiven]
          rw [hgiven, Option.getD_none, wrap_eq] at hposition
          omega
      | some position =>
          have hahead := hforward k b position hb hgiven
          rw [hgiven, Option.getD_some] at hposition
          rw [offset, hposition]
          omega

/-! ## Bytes -/

/-- The bytes of a block stand in the output at the offset of the block. -/
theorem body_prefix_drop_output (h : LaidOut good labels program blocks)
    (hencodes : Piece.Encodes labels 0 (pieces program)) (hsplit : program = front ++ b :: back) :
    ∃ start : Nat, blocks.offset front.length = start ∧
      (b.settledAt labels (cursorAfter front)).chunks.flatMap Chunk.data <+:
        (Piece.output labels blocks.origin 0 0 (pieces program)).drop start := by
  refine ⟨written blocks.origin front +
    Piece.gap blocks.origin (written blocks.origin front) b.position, ?_, ?_⟩
  · rw [h.offset_eq hsplit, Int.natCast_add]
  · rw [hsplit, pieces_append] at hencodes ⊢
    have hlength := @Piece.length_output labels blocks.origin 0 0 _ hencodes.of_append.1
    rw [Nat.zero_add] at hlength
    rw [Piece.output_append, pieces_cons, Piece.output_append, output_pieces, ← List.drop_drop,
      written, List.drop_left' hlength, List.append_assoc, List.drop_left' (by simp)]
    exact List.prefix_append _ _

theorem encode_eq (hencodes : Piece.Encodes labels 0 (pieces program))
    (hsplit : program = front ++ b :: back) :
    ∀ c ∈ (b.settledAt labels (cursorAfter front)).chunks, c.encode = .ok c.data := by
  rw [hsplit, pieces_append] at hencodes
  intro c hc
  obtain ⟨site, hsite, rfl⟩ := List.mem_map.1 hc
  exact (hencodes.of_append.2.of_append.1 site hsite).encode_eq

/-- A settled block has as many bytes as its length says. -/
theorem length_body (h : LaidOut good labels program blocks)
    (hencodes : Piece.Encodes labels 0 (pieces program)) (hsplit : program = front ++ b :: back) :
    (((b.settledAt labels (cursorAfter front)).chunks.flatMap Chunk.data).length : Int) =
      (b.settledAt labels (cursorAfter front)).length := by
  rw [hsplit, pieces_append] at hencodes
  have hblock := hencodes.of_append.2.of_append.1
  have hlength := @Piece.length_output labels 0 _ 0 _ hblock
  have hsize := Block.foldl_extend_pieces 0 0 (h.fitting hsplit)
  rw [output_pieces, List.length_append, List.length_replicate] at hlength
  simp only [Block.settledAt, cursorAfter]
  omega

end LaidOut

variable {labels : Labels} {base cursor : Int} {size : Nat} {program : Program}

/-- Every byte of the output is a zero or one of the bytes of a block. -/
theorem output_eq_zero_or_in_block {i : Nat}
    (hencodes : Piece.Encodes labels cursor (pieces program))
    (hi : i < (Piece.output labels base cursor size (pieces program)).length) :
    (Piece.output labels base cursor size (pieces program))[i]? = some 0 ∨
      ∃ front b back, program = front ++ b :: back ∧
        (pieces front).foldl (Piece.extend base) size +
          Piece.gap base ((pieces front).foldl (Piece.extend base) size) b.position ≤ size + i ∧
        size + i < (pieces (front ++ [b])).foldl (Piece.extend base) size := by
  induction program generalizing cursor size i with
  | nil => cases hi
  | cons b rest ih =>
      obtain ⟨hblock, hrest⟩ := hencodes.of_append
      have hlength := @Piece.length_output labels base cursor size _ hblock
      rw [pieces_cons, Piece.output_append] at hi ⊢
      by_cases hhere : i < (Piece.output labels base cursor size b.pieces).length
      · rw [List.getElem?_append_left hhere]
        by_cases hgap : i < Piece.gap base size b.position
        · left
          rw [output_pieces, List.getElem?_append_left (by simpa using hgap)]
          simp [hgap]
        · right
          refine ⟨[], b, rest, rfl, ?_, ?_⟩
          · simp only [pieces_nil, List.foldl_nil]
            omega
          · simp only [List.nil_append, pieces_cons, pieces_nil, List.append_nil]
            omega
      · rw [List.getElem?_append_right (Nat.not_lt.1 hhere)]
        have hbehind : i - (Piece.output labels base cursor size b.pieces).length <
            (Piece.output labels base (b.pieces.foldl Piece.advance cursor)
              (b.pieces.foldl (Piece.extend base) size) (pieces rest)).length := by
          rw [List.length_append] at hi
          omega
        rcases ih hrest hbehind with hzero | ⟨front, a, back, rfl, hlow, hhigh⟩
        · exact Or.inl hzero
        · right
          refine ⟨b :: front, a, back, rfl, ?_, ?_⟩
          · rw [pieces_cons, List.foldl_append]
            omega
          · rw [List.cons_append, pieces_cons, List.foldl_append]
            omega

/-- A byte of the output that lies in no block is a zero. -/
theorem LaidOut.output_eq_zero {good : Tag → Prop} {blocks : Program} {i : Nat}
    (h : LaidOut good labels program blocks) (hencodes : Piece.Encodes labels 0 (pieces program))
    (hi : i < (Piece.output labels blocks.origin 0 0 (pieces program)).length)
    (hfree : ∀ k block, blocks[k]? = some block →
      ¬ (blocks.offset k ≤ i ∧ i < blocks.offset k + block.length)) :
    (Piece.output labels blocks.origin 0 0 (pieces program))[i]? = some 0 := by
  rcases output_eq_zero_or_in_block hencodes hi with
    hzero | ⟨front, b, back, hsplit, hlow, hhigh⟩
  · exact hzero
  · have hoffset := h.offset_eq hsplit
    have hend := h.offset_add_lengthAt hsplit
    rw [h.lengthAt_eq hsplit] at hend
    refine absurd ?_ (hfree _ _ (h.getElem?_eq hsplit))
    simp only [Block.settledAt]
    unfold written at hoffset hend
    omega

end Program

/-! ## The image -/

/-- The image in closed form.  The blocks of a text that was built and laid out are written at their
offsets: there is an image exactly if the last of them ends within the address space, and otherwise
an assertion fails.  The image ends with the last block, it has the bytes of the chunks of every
block at the offset of the block, and zeros everywhere else.  If no block that a directive gave a
position to lies in front of the end of the block before it, every block is written at its position,
counted from the origin and modulo the address space. -/
theorem image_eq_blocks_at_offsets {unit : Int} {text : List Char} {statements : List Statement}
    {program blocks : Program} {labels : Labels}
    (hparse : Statement.parse unit text = .ok statements)
    (hbuild : Program.ofStatements statements = .ok program)
    (hlayout : (Program.layout program).labels = .ok labels)
    (hblocks : blocks = (Program.layout program).program) :
    (blocks = [] → Program.image blocks = .ok []) ∧
      (∀ n, blocks.length = n + 1 →
        ((∃ fault, Program.image blocks = .error fault) ↔
          0x10000 < blocks.offset n + blocks.lengthAt n) ∧
        (∀ fault, Program.image blocks = .error fault → fault.kind = .assertion) ∧
        (blocks.offset n + blocks.lengthAt n ≤ 0x10000 →
          ∃ code, Program.image blocks = .ok code ∧
            (code.length : Int) = blocks.offset n + blocks.lengthAt n ∧
            (∀ k block, blocks[k]? = some block →
              (∀ chunk ∈ block.chunks, chunk.encode = .ok chunk.data) ∧
              ((block.chunks.flatMap Chunk.data).length : Int) = block.length ∧
              ∃ start : Nat, blocks.offset k = start ∧
                block.chunks.flatMap Chunk.data <+: code.drop start) ∧
            ∀ i < code.length,
              (∀ k block, blocks[k]? = some block →
                ¬ (blocks.offset k ≤ i ∧ i < blocks.offset k + block.length)) →
              code[i]? = some 0)) ∧
      ((∀ k block position, program[k + 1]? = some block → block.position = some position →
          blocks.origin + blocks.offset k + blocks.lengthAt k ≤ position) →
        ∀ k block, blocks[k]? = some block → ∃ position, block.position = some position ∧
          (blocks.origin + blocks.offset k - position) % 0x10000 = 0) := by
  have hform := Statement.parse_wellFormed hparse
  have hsound := Program.ofStatements_sound hform hbuild
  obtain ⟨-, hprogram, -⟩ := Program.layout_ok hsound hlayout
  obtain ⟨hencodes, hfits, hover⟩ := Program.image_layout hsound hlayout
  rw [← hblocks] at hprogram hfits hover
  have hlaid : Program.LaidOut _ labels program blocks := ⟨hsound, hprogram⟩
  refine ⟨?_, ?_, ?_⟩
  · rintro rfl
    rfl
  · intro n hn
    have hend := hlaid.offset_add_lengthAt_last hn
    rw [hend]
    rcases Nat.lt_or_ge addressSpace (Program.written blocks.origin program) with hlarge | hsmall
    · obtain ⟨size, -, himage⟩ := hover hlarge
      unfold addressSpace at hlarge
      refine ⟨⟨fun _ => by omega, fun _ => ⟨_, himage⟩⟩, ?_, fun hle => by omega⟩
      intro fault hfault
      rw [himage] at hfault
      cases hfault
      rfl
    · have himage := hfits hsmall
      have hnone : ∀ fault, Program.image blocks ≠ .error fault := by
        intro fault hfault
        rw [himage] at hfault
        cases hfault
      unfold addressSpace at hsmall
      refine ⟨⟨?_, fun _ => by omega⟩, fun fault hfault => absurd hfault (hnone fault), fun _ => ?_⟩
      · rintro ⟨fault, hfault⟩
        exact absurd hfault (hnone fault)
      · refine ⟨_, himage, ?_, ?_, fun i hi hfree => hlaid.output_eq_zero hencodes hi hfree⟩
        · have hlength := @Piece.length_output labels blocks.origin 0 0 _ hencodes
          unfold Program.written
          omega
        · intro k block hblock
          obtain ⟨front, b, back, hsplit, rfl, rfl⟩ := hlaid.exists_split hblock
          exact ⟨Program.LaidOut.encode_eq hencodes hsplit, hlaid.length_body hencodes hsplit,
            hlaid.body_prefix_drop_output hencodes hsplit⟩
  · intro hforward k block hblock
    obtain ⟨front, b, back, hsplit, rfl, rfl⟩ := hlaid.exists_split hblock
    refine ⟨_, rfl, ?_⟩
    have hk : front.length < program.length := by
      rw [hsplit, List.length_append, List.length_cons]
      omega
    have haligned := hlaid.offset_aligned hforward hk
    rwa [hlaid.positionAt_eq hsplit] at haligned

/-- A gap, a block that straddles the end of the address space, and a label behind it. -/
theorem image_of_straddling_blocks :
    ∃ statements program labels code,
      Statement.parse 0 ".org $FFFA\n.byte 1\n.org $FFFE\n.byte 2, 3, 4\nx: nop".toList =
        .ok statements ∧
      Program.ofStatements statements = .ok program ∧
      (Program.layout program).labels = .ok labels ∧
      Program.image (Program.layout program).program = .ok code ∧
      code.length = 8 ∧ code[1]? = some 0 ∧ [2, 3, 4] <+: code.drop 4 ∧
      Program.positionAt (Program.layout program).program 2 = 1 ∧
      (0xFFFA + Program.offset (Program.layout program).program 2 - 1) % 0x10000 = 0 := by
  let statements : List Statement :=
    [.org (some ⟨0, 0⟩) ⟨.word, 0xFFFA⟩, .bytes (some ⟨0, 11⟩) [⟨.byte, 1⟩],
      .org (some ⟨0, 19⟩) ⟨.word, 0xFFFE⟩,
      .bytes (some ⟨0, 30⟩) [⟨.byte, 2⟩, ⟨.byte, 3⟩, ⟨.byte, 4⟩], .label (some ⟨0, 44⟩) "x",
      .instruction (some ⟨0, 47⟩) "nop" .none]
  let nop (position : Int) : Chunk :=
    .op (some ⟨0, 47⟩) ⟨.nop, .implied, 0xEA, 1⟩ (.resolved .implied .none) position
  let program : Program :=
    [⟨some 0xFFFA, none, [.bytes [1]], 0⟩, ⟨some 0xFFFE, none, [.bytes [2, 3, 4]], 0⟩,
      ⟨none, some "x", [nop 0], 0⟩]
  let blocks : Program :=
    [⟨some 0xFFFA, none, [.bytes [1]], 1⟩, ⟨some 0xFFFE, none, [.bytes [2, 3, 4]], 3⟩,
      ⟨some 1, some "x", [nop 1], 1⟩]
  have hparse : Statement.parse 0
      ".org $FFFA\n.byte 1\n.org $FFFE\n.byte 2, 3, 4\nx: nop".toList = .ok statements := rfl
  have hbuild : Program.ofStatements statements = .ok program := rfl
  have hrun : (Program.layout program).labels.isOk = true := by decide +kernel
  obtain ⟨labels, hlayout⟩ := ok_of_isOk hrun
  have hblocks : blocks = (Program.layout program).program := by decide +kernel
  obtain ⟨-, himage, haligned⟩ := image_eq_blocks_at_offsets hparse hbuild hlayout hblocks
  obtain ⟨-, -, hfits⟩ := himage 2 rfl
  obtain ⟨code, hcode, hlength, hbodies, hzeros⟩ := hfits (by decide)
  have hend : blocks.offset 2 + blocks.lengthAt 2 = 8 := by decide
  rw [hend] at hlength
  obtain ⟨-, -, start, hstart, hbody⟩ := hbodies 1 _ rfl
  have hfour : blocks.offset 1 = 4 := by decide
  obtain rfl : start = 4 := by omega
  have hgap : ∀ k block, blocks[k]? = some block →
      ¬ (blocks.offset k ≤ 1 ∧ 1 < blocks.offset k + block.length) := by
    rintro (_ | _ | _ | k) block hblock
    · cases hblock
      decide
    · cases hblock
      decide
    · cases hblock
      decide
    · cases hblock
  have hforward : ∀ k block position, program[k + 1]? = some block →
      block.position = some position →
      blocks.origin + blocks.offset k + blocks.lengthAt k ≤ position := by
    rintro (_ | _ | k) block position hblock hposition
    · cases hblock
      cases hposition
      decide
    · cases hblock
      cases hposition
    · cases hblock
  obtain ⟨position, hposition, hmodulo⟩ := haligned hforward 2 _ rfl
  cases hposition
  refine ⟨statements, program, labels, code, hparse, hbuild, hlayout, ?_⟩
  rw [← hblocks]
  exact ⟨hcode, by omega, hzeros 1 (by omega) hgap, hbody, by decide, hmodulo⟩

end Asm65
