import Asm65.Proofs.References

/-!
# The image in one pass

The image of a program that was laid out is written by a single pass over its pieces.  The pass
counts the bytes it has written: a chunk adds its bytes, and a piece that moves on to a position
adds zeros up to it.  A piece that moves back adds nothing, and neither does a label, because the
cursor is never ahead of the bytes written.

So the bytes of an instruction always stand behind those written for the statements in front of
it.  They stand at its address exactly if the last move in front of it did not lead back.
-/

namespace Asm65

/-! ## Bytes of chunks -/

namespace Chunk

/-- The bytes of a chunk; a chunk that cannot be encoded has none. -/
def data (c : Chunk) : Bytes :=
  match c.encode with
  | .ok encoded => encoded
  | .error _ => []

theorem data_of_encode {c : Chunk} {encoded : Bytes} (h : c.encode = .ok encoded) :
    c.data = encoded := by
  simp only [data, h]

/-- A chunk has bytes, and as many as it needs. -/
structure Encodes (labels : Labels) (site : Int × Chunk) : Prop where
  encode_eq : (settledAt labels site).encode = .ok (settledAt labels site).data
  length_eq : ((settledAt labels site).data.length : Int) = site.2.size

end Chunk

theorem Block.encodeFrom_eq {written : Bytes} {cs : List Chunk}
    (h : ∀ c ∈ cs, c.encode = .ok c.data) :
    Block.encodeFrom written cs = .ok (written.reverse ++ cs.flatMap Chunk.data) := by
  induction cs generalizing written with
  | nil => simp [Block.encodeFrom]
  | cons c cs ih =>
      simp only [Block.encodeFrom, h c List.mem_cons_self]
      rw [ih (fun d hd => h d (List.mem_cons_of_mem c hd))]
      simp [List.reverseAux_eq]

/-! ## The pass over the pieces -/

namespace Piece

variable {good : Tag → Prop} {labels : Labels} {base cursor : Int} {written : Nat}
  {p : Piece} {ps : List Piece}

/-- The zeros that lead to a position, if it lies ahead. -/
def gap (base : Int) (written : Nat) : Option Int → Nat
  | none => 0
  | some position => (position - (base + written)).toNat

/-- How many bytes are written behind a piece. -/
def extend (base : Int) (written : Nat) : Piece → Nat
  | .chunk c => written + c.size.toNat
  | .block position _ => written + gap base written position

/-- The bytes that a piece adds. -/
def added (labels : Labels) (base cursor : Int) (written : Nat) : Piece → Bytes
  | .chunk c => (Chunk.settledAt labels (cursor, c)).data
  | .block position _ => List.replicate (gap base written position) 0

/-- The bytes that pieces add. -/
def output (labels : Labels) (base : Int) : Int → Nat → List Piece → Bytes
  | _, _, [] => []
  | cursor, written, p :: rest =>
      p.added labels base cursor written ++
        output labels base (p.advance cursor) (p.extend base written) rest

/-- The chunks among pieces have bytes. -/
def Encodes (labels : Labels) (cursor : Int) (ps : List Piece) : Prop :=
  ∀ site ∈ listing cursor ps, Chunk.Encodes labels site

theorem Encodes.tail (h : Encodes labels cursor (p :: ps)) :
    Encodes labels (p.advance cursor) ps := by
  cases p with
  | chunk c => exact fun site hsite => h site (List.mem_cons_of_mem _ hsite)
  | block position label => exact h

theorem Encodes.of_append {xs ys : List Piece} (h : Encodes labels cursor (xs ++ ys)) :
    Encodes labels cursor xs ∧ Encodes labels (xs.foldl advance cursor) ys := by
  unfold Encodes at h ⊢
  rw [listing_append] at h
  exact ⟨fun site hsite => h site (List.mem_append_left _ hsite),
    fun site hsite => h site (List.mem_append_right _ hsite)⟩

theorem output_append (labels : Labels) (base cursor : Int) (written : Nat) (xs ys : List Piece) :
    output labels base cursor written (xs ++ ys) =
      output labels base cursor written xs ++
        output labels base (xs.foldl advance cursor) (xs.foldl (extend base) written) ys := by
  induction xs generalizing cursor written with
  | nil => rfl
  | cons p xs ih => simp [output, ih]

theorem output_chunks (labels : Labels) (base cursor : Int) (written : Nat) (cs : List Chunk) :
    output labels base cursor written (cs.map .chunk) =
      ((listing cursor (cs.map .chunk)).map (Chunk.settledAt labels)).flatMap Chunk.data := by
  induction cs generalizing cursor written with
  | nil => rfl
  | cons c cs ih => simp [output, listing, added, advance, ih]

/-- A piece adds as many bytes as it is counted for. -/
theorem length_added (h : Encodes labels cursor (p :: ps)) :
    written + (p.added labels base cursor written).length = p.extend base written := by
  cases p with
  | chunk c =>
      have hlength := (h (cursor, c) List.mem_cons_self).length_eq
      simp only at hlength
      simp only [added, extend]
      omega
  | block position label => simp [added, extend]

/-- Any number of pieces add as many bytes as they are counted for. -/
theorem length_output (h : Encodes labels cursor ps) :
    written + (output labels base cursor written ps).length =
      ps.foldl (extend base) written := by
  induction ps generalizing cursor written with
  | nil => rfl
  | cons p ps ih =>
      rw [output, List.length_append, ← Nat.add_assoc, length_added h, ih h.tail, List.foldl_cons]

theorem le_foldl_extend (base : Int) (written : Nat) (ps : List Piece) :
    written ≤ ps.foldl (extend base) written := by
  induction ps generalizing written with
  | nil => exact Nat.le_refl _
  | cons p ps ih =>
      have hstep : written ≤ p.extend base written := by
        cases p <;> exact Nat.le_add_right _ _
      exact Nat.le_trans hstep (ih _)

/-- A piece does not take the cursor ahead of the bytes written. -/
theorem advance_le_extend (hcursor : InSpace cursor) (hsound : p.Sound good)
    (hreach : cursor ≤ base + written) : p.advance cursor ≤ base + p.extend base written := by
  cases p with
  | chunk c =>
      have hsize := (Chunk.Sound.fitting hsound).size_nonneg
      obtain ⟨hlow, -⟩ := hcursor
      simp only [advance, extend, wrap_eq]
      omega
  | block position label =>
      cases position with
      | none => simpa [advance, extend, gap] using hreach
      | some address =>
          simp only [advance, extend, gap, Option.getD_some]
          omega

/-- Any number of pieces do not take the cursor ahead of the bytes written. -/
theorem foldl_advance_le (hcursor : InSpace cursor) (hsound : ∀ p ∈ ps, p.Sound good)
    (hreach : cursor ≤ base + written) :
    ps.foldl advance cursor ≤ base + (ps.foldl (extend base) written : Nat) := by
  induction ps generalizing cursor written with
  | nil => exact hreach
  | cons p ps ih =>
      have hp := hsound p List.mem_cons_self
      exact ih (advance_inSpace hcursor hp) (fun q hq => hsound q (List.mem_cons_of_mem p hq))
        (advance_le_extend hcursor hp hreach)

end Piece

/-! ## The image of a program -/

theorem Chunk.encodes_of_sound {good : Tag → Prop} {labels : Labels} {site : Int × Chunk}
    (hsound : (settledAt labels site).Sound good) (hsettled : (settledAt labels site).Settled)
    (hsize : (settledAt labels site).size = site.2.size) : Chunk.Encodes labels site := by
  obtain ⟨encoded, hencode, hlength⟩ := hsound.encode_ok hsettled
  have hdata := data_of_encode hencode
  exact ⟨by rw [hencode, hdata], by rw [hdata, hlength, hsize]⟩

namespace Program

variable {good : Tag → Prop} {labels : Labels} {base cursor : Int} {size : Nat} {written : Bytes}

theorem checkSize_gap (hbase : 0 ≤ base) {position : Int} (hposition : InSpace position) :
    Bytes.checkSize (position - (base + size)).toNat = .ok () := by
  obtain ⟨-, hhigh⟩ := hposition
  unfold Bytes.checkSize Bytes.countLimit Bytes.memoryLimit
  rw [if_neg (by omega), if_neg (by omega)]

/-- The bytes of a settled block, behind the zeros that lead to it. -/
theorem output_pieces (labels : Labels) (base cursor : Int) (size : Nat) (b : Block) :
    Piece.output labels base cursor size b.pieces =
      List.replicate (Piece.gap base size b.position) 0 ++
        ((Piece.listing cursor b.pieces).map (Chunk.settledAt labels)).flatMap Chunk.data := by
  rw [Block.pieces, Piece.output, Piece.output_chunks]
  rfl

/-- A block that has no position of its own stands at the cursor, which is not ahead of the bytes
written. -/
theorem gap_getD (hreach : cursor ≤ base + size) (position : Option Int) :
    (position.getD cursor - (base + size)).toNat = Piece.gap base size position := by
  cases position with
  | none =>
      simp only [Option.getD_none, Piece.gap]
      omega
  | some address => rfl

/-- One block of an image. -/
theorem imageFrom_cons {b : Block} {rest : Program} (hbase : 0 ≤ base)
    (hposition : InSpace (b.position.getD cursor)) (hreach : cursor ≤ base + size)
    (hblock : Piece.Encodes labels cursor b.pieces) :
    imageFrom base size written (settledFrom labels cursor (b :: rest)) =
      if b.pieces.foldl (Piece.extend base) size > addressSpace then
        .error (.imageTooLarge (b.pieces.foldl (Piece.extend base) size))
      else imageFrom base (b.pieces.foldl (Piece.extend base) size)
        ((Piece.output labels base cursor size b.pieces).reverse ++ written)
        (settledFrom labels (b.pieces.foldl Piece.advance cursor) rest) := by
  have hcheck := @checkSize_gap base size hbase _ hposition
  rw [gap_getD hreach] at hcheck
  have hlength := @Piece.length_output labels base cursor size _ hblock
  rw [output_pieces] at hlength ⊢
  generalize hbody : ((Piece.listing cursor b.pieces).map (Chunk.settledAt labels)).flatMap
    Chunk.data = body at hlength ⊢
  have hencode : Block.encodeFrom [] ((Piece.listing cursor b.pieces).map
      (Chunk.settledAt labels)) = .ok body := by
    rw [Block.encodeFrom_eq, hbody]
    · rfl
    · intro c hc
      obtain ⟨site, hsite, rfl⟩ := List.mem_map.1 hc
      exact (hblock site hsite).encode_eq
  rw [List.length_append, List.length_replicate, ← Nat.add_assoc] at hlength
  rw [← hlength, List.reverse_append, List.reverse_replicate, List.append_assoc,
    ← List.reverseAux_eq]
  simp only [settledFrom, imageFrom, Block.encode, hencode, gap_getD hreach, hcheck]
  rfl

/-- The image of blocks is what the pass over their pieces adds, unless it grows larger than the
address space. -/
theorem imageFrom_settledFrom {program : Program} (hbase : 0 ≤ base) (hcursor : InSpace cursor)
    (hreach : cursor ≤ base + size) (hsound : ∀ p ∈ pieces program, p.Sound good)
    (hencodes : Piece.Encodes labels cursor (pieces program)) (hsize : size ≤ addressSpace) :
    ((pieces program).foldl (Piece.extend base) size ≤ addressSpace →
        imageFrom base size written (settledFrom labels cursor program) =
          .ok (written.reverse ++ Piece.output labels base cursor size (pieces program))) ∧
      (addressSpace < (pieces program).foldl (Piece.extend base) size →
        ∃ n, addressSpace < n ∧ imageFrom base size written (settledFrom labels cursor program) =
          .error (.imageTooLarge n)) := by
  induction program generalizing cursor size written with
  | nil =>
      refine ⟨fun _ => by simp [imageFrom, settledFrom, Piece.output], ?_⟩
      intro hover
      exact absurd hover (Nat.not_lt.2 hsize)
  | cons b rest ih =>
      obtain ⟨hblock, hrest⟩ := hencodes.of_append
      rw [imageFrom_cons hbase (position_inSpace hcursor hsound) hreach hblock, pieces_cons,
        List.foldl_append, Piece.output_append]
      have hgrows := Piece.le_foldl_extend base (b.pieces.foldl (Piece.extend base) size)
        (pieces rest)
      have hnext : InSpace (b.pieces.foldl Piece.advance cursor) :=
        Piece.foldl_advance_inSpace hcursor (sound_head hsound)
      have hahead : b.pieces.foldl Piece.advance cursor ≤
          base + (b.pieces.foldl (Piece.extend base) size : Nat) :=
        Piece.foldl_advance_le hcursor (sound_head hsound) hreach
      -- the size only grows, so one block that is too much decides
      generalize b.pieces.foldl (Piece.extend base) size = newSize at hgrows hahead
      by_cases hover : newSize > addressSpace
      · rw [if_pos hover]
        exact ⟨fun hfits => by omega, fun _ => ⟨newSize, hover, rfl⟩⟩
      · rw [if_neg hover]
        obtain ⟨hok, herror⟩ := @ih _ newSize
          ((Piece.output labels base cursor size b.pieces).reverse ++ written) hnext hahead
          (sound_rest hsound) hrest (Nat.not_lt.1 hover)
        refine ⟨fun hfits => ?_, herror⟩
        rw [hok hfits]
        simp

/-- The image of a program that was laid out. -/
theorem image_layout {program : Program} (hsound : ∀ p ∈ pieces program, p.Sound good)
    (hlayout : (layout program).labels = .ok labels) :
    Piece.Encodes labels 0 (pieces program) ∧
      ((pieces program).foldl (Piece.extend (origin (layout program).program)) 0 ≤ addressSpace →
        image (layout program).program = .ok (Piece.output labels
          (origin (layout program).program) 0 0 (pieces program))) ∧
      (addressSpace < (pieces program).foldl
          (Piece.extend (origin (layout program).program)) 0 →
        ∃ n, addressSpace < n ∧ image (layout program).program = .error (.imageTooLarge n)) := by
  have hstart : InSpace 0 := ⟨by decide, by decide⟩
  obtain ⟨hlabels, hprogram, hall⟩ := layout_ok hsound hlayout
  have hspace : labels.InSpace := by
    rw [hlabels]
    exact Piece.bindings_start_inSpace hsound
  have hencodes : Piece.Encodes labels 0 (pieces program) := by
    intro site hsite
    obtain ⟨hchunk, hsettled, hsize⟩ := settledAt_sound hstart hspace hsound hall site hsite
    exact Chunk.encodes_of_sound hchunk hsettled hsize
  have horigin : 0 ≤ origin (layout program).program := by
    rw [hprogram]
    cases program with
    | nil => exact Int.le_refl 0
    | cons b rest => exact (position_inSpace hstart hsound).1
  obtain ⟨hok, herror⟩ := @imageFrom_settledFrom good labels _ 0 0 [] program horigin hstart
    (by omega) hsound hencodes (Nat.zero_le _)
  rw [hprogram] at hok herror ⊢
  exact ⟨hencodes, hok, herror⟩

end Program

/-! ## The pass over the statements -/

/-- Where the image of statements starts: at the address of a move in front of all that counts, or
at zero. -/
def Statement.imageStart : List Statement → Int
  | .org _ address :: _ | .pad _ address :: _ => address.value
  | .comment _ :: rest | .includeFile _ _ :: rest => imageStart rest
  | _ => 0

/-- How far the image of some statements has come. -/
structure ImageWalk where
  /-- How many bytes are written. -/
  size : Nat
  /-- Whether the last move, if there was one, led ahead or to where the next byte goes. -/
  aligned : Bool

namespace ImageWalk

/-- The walk before the first statement. -/
def start : ImageWalk :=
  ⟨0, true⟩

/-- Takes one more statement of an image that starts at a base address. -/
def step (base : Int) (walk : ImageWalk) (statement : Statement) : ImageWalk :=
  match statement with
  | .org _ address | .pad _ address =>
      { size := max walk.size (address.value - base).toNat
        aligned := base + walk.size ≤ address.value ∨
          (base + walk.size - address.value) % 0x10000 = 0 }
  | _ => { walk with size := walk.size + statement.size.toNat }

/-- The walk over some statements. -/
def across (base : Int) (statements : List Statement) : ImageWalk :=
  statements.foldl (step base) start

variable {base : Int} {walk : ImageWalk} {statements : List Statement}

theorem step_move_size (base : Int) (size : Nat) (address : Int) :
    max size (address - base).toNat = size + Piece.gap base size (some address) := by
  simp only [Piece.gap]
  omega

/-- One statement adds as many bytes as its piece. -/
theorem step_size {s : Statement} {added : Option Piece} (h : s.piece = .ok added) :
    (walk.step base s).size = added.toList.foldl (Piece.extend base) walk.size := by
  cases Statement.adds_of_piece h with
  | comment tag => rfl
  | includeFile tag path => rfl
  | label tag name => rfl
  | org tag address hwidth => exact step_move_size base walk.size address.value
  | pad tag address hwidth => exact step_move_size base walk.size address.value
  | instruction tag mnemonic operand code param hmade =>
      simp [step, Piece.extend, Statement.size_of_piece h]
  | bytes tag values data hlength => simp [step, Piece.extend, Statement.size_of_piece h]
  | words tag values data hlength => simp [step, Piece.extend, Statement.size_of_piece h]
  | vector tag label => rfl

/-- Any number of statements add as many bytes as their pieces. -/
theorem foldl_step_size (hall : ∀ s ∈ statements, ∃ p, s.piece = .ok p) :
    (statements.foldl (step base) walk).size =
      (statements.filterMap Statement.piece?).foldl (Piece.extend base) walk.size := by
  induction statements generalizing walk with
  | nil => rfl
  | cons s rest ih =>
      obtain ⟨added, hadded⟩ := hall s List.mem_cons_self
      rw [List.foldl_cons, Statement.filterMap_piece?_cons hadded, List.foldl_append,
        ← step_size hadded]
      exact ih (fun u hu => hall u (List.mem_cons_of_mem s hu))

theorem size_across (hall : ∀ s ∈ statements, ∃ p, s.piece = .ok p) :
    (across base statements).size =
      (statements.filterMap Statement.piece?).foldl (Piece.extend base) 0 :=
  foldl_step_size hall

/-- The image walk is aligned exactly if the next byte goes to the cursor of the flat walk. -/
def Agrees (base : Int) (flat : FlatWalk) (walk : ImageWalk) : Prop :=
  walk.aligned = true ↔ (base + walk.size - flat.cursor) % 0x10000 = 0

variable {flat : FlatWalk}

theorem agrees_move {address : Int} :
    Agrees base { flat with cursor := address }
      { size := max walk.size (address - base).toNat
        aligned := base + walk.size ≤ address ∨ (base + walk.size - address) % 0x10000 = 0 } := by
  simp only [Agrees, decide_eq_true_eq]
  omega

theorem agrees_advance {size : Int} (hsize : 0 ≤ size) (h : Agrees base flat walk)
    (instructions : List MapEntry) :
    Agrees base ⟨wrap (flat.cursor + size), flat.labels, instructions⟩
      { walk with size := walk.size + size.toNat } := by
  unfold Agrees at h ⊢
  rw [h]
  simp only [wrap_eq]
  omega

/-- One statement keeps the two walks in agreement. -/
theorem Agrees.step (h : Agrees base flat walk) (s : Statement) :
    Agrees base (flat.step s) (walk.step base s) := by
  have hsize := s.size_nonneg
  cases s with
  | comment tag => exact h
  | label tag name => exact h
  | instruction tag mnemonic operand => exact agrees_advance hsize h _
  | org tag address => exact agrees_move
  | pad tag address => exact agrees_move
  | bytes tag values => exact agrees_advance hsize h _
  | words tag values => exact agrees_advance hsize h _
  | vector tag label => exact agrees_advance hsize h _
  | includeFile tag path => exact h
  | unknown => exact h

/-- Any number of statements keep the two walks in agreement. -/
theorem Agrees.foldl_step (h : Agrees base flat walk) (statements : List Statement) :
    Agrees base (statements.foldl FlatWalk.step flat)
      (statements.foldl (ImageWalk.step base) walk) := by
  induction statements generalizing flat walk with
  | nil => exact h
  | cons s rest ih => exact ih (h.step s)

theorem agrees_start : Agrees 0 FlatWalk.start start :=
  ⟨fun _ => rfl, fun _ => rfl⟩

/-- The two walks agree in front of every statement that adds a chunk. -/
theorem agrees_across {front back : List Statement} {s : Statement} (hs : s.addsChunk = true) :
    Agrees (Statement.imageStart (front ++ s :: back)) (FlatWalk.across front)
      (across (Statement.imageStart (front ++ s :: back)) front) := by
  induction front with
  | nil =>
      have hbase : Statement.imageStart ([] ++ s :: back) = 0 := by
        cases s <;> first | rfl | cases hs
      rw [hbase]
      exact agrees_start
  | cons u front ih =>
      cases u with
      | comment tag => exact ih
      | includeFile tag path => exact ih
      -- the image starts where the first move leads, so this move is aligned
      | org tag address => exact Agrees.foldl_step agrees_move front
      | pad tag address => exact Agrees.foldl_step agrees_move front
      -- and otherwise it starts at zero, as the flat walk does
      | label tag name => exact agrees_start.foldl_step _
      | instruction tag mnemonic operand => exact agrees_start.foldl_step _
      | bytes tag values => exact agrees_start.foldl_step _
      | words tag values => exact agrees_start.foldl_step _
      | vector tag label => exact agrees_start.foldl_step _
      | unknown => exact agrees_start.foldl_step _

end ImageWalk

/-! ## Where the image starts, and where it has the bytes of a statement -/

/-- The position of the block that pieces begin with, or zero. -/
def Piece.start : List Piece → Int
  | .block (some position) _ :: _ => position
  | _ => 0

theorem Statement.start_filterMap {statements : List Statement}
    (hall : ∀ s ∈ statements, ∃ p, s.piece = .ok p) :
    Piece.start (statements.filterMap piece?) = imageStart statements := by
  induction statements with
  | nil => rfl
  | cons s rest ih =>
      obtain ⟨added, hadded⟩ := hall s List.mem_cons_self
      have htail := ih (fun u hu => hall u (List.mem_cons_of_mem s hu))
      rw [filterMap_piece?_cons hadded]
      cases adds_of_piece hadded with
      | comment tag => exact htail
      | includeFile tag path => exact htail
      | label tag name => rfl
      | org tag address hwidth => rfl
      | pad tag address hwidth => rfl
      | instruction tag mnemonic operand code param hmade => rfl
      | bytes tag values data hlength => rfl
      | words tag values data hlength => rfl
      | vector tag label => rfl

namespace Program

variable {good : Tag → Prop} {statements : List Statement} {program : Program} {labels : Labels}

theorem origin_settledFrom (labels : Labels) (program : Program) :
    origin (settledFrom labels 0 program) = Piece.start (pieces program) := by
  cases program with
  | nil => rfl
  | cons b rest =>
      show b.position.getD 0 = Piece.start (b.pieces ++ pieces rest)
      unfold Block.pieces
      cases b.position <;> rfl

/-- The image of a program starts where the image of its statements does. -/
theorem origin_layout (hform : ∀ s ∈ statements, s.WellFormed good)
    (hbuild : ofStatements statements = .ok program)
    (hlayout : (layout program).labels = .ok labels) :
    origin (layout program).program = Statement.imageStart statements := by
  obtain ⟨-, hprogram, -⟩ := layout_ok (ofStatements_sound hform hbuild) hlayout
  obtain ⟨rfl, hall⟩ := ofStatements_ok hbuild
  rw [hprogram, origin_settledFrom, ← Statement.start_filterMap hall]
  rcases pieces_ofPieces (statements.filterMap Statement.piece?) with heq | ⟨⟨c, rest, hadded⟩, heq⟩
  · rw [heq]
  · rw [heq, hadded]
    rfl

/-- The image of statements that were built and laid out: the bytes of the pass over their pieces,
or the image is too large. -/
theorem image_statements (hform : ∀ s ∈ statements, s.WellFormed good)
    (hbuild : ofStatements statements = .ok program)
    (hlayout : (layout program).labels = .ok labels) :
    Piece.Encodes labels 0 (statements.filterMap Statement.piece?) ∧
      ((ImageWalk.across (Statement.imageStart statements) statements).size ≤ addressSpace →
        image (layout program).program = .ok (Piece.output labels
          (Statement.imageStart statements) 0 0 (statements.filterMap Statement.piece?))) ∧
      (addressSpace < (ImageWalk.across (Statement.imageStart statements) statements).size →
        ∃ n, addressSpace < n ∧ image (layout program).program = .error (.imageTooLarge n)) := by
  have himage := image_layout (ofStatements_sound hform hbuild) hlayout
  rw [origin_layout hform hbuild hlayout] at himage
  obtain ⟨rfl, hall⟩ := ofStatements_ok hbuild
  rw [ImageWalk.size_across hall]
  rcases pieces_ofPieces (statements.filterMap Statement.piece?) with heq | ⟨-, heq⟩
  · rw [heq] at himage
    exact himage
  · rw [heq] at himage
    exact himage

/-- The image has the bytes of a statement behind those of the statements in front of it. -/
theorem image_statement {front back : List Statement} {s : Statement} {c : Chunk} {code : Bytes}
    (hform : ∀ u ∈ front ++ s :: back, u.WellFormed good)
    (hbuild : ofStatements (front ++ s :: back) = .ok program)
    (hlayout : (layout program).labels = .ok labels)
    (himage : image (layout program).program = .ok code)
    (hpiece : s.piece = .ok (some (.chunk c))) :
    (Chunk.settledAt labels ((FlatWalk.across front).cursor, c)).data <+:
        code.drop (ImageWalk.across (Statement.imageStart (front ++ s :: back)) front).size ∧
      (ImageWalk.across (Statement.imageStart (front ++ s :: back)) front).size + c.size ≤
        addressSpace := by
  obtain ⟨hencodes, hfits, hover⟩ := image_statements hform hbuild hlayout
  obtain ⟨-, hall⟩ := ofStatements_ok hbuild
  generalize Statement.imageStart (front ++ s :: back) = base at hfits hover ⊢
  have hextent : (ImageWalk.across base (front ++ s :: back)).size ≤ addressSpace := by
    apply Nat.not_lt.1
    intro hlarge
    obtain ⟨n, -, herror⟩ := hover hlarge
    rw [himage] at herror
    cases herror
  rw [hfits hextent] at himage
  cases himage
  rw [ImageWalk.size_across hall] at hextent
  have hfront : ∀ u ∈ front, ∃ p, u.piece = .ok p :=
    fun u hu => hall u (List.mem_append_left _ hu)
  rw [FlatWalk.cursor_across hfront, ImageWalk.size_across hfront]
  rw [List.filterMap_append, Statement.filterMap_piece?_cons hpiece, Option.toList_some,
    List.singleton_append] at hencodes hextent ⊢
  -- the bytes of the statements in front are counted by the walk, and are dropped
  have hlength := @Piece.length_output labels base 0 0 _ hencodes.of_append.1
  rw [Nat.zero_add] at hlength
  refine ⟨?_, ?_⟩
  · rw [Piece.output_append, List.drop_left' hlength]
    exact List.prefix_append _ _
  · have hsize : 0 ≤ c.size := by
      rw [Statement.size_of_piece hpiece]
      exact s.size_nonneg
    rw [List.foldl_append, List.foldl_cons] at hextent
    have hchunk := Nat.le_trans (Piece.le_foldl_extend base _ _) hextent
    simp only [Piece.extend] at hchunk
    omega

end Program

end Asm65
