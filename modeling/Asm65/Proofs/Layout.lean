import Asm65.Proofs.Building
import Asm65.Proofs.Relayout

/-!
# The layout in one pass

A layout that succeeds does what a single pass over the pieces of the program does.  The pass has
a cursor: the beginning of a block moves it to the given position, if there is one, and binds the
label to it; a chunk stands at it and moves it on.  The three passes of the layout compute the
same addresses block by block, because the sum of the lengths of a block, wrapped once, is the
cursor behind its last chunk.
-/

namespace Asm65

/-! ## The pass over the pieces -/

namespace Piece

/-- The cursor behind a piece. -/
def advance (cursor : Int) : Piece → Int
  | .chunk c => wrap (cursor + c.size)
  | .block position _ => position.getD cursor

/-- The chunks among pieces with the addresses they stand at. -/
def listing (cursor : Int) : List Piece → List (Int × Chunk)
  | [] => []
  | .chunk c :: rest => (cursor, c) :: listing (wrap (cursor + c.size)) rest
  | .block position _ :: rest => listing (position.getD cursor) rest

/-- The labels among pieces with the addresses they stand at, on top of labels so far. -/
def bindings (cursor : Int) (labels : Labels) : List Piece → Labels
  | [] => labels
  | .chunk c :: rest => bindings (wrap (cursor + c.size)) labels rest
  | .block position none :: rest => bindings (position.getD cursor) labels rest
  | .block position (some name) :: rest =>
      bindings (position.getD cursor) (labels.insert name (position.getD cursor)) rest

theorem listing_append (cursor : Int) (xs ys : List Piece) :
    listing cursor (xs ++ ys) = listing cursor xs ++ listing (xs.foldl advance cursor) ys := by
  induction xs generalizing cursor with
  | nil => rfl
  | cons p xs ih =>
      cases p with
      | chunk c => simp [listing, advance, ih]
      | block position label => simp [listing, advance, ih]

theorem bindings_append (cursor : Int) (labels : Labels) (xs ys : List Piece) :
    bindings cursor labels (xs ++ ys) =
      bindings (xs.foldl advance cursor) (bindings cursor labels xs) ys := by
  induction xs generalizing cursor labels with
  | nil => rfl
  | cons p xs ih =>
      cases p with
      | chunk c => simp [bindings, advance, ih]
      | block position label =>
          cases label with
          | none => simp [bindings, advance, ih]
          | some name => simp [bindings, advance, ih]

theorem bindings_chunks (cursor : Int) (labels : Labels) (cs : List Chunk) :
    bindings cursor labels (cs.map .chunk) = labels := by
  induction cs generalizing cursor with
  | nil => rfl
  | cons c cs ih => exact ih _

/-- A piece leaves the cursor in the address space. -/
theorem advance_inSpace {good : Tag → Prop} {cursor : Int} {p : Piece}
    (hcursor : InSpace cursor) (hsound : p.Sound good) : InSpace (advance cursor p) := by
  cases p with
  | chunk c => exact wrap_inSpace _
  | block position label =>
      cases position with
      | none => exact hcursor
      | some address => exact hsound address rfl

/-- Any number of pieces leave the cursor in the address space. -/
theorem foldl_advance_inSpace {good : Tag → Prop} {cursor : Int} {ps : List Piece}
    (hcursor : InSpace cursor) (hsound : ∀ p ∈ ps, p.Sound good) :
    InSpace (ps.foldl advance cursor) := by
  induction ps generalizing cursor with
  | nil => exact hcursor
  | cons p ps ih =>
      exact ih (advance_inSpace hcursor (hsound p List.mem_cons_self))
        (fun q hq => hsound q (List.mem_cons_of_mem p hq))

theorem bindings_inSpace {good : Tag → Prop} {cursor : Int} {labels : Labels} {ps : List Piece}
    (hcursor : InSpace cursor) (hlabels : labels.InSpace) (hsound : ∀ p ∈ ps, p.Sound good) :
    (bindings cursor labels ps).InSpace := by
  induction ps generalizing cursor labels with
  | nil => exact hlabels
  | cons p ps ih =>
      have hrest := fun q hq => hsound q (List.mem_cons_of_mem p hq)
      have hnext : InSpace (advance cursor p) :=
        advance_inSpace hcursor (hsound p List.mem_cons_self)
      cases p with
      | chunk c => exact ih hnext hlabels hrest
      | block position label =>
          cases label with
          | none => exact ih hnext hlabels hrest
          | some name =>
              refine ih hnext ?_ hrest
              intro other address hother
              rw [Std.TreeMap.getElem?_insert] at hother
              split at hother
              · cases hother
                exact hnext
              · exact hlabels other address hother

theorem bindings_start_inSpace {good : Tag → Prop} {ps : List Piece}
    (hsound : ∀ p ∈ ps, p.Sound good) : (bindings 0 ∅ ps).InSpace := by
  refine bindings_inSpace ⟨by decide, by decide⟩ ?_ hsound
  intro name address hbound
  simp at hbound

theorem listing_inSpace {good : Tag → Prop} {cursor : Int} {ps : List Piece}
    (hcursor : InSpace cursor) (hsound : ∀ p ∈ ps, p.Sound good) :
    ∀ site ∈ listing cursor ps, InSpace site.1 ∧ site.2.Sound good := by
  induction ps generalizing cursor with
  | nil =>
      intro site hsite
      cases hsite
  | cons p ps ih =>
      have hrest := fun q hq => hsound q (List.mem_cons_of_mem p hq)
      have hnext : InSpace (advance cursor p) :=
        advance_inSpace hcursor (hsound p List.mem_cons_self)
      intro site hsite
      cases p with
      | chunk c =>
          rcases List.mem_cons.1 hsite with rfl | hsite
          · exact ⟨hcursor, hsound _ List.mem_cons_self⟩
          · exact ih hnext hrest site hsite
      | block position label => exact ih hnext hrest site hsite

end Piece

/-! ## Lengths -/

namespace Block

/-- The size of a block. -/
def size (b : Block) : Int :=
  (b.chunks.map Chunk.size).sum

theorem sumLengths_eq {sum : Int} {cs : List Chunk} (hfit : ∀ c ∈ cs, c.Fitting) :
    sumLengths sum cs = .ok (sum + (cs.map Chunk.size).sum) := by
  induction cs generalizing sum with
  | nil => simp [sumLengths]
  | cons c cs ih =>
      simp only [sumLengths, (hfit c List.mem_cons_self).length_eq]
      rw [ih (fun d hd => hfit d (List.mem_cons_of_mem c hd))]
      simp only [List.map_cons, List.sum_cons]
      congr 1
      omega

theorem measure_eq {total : Int} {b : Block} (hfit : ∀ c ∈ b.chunks, c.Fitting) :
    b.measure total = ({ b with length := b.size },
      if total + b.size > capacity then .error (.problem .capacity none)
      else .ok (total + b.size)) := by
  simp only [measure, sumLengths_eq hfit, Int.zero_add]
  rfl

theorem size_nonneg {b : Block} (hfit : ∀ c ∈ b.chunks, c.Fitting) : 0 ≤ b.size := by
  unfold size
  generalize b.chunks = cs at hfit
  induction cs with
  | nil => simp
  | cons c cs ih =>
      have hc := (hfit c List.mem_cons_self).size_nonneg
      have hcs := ih (fun d hd => hfit d (List.mem_cons_of_mem c hd))
      rw [List.map_cons, List.sum_cons]
      omega

/-- The cursor behind a block is its position and its size, wrapped once. -/
theorem foldl_advance_pieces {cursor : Int} {b : Block}
    (hposition : InSpace (b.position.getD cursor)) :
    b.pieces.foldl Piece.advance cursor = wrap (b.position.getD cursor + b.size) := by
  -- wrapping after every chunk and wrapping the sum come to the same
  have hchunks : ∀ (cs : List Chunk) (a : Int), InSpace a →
      (cs.map Piece.chunk).foldl Piece.advance a = wrap (a + (cs.map Chunk.size).sum) := by
    intro cs
    induction cs with
    | nil =>
        intro a ha
        simpa using (wrap_of_inSpace ha).symm
    | cons c cs ih =>
        intro a ha
        rw [List.map_cons, List.foldl_cons, Piece.advance, ih _ (wrap_inSpace _), wrap_wrap_add,
          List.map_cons, List.sum_cons, Int.add_assoc]
  exact hchunks b.chunks _ hposition

@[simp] theorem place_address (placement : Placement) (b : Block) :
    (b.place placement).2.address = wrap (b.position.getD placement.address + b.length) :=
  rfl

/-- Placing a block binds its label to its position. -/
theorem place_labels (placement : Placement) (b : Block) :
    (b.place placement).2.labels =
      Piece.bindings placement.address placement.labels b.pieces := by
  unfold place Placement.bind pieces
  cases b.label with
  | none => exact (Piece.bindings_chunks _ _ _).symm
  | some name =>
      simp only
      rw [Piece.bindings, Piece.bindings_chunks]
      split <;> rfl

end Block

namespace Program

variable {good : Tag → Prop}

theorem sound_head {b : Block} {rest : Program}
    (hsound : ∀ p ∈ pieces (b :: rest), p.Sound good) : ∀ p ∈ b.pieces, p.Sound good :=
  fun p hp => hsound p (List.mem_append_left _ hp)

theorem sound_rest {b : Block} {rest : Program}
    (hsound : ∀ p ∈ pieces (b :: rest), p.Sound good) : ∀ p ∈ pieces rest, p.Sound good :=
  fun p hp => hsound p (List.mem_append_right _ hp)

theorem position_inSpace {b : Block} {rest : Program} {cursor : Int} (hcursor : InSpace cursor)
    (hsound : ∀ p ∈ pieces (b :: rest), p.Sound good) : InSpace (b.position.getD cursor) :=
  Piece.advance_inSpace (p := .block b.position b.label) hcursor
    (sound_head hsound _ List.mem_cons_self)

/-- What building guarantees of the chunks of a program, whatever the statements. -/
def Fitting (program : Program) : Prop :=
  ∀ b ∈ program, ∀ c ∈ b.chunks, c.Fitting

theorem fitting_of_sound {program : Program} (hsound : ∀ p ∈ pieces program, p.Sound good) :
    program.Fitting := by
  intro b hb c hc
  have hpiece : Piece.chunk c ∈ pieces program :=
    List.mem_flatMap.2 ⟨b, hb, List.mem_cons_of_mem _ (List.mem_map_of_mem hc)⟩
  exact Chunk.Sound.fitting (hsound _ hpiece)

/-- The size of a program. -/
def size (program : Program) : Int :=
  (program.map Block.size).sum

theorem size_cons (b : Block) (rest : Program) : size (b :: rest) = b.size + size rest := by
  simp [size]

theorem size_nonneg {program : Program} (hfit : program.Fitting) : 0 ≤ size program := by
  induction program with
  | nil => exact Int.le_refl 0
  | cons b rest ih =>
      obtain ⟨hblock, hrest⟩ := List.forall_mem_cons.1 hfit
      have hhead := Block.size_nonneg hblock
      have htail := ih hrest
      rw [size_cons]
      omega

/-- The blocks of a program with their sizes as lengths. -/
def measured (program : Program) : Program :=
  program.map fun b => { b with length := b.size }

/-- The first pass measures every block, or finds the program too large. -/
theorem walk_measure {total : Int} {program : Program} (hfit : program.Fitting)
    (htotal : total ≤ capacity) :
    (total + size program ≤ capacity →
        walk Block.measure total program = (program.measured, .ok (total + size program))) ∧
      (capacity < total + size program → ∃ blocks,
        walk Block.measure total program = (blocks, .error (.problem .capacity none))) := by
  induction program generalizing total with
  | nil =>
      refine ⟨fun _ => by simp [measured, size], fun hlarge => ?_⟩
      simp only [size, List.map_nil, List.sum_nil] at hlarge
      omega
  | cons b rest ih =>
      obtain ⟨hblock, hrest⟩ := List.forall_mem_cons.1 hfit
      have hnonneg := size_nonneg hrest
      rw [walk_cons, Block.measure_eq hblock, size_cons]
      by_cases hover : total + b.size > capacity
      -- no block takes space back, so one block that is too much decides
      · rw [if_pos hover]
        exact ⟨fun hfits => by omega, fun _ => ⟨_, rfl⟩⟩
      · rw [if_neg hover]
        obtain ⟨hfits, hlarge⟩ := ih hrest (by omega : total + b.size ≤ capacity)
        rw [← Int.add_assoc]
        refine ⟨fun hsize => ?_, fun hsize => ?_⟩
        · simp only [hfits hsize]
          rfl
        · obtain ⟨blocks, hblocks⟩ := hlarge hsize
          simp only [hblocks]
          exact ⟨_, rfl⟩

theorem writable_of_lt {n : Int} (h : n.natAbs < 10 ^ 5) : Decimal.isWritable n = true := by
  have hlimit : 5 ≤ Decimal.digitLimit := by decide
  unfold Decimal.isWritable
  -- the power itself must not be evaluated
  generalize Decimal.digitLimit = limit at hlimit
  rw [decide_eq_true_eq]
  exact Nat.lt_of_lt_of_le h (Nat.pow_le_pow_right (by decide) hlimit)

theorem check_of_le_capacity {n : Int} (hlow : 0 ≤ n) (hhigh : n ≤ capacity) :
    Decimal.check [n] = .ok () := by
  unfold capacity at hhigh
  have hwritable := writable_of_lt (n := n) (by omega)
  unfold Decimal.check
  simp [hwritable]

theorem measure_of_fits {program : Program} (hfit : program.Fitting)
    (hsize : size program ≤ capacity) :
    measure program = (program.measured, .ok (size program)) := by
  obtain ⟨hwalk, -⟩ := @walk_measure 0 program hfit (by decide)
  rw [Int.zero_add] at hwalk
  simp only [measure, hwalk hsize, check_of_le_capacity (size_nonneg hfit) hsize]

theorem measure_of_too_large {program : Program} (hfit : program.Fitting)
    (hsize : capacity < size program) :
    ∃ blocks, measure program = (blocks, .error (.problem .capacity none)) := by
  obtain ⟨-, hwalk⟩ := @walk_measure 0 program hfit (by decide)
  rw [Int.zero_add] at hwalk
  obtain ⟨blocks, hblocks⟩ := hwalk hsize
  exact ⟨blocks, by simp only [measure, hblocks]⟩

/-- A program that is too large is refused, whatever else is wrong with it. -/
theorem layout_of_too_large {program : Program} (hfit : program.Fitting)
    (hsize : capacity < size program) :
    (layout program).labels = .error (.problem .capacity none) := by
  obtain ⟨blocks, hmeasure⟩ := measure_of_too_large hfit hsize
  simp only [layout, hmeasure]

/-! ## Positions and labels -/

/-- The blocks of a program at the positions that a cursor gives them. -/
def placedFrom : Int → Program → Program
  | _, [] => []
  | cursor, b :: rest =>
      { b with position := some (b.position.getD cursor), length := b.size } ::
        placedFrom (b.pieces.foldl Piece.advance cursor) rest

/-- The second pass gives the blocks the positions and the labels the addresses of the cursor. -/
theorem placeFrom_eq {passed : Program} {placement : Placement} {program : Program}
    (hcursor : InSpace placement.address) (hsound : ∀ p ∈ pieces program, p.Sound good) :
    (Block.placeFrom passed placement program.measured).1 =
        passed.reverse ++ placedFrom placement.address program ∧
      (Block.placeFrom passed placement program.measured).2.labels =
        Piece.bindings placement.address placement.labels (pieces program) := by
  induction program generalizing passed placement with
  | nil => exact ⟨by simp [measured, Block.placeFrom, placedFrom], rfl⟩
  | cons b rest ih =>
      -- the address of the placement is the cursor of the pass, block after block
      let b' : Block := { b with length := b.size }
      have hposition := position_inSpace hcursor hsound
      have haddress : (b'.place placement).2.address =
          b.pieces.foldl Piece.advance placement.address := by
        rw [Block.place_address, Block.foldl_advance_pieces hposition]
      have hnext : InSpace (b'.place placement).2.address := by
        rw [haddress]
        exact Piece.foldl_advance_inSpace hcursor (sound_head hsound)
      obtain ⟨hblocks, hlabels⟩ :=
        @ih ((b'.place placement).1 :: passed) (b'.place placement).2 hnext (sound_rest hsound)
      refine ⟨hblocks.trans ?_, hlabels.trans ?_⟩
      · rw [haddress]
        simp [placedFrom, Block.place, b']
      · rw [haddress, Block.place_labels, pieces_cons, Piece.bindings_append]
        rfl

end Program

/-! ## References -/

/-- A chunk settled at its address. -/
def Chunk.settledAt (labels : Labels) (site : Int × Chunk) : Chunk :=
  (site.2.settle labels site.1).1

/-- A chunk can be settled at its address. -/
def Chunk.Settles (labels : Labels) (site : Int × Chunk) : Prop :=
  ∃ next, (site.2.settle labels site.1).2 = .ok next

/-- The third pass settles the chunks of a block at the addresses of the cursor. -/
theorem Chunk.walk_settle_ok {labels : Labels} {position last : Int} {cs settled : List Chunk}
    (h : walk (Chunk.settle labels) position cs = (settled, .ok last)) :
    settled = (Piece.listing position (cs.map .chunk)).map (Chunk.settledAt labels) ∧
      ∀ site ∈ Piece.listing position (cs.map .chunk), Chunk.Settles labels site := by
  induction cs generalizing position settled with
  | nil =>
      cases h
      exact ⟨rfl, by simp [Piece.listing]⟩
  | cons c cs ih =>
      obtain ⟨left, next, tail, hstep, hrest, rfl⟩ := walk_cons_ok h
      have hnext : (c.settle labels position).2 = .ok next := by rw [hstep]
      obtain ⟨htail, hall⟩ := ih hrest
      rw [Chunk.settle_next hnext] at htail hall
      refine ⟨?_, ?_⟩
      · rw [htail]
        simp [Piece.listing, Chunk.settledAt, hstep]
      · intro site hsite
        rcases List.mem_cons.1 hsite with rfl | hsite
        · exact ⟨next, hnext⟩
        · exact hall site hsite

theorem Block.settle_ok {labels : Labels} {b settled : Block} {done : Unit}
    (h : b.settle labels = (settled, .ok done)) :
    ∃ last, walk (Chunk.settle labels) (b.position.getD 0) b.chunks =
      (settled.chunks, .ok last) ∧ settled = { b with chunks := settled.chunks } := by
  unfold Block.settle at h
  cases hwalk : walk (Chunk.settle labels) (b.position.getD 0) b.chunks with
  | mk chunks outcome =>
      rw [hwalk] at h
      cases outcome with
      | error e => cases h
      | ok last =>
          cases h
          exact ⟨last, rfl, rfl⟩

/-- What stops a chunk from being settled at its address. -/
def Chunk.settleError? (labels : Labels) (site : Int × Chunk) : Option Error :=
  match (site.2.settle labels site.1).2 with
  | .ok _ => none
  | .error e => some e

theorem Chunk.eq_of_settleError? {labels : Labels} {site : Int × Chunk} {e : Error}
    (h : Chunk.settleError? labels site = some e) :
    (site.2.settle labels site.1).2 = .error e := by
  unfold Chunk.settleError? at h
  split at h
  · cases h
  · next e' hstop =>
      cases h
      exact hstop

theorem Chunk.Settles.settleError?_eq {labels : Labels} {site : Int × Chunk}
    (h : Chunk.Settles labels site) : Chunk.settleError? labels site = none := by
  obtain ⟨next, hnext⟩ := h
  simp only [Chunk.settleError?, hnext]

/-- The third pass stops in a block at the first chunk that cannot be settled. -/
theorem Chunk.walk_settle_error {labels : Labels} {position : Int} {cs settled : List Chunk}
    {e : Error} (h : walk (Chunk.settle labels) position cs = (settled, .error e)) :
    (Piece.listing position (cs.map .chunk)).findSome? (Chunk.settleError? labels) = some e := by
  induction cs generalizing position settled with
  | nil => cases h
  | cons c cs ih =>
      rw [walk_cons] at h
      simp only [List.map_cons, Piece.listing, List.findSome?_cons]
      split at h
      · next left next hstep =>
          have hnext : (c.settle labels position).2 = .ok next := by rw [hstep]
          have hrest := ih (Prod.ext rfl (Prod.mk.inj h).2 :
            walk (Chunk.settle labels) next cs = (_, .error e))
          rw [Chunk.settle_next hnext] at hrest
          rw [Chunk.Settles.settleError?_eq ⟨next, hnext⟩]
          exact hrest
      · next left e' hstep =>
          cases h
          simp only [Chunk.settleError?, hstep]

theorem Block.settle_error {labels : Labels} {b settled : Block} {e : Error}
    (h : b.settle labels = (settled, .error e)) :
    walk (Chunk.settle labels) (b.position.getD 0) b.chunks = (settled.chunks, .error e) := by
  unfold Block.settle at h
  cases hwalk : walk (Chunk.settle labels) (b.position.getD 0) b.chunks with
  | mk chunks outcome =>
      rw [hwalk] at h
      cases outcome with
      | error e' =>
          cases h
          rfl
      | ok last => cases h

namespace Program

variable {good : Tag → Prop}

/-- The blocks of a program, settled at the positions that a cursor gives them. -/
def settledFrom (labels : Labels) : Int → Program → Program
  | _, [] => []
  | cursor, b :: rest =>
      { position := some (b.position.getD cursor)
        label := b.label
        chunks := (Piece.listing cursor b.pieces).map (Chunk.settledAt labels)
        length := b.size } ::
        settledFrom labels (b.pieces.foldl Piece.advance cursor) rest

theorem walk_settle_ok {labels : Labels} {cursor : Int} {program settled : Program} {done : Unit}
    (h : walk (fun _ b => b.settle labels) () (placedFrom cursor program) = (settled, .ok done)) :
    settled = settledFrom labels cursor program ∧
      ∀ site ∈ Piece.listing cursor (pieces program), Chunk.Settles labels site := by
  induction program generalizing cursor settled with
  | nil =>
      cases h
      exact ⟨rfl, by simp [Piece.listing]⟩
  | cons b rest ih =>
      obtain ⟨left, next, tail, hblock, hrest, rfl⟩ := walk_cons_ok h
      obtain ⟨htail, hall⟩ := ih hrest
      obtain ⟨last, hchunks, hleft⟩ := Block.settle_ok hblock
      obtain ⟨hlisting, hhead⟩ := Chunk.walk_settle_ok hchunks
      refine ⟨?_, ?_⟩
      · rw [htail, hleft, hlisting]
        rfl
      · intro site hsite
        rw [pieces_cons, Piece.listing_append] at hsite
        rcases List.mem_append.1 hsite with hsite | hsite
        · exact hhead site hsite
        · exact hall site hsite

/-- The third pass stops at the first chunk of a program that cannot be settled. -/
theorem walk_settle_error {labels : Labels} {cursor : Int} {program settled : Program} {e : Error}
    (h : walk (fun _ b => b.settle labels) () (placedFrom cursor program) = (settled, .error e)) :
    (Piece.listing cursor (pieces program)).findSome? (Chunk.settleError? labels) = some e := by
  induction program generalizing cursor settled with
  | nil => cases h
  | cons b rest ih =>
      rw [placedFrom, walk_cons] at h
      rw [pieces_cons, Piece.listing_append, List.findSome?_append]
      split at h
      · next left done hblock =>
          obtain ⟨last, hchunks, -⟩ := Block.settle_ok hblock
          obtain ⟨-, hhead⟩ := Chunk.walk_settle_ok hchunks
          have hnone : (Piece.listing cursor b.pieces).findSome? (Chunk.settleError? labels) =
              none :=
            List.findSome?_eq_none_iff.2 fun site hsite => (hhead site hsite).settleError?_eq
          rw [hnone]
          exact ih (Prod.ext rfl (Prod.mk.inj h).2)
      · next left e' hblock =>
          cases h
          have hfirst : (Piece.listing cursor b.pieces).findSome? (Chunk.settleError? labels) =
              some e :=
            Chunk.walk_settle_error (Block.settle_error hblock)
          rw [hfirst]
          rfl

theorem chunks_settledFrom (labels : Labels) (cursor : Int) (program : Program) :
    chunks (settledFrom labels cursor program) =
      (Piece.listing cursor (pieces program)).map (Chunk.settledAt labels) := by
  induction program generalizing cursor with
  | nil => rfl
  | cons b rest ih =>
      rw [pieces_cons, Piece.listing_append, List.map_append, ← ih]
      rfl

/-- The settled chunks of a sound program fill their bytes. -/
theorem settledAt_sound {labels : Labels} {cursor : Int} {ps : List Piece}
    (hcursor : InSpace cursor) (hlabels : labels.InSpace) (hsound : ∀ p ∈ ps, p.Sound good)
    (hall : ∀ site ∈ Piece.listing cursor ps, Chunk.Settles labels site) :
    ∀ site ∈ Piece.listing cursor ps, (Chunk.settledAt labels site).Sound good ∧
      (Chunk.settledAt labels site).Settled ∧ (Chunk.settledAt labels site).size = site.2.size := by
  intro site hsite
  obtain ⟨-, hchunk⟩ := Piece.listing_inSpace hcursor hsound site hsite
  obtain ⟨next, hnext⟩ := hall site hsite
  exact Chunk.settle_ok hchunk hlabels hnext

theorem forM_eq_ok_iff {α : Type} {check : α → Except Error Unit} {items : List α} :
    items.forM check = .ok () ↔ ∀ item ∈ items, check item = .ok () := by
  induction items with
  | nil => exact ⟨fun _ => nofun, fun _ => rfl⟩
  | cons item rest ih =>
      rw [List.forall_mem_cons, ← ih, List.forM]
      constructor
      · intro h
        obtain ⟨done, hitem, hrest⟩ := bind_ok_inv h
        exact ⟨hitem, hrest⟩
      · rintro ⟨hitem, hrest⟩
        rw [hitem]
        exact hrest

theorem checkWidths_ok {program : Program} (hfit : program.Fitting) :
    checkWidths program = .ok () :=
  forM_eq_ok_iff.2 fun b hb => forM_eq_ok_iff.2 fun c hc => (hfit b hb c hc).checkWidth_ok

/-! ## The three passes together -/

/-- The layout of a sound program that is not too large: its blocks are settled where the pass
over the pieces puts them, or the first chunk that cannot be settled there stops it. -/
theorem layout_eq {program : Program} (hsound : ∀ p ∈ pieces program, p.Sound good)
    (hsize : size program ≤ capacity) :
    ((layout program).labels = .ok (Piece.bindings 0 ∅ (pieces program)) ∧
        (layout program).program =
          settledFrom (Piece.bindings 0 ∅ (pieces program)) 0 program ∧
        ∀ site ∈ Piece.listing 0 (pieces program),
          Chunk.Settles (Piece.bindings 0 ∅ (pieces program)) site) ∨
      ∃ e, (layout program).labels = .error e ∧
        (Piece.listing 0 (pieces program)).findSome?
          (Chunk.settleError? (Piece.bindings 0 ∅ (pieces program))) = some e := by
  have hstart : InSpace Placement.start.address := ⟨by decide, by decide⟩
  have hmeasure := measure_of_fits (fitting_of_sound hsound) hsize
  have hspace := Piece.bindings_start_inSpace hsound
  obtain ⟨placed, settled, placement, found, hpasses⟩ := exists_passes hmeasure
  obtain ⟨hplaced, hlabels⟩ := @placeFrom_eq good [] Placement.start program hstart hsound
  rw [hpasses.hplace] at hplaced hlabels
  have hblocks : placed = placedFrom 0 program := hplaced
  have hbound : Piece.bindings 0 ∅ (pieces program) = placement.labels := hlabels.symm
  rw [hbound] at hspace ⊢
  have hwalk := hpasses.hsettle
  rw [hblocks] at hwalk
  rw [hpasses.layout_eq, finish_program]
  cases found with
  | error e =>
      right
      exact ⟨e, rfl, walk_settle_error hwalk⟩
  | ok done =>
      left
      obtain ⟨rfl, hall⟩ := walk_settle_ok hwalk
      -- settling keeps the widths, so the last check never fails
      have hfit : Fitting (settledFrom placement.labels 0 program) := by
        intro b hb c hc
        have hmem : c ∈ chunks (settledFrom placement.labels 0 program) :=
          List.mem_flatMap.2 ⟨b, hb, hc⟩
        rw [chunks_settledFrom] at hmem
        obtain ⟨site, hsite, rfl⟩ := List.mem_map.1 hmem
        exact (settledAt_sound hstart hspace hsound hall site hsite).1.fitting
      simp only [finish, checkWidths_ok hfit]
      exact ⟨trivial, trivial, hall⟩

/-- A layout that succeeds is the pass over the pieces. -/
theorem layout_ok {program : Program} {labels : Labels}
    (hsound : ∀ p ∈ pieces program, p.Sound good) (h : (layout program).labels = .ok labels) :
    labels = Piece.bindings 0 ∅ (pieces program) ∧
      (layout program).program = settledFrom labels 0 program ∧
      ∀ site ∈ Piece.listing 0 (pieces program), Chunk.Settles labels site := by
  rcases Int.lt_or_le capacity (size program) with hlarge | hsize
  · rw [layout_of_too_large (fitting_of_sound hsound) hlarge] at h
    cases h
  · rcases layout_eq hsound hsize with ⟨hlabels, hprogram, hall⟩ | ⟨e, he, -⟩
    · rw [hlabels] at h
      cases h
      exact ⟨rfl, hprogram, hall⟩
    · rw [he] at h
      cases h

/-- A sound program that cannot be laid out is too large or has a problem at a place. -/
theorem layout_error {program : Program} {e : Error}
    (hsound : ∀ p ∈ pieces program, p.Sound good) (h : (layout program).labels = .error e) :
    e = .problem .capacity none ∨ e.Located good := by
  rcases Int.lt_or_le capacity (size program) with hlarge | hsize
  · rw [layout_of_too_large (fitting_of_sound hsound) hlarge] at h
    cases h
    exact Or.inl rfl
  · rcases layout_eq hsound hsize with ⟨hlabels, -⟩ | ⟨e', he, hfirst⟩
    · rw [hlabels] at h
      cases h
    · rw [he] at h
      cases h
      obtain ⟨site, hsite, hstop⟩ := List.exists_of_findSome?_eq_some hfirst
      obtain ⟨-, hchunk⟩ := Piece.listing_inSpace ⟨by decide, by decide⟩ hsound site hsite
      exact Or.inr (Chunk.settle_located hchunk (Chunk.eq_of_settleError? hstop))

end Program

end Asm65
