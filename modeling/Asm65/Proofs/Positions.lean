import Asm65.Proofs.Locations

/-!
# Rows and columns

The row and the column of a token are counted while the text is read; those of a tag are found
later, by going through the text in front of it again.  Both counts take the same step at each
character, so they agree wherever a token stands.

Nothing is lost on the way from an offset to a row and a column.  The text in front of a place is
made of the lines before its row, each with its line feed, and of what stands before it in its own
line; so the offset is the length of these lines and of this part together.
-/

namespace Asm65

/-! ## Lines -/

namespace Text

/-- Lines with a line feed behind each of them. -/
def unlines (lines : List (List Char)) : List Char :=
  lines.flatMap (· ++ ['\n'])

variable {lines : List (List Char)}

theorem unlines_append (lines more : List (List Char)) :
    unlines (lines ++ more) = unlines lines ++ unlines more :=
  List.flatMap_append

theorem unlines_cons (line : List Char) (lines : List (List Char)) :
    unlines (line :: lines) = line ++ '\n' :: unlines lines := by
  rw [unlines, List.flatMap_cons, List.append_assoc, List.singleton_append]
  rfl

theorem length_unlines (lines : List (List Char)) :
    (unlines lines).length = (lines.map fun line => line.length + 1).sum := by
  simp [unlines, List.length_flatMap]

/-- Splitting a text at its line feeds gives back the lines it begins with. -/
theorem splitOn_unlines_append (hlines : ∀ line ∈ lines, '\n' ∉ line) (rest : List Char) :
    (unlines lines ++ rest).splitOn '\n' = lines ++ rest.splitOn '\n' := by
  induction lines with
  | nil => rfl
  | cons line lines ih =>
      obtain ⟨hline, hmore⟩ := List.forall_mem_cons.1 hlines
      rw [unlines_cons, List.append_assoc, List.cons_append,
        List.splitOn_append_cons_self_of_not_mem hline, ih hmore, List.cons_append]

/-- Every text is made of lines and of a last one that is not ended. -/
theorem exists_unlines (text : List Char) :
    ∃ lines last, text = unlines lines ++ last ∧ (∀ line ∈ lines, '\n' ∉ line) ∧
      '\n' ∉ last := by
  induction text using List.reverseRecOn with
  | nil => exact ⟨[], [], rfl, List.forall_mem_nil _, List.not_mem_nil⟩
  | append_singleton text c ih =>
      obtain ⟨lines, last, rfl, hlines, hlast⟩ := ih
      by_cases hc : c = '\n'
      · subst hc
        refine ⟨lines ++ [last], [], ?_, ?_, List.not_mem_nil⟩
        · rw [unlines_append, unlines_cons, List.append_assoc, List.append_nil]
          rfl
        · exact List.forall_mem_append.2 ⟨hlines, List.forall_mem_singleton.2 hlast⟩
      · refine ⟨lines, last ++ [c], List.append_assoc _ _ _, hlines, ?_⟩
        rw [List.mem_append, List.mem_singleton]
        rintro (hmem | rfl)
        · exact hlast hmem
        · exact hc rfl

end Text

/-! ## From places back to offsets -/

namespace Tag

theorem foldl_stepRowCol_of_not_mem {part : List Char} (h : '\n' ∉ part) (row column : Nat) :
    part.foldl stepRowCol (row, column) = (row, column + part.length) := by
  induction part generalizing column with
  | nil => rfl
  | cons c part ih =>
      have hc : c ≠ '\n' := fun heq => h (heq ▸ List.mem_cons_self)
      have hpart : '\n' ∉ part := fun hmem => h (List.mem_cons_of_mem c hmem)
      have hstep : stepRowCol (row, column) c = (row, column + 1) := by
        simp [stepRowCol, hc]
      rw [List.foldl_cons, hstep, ih hpart, List.length_cons]
      congr 1
      omega

theorem foldl_stepRowCol_unlines {lines : List (List Char)}
    (h : ∀ line ∈ lines, '\n' ∉ line) (row : Nat) :
    (Text.unlines lines).foldl stepRowCol (row, 1) = (row + lines.length, 1) := by
  induction lines generalizing row with
  | nil => rfl
  | cons line lines ih =>
      obtain ⟨hline, hlines⟩ := List.forall_mem_cons.1 h
      rw [Text.unlines_cons, List.foldl_append, foldl_stepRowCol_of_not_mem hline, List.foldl_cons]
      show (Text.unlines lines).foldl stepRowCol (row + 1, 1) = _
      rw [ih hlines, List.length_cons]
      congr 1
      omega

/-- The offset of a row and a column: the length of the lines before the row, each with its line
feed, and of the columns before the column. -/
def offsetOf (text : List Char) (place : Nat × Nat) : Nat :=
  (((text.splitOn '\n').take (place.1 - 1)).map fun line => line.length + 1).sum + (place.2 - 1)

theorem rowCol_natCast (unit : Int) {text : List Char} {offset : Nat} (h : offset ≤ text.length) :
    rowCol ⟨unit, offset⟩ text = (text.take offset).foldl stepRowCol (1, 1) := by
  rw [rowCol, charsBefore_natCast h]

/-- An offset can be read off its row and its column. -/
theorem offsetOf_rowCol (unit : Int) {text : List Char} {offset : Nat}
    (h : offset ≤ text.length) : offsetOf text (rowCol ⟨unit, offset⟩ text) = offset := by
  obtain ⟨lines, part, hfront, hlines, hpart⟩ := Text.exists_unlines (text.take offset)
  have hplace : rowCol ⟨unit, offset⟩ text = (1 + lines.length, 1 + part.length) := by
    rw [rowCol_natCast unit h, hfront, List.foldl_append, foldl_stepRowCol_unlines hlines,
      foldl_stepRowCol_of_not_mem hpart]
  -- the lines before the row are the first ones of the whole text
  have hsplit : (text.splitOn '\n').take lines.length = lines := by
    rw [← List.take_append_drop offset text, hfront, List.append_assoc,
      Text.splitOn_unlines_append hlines, List.take_left]
  have hlength : offset = (lines.map fun line => line.length + 1).sum + part.length := by
    rw [← Text.length_unlines, ← List.length_append, ← hfront, List.length_take_of_le h]
  rw [hplace, offsetOf, Nat.add_sub_cancel_left, Nat.add_sub_cancel_left, hsplit, ← hlength]

end Tag

/-! ## The scan -/

namespace Cursor

/-- The row and the column of a reading position. -/
def place (p : Cursor) : Nat × Nat :=
  (p.line, p.column)

/-- One character moves the reading position as it moves a place. -/
theorem place_advance (p : Cursor) (c : Char) :
    (p.advance c).place = Tag.stepRowCol p.place c := by
  unfold advance Tag.stepRowCol
  split <;> rfl

theorem place_foldl_advance (p : Cursor) (passed : List Char) :
    (passed.foldl advance p).place = passed.foldl Tag.stepRowCol p.place := by
  induction passed generalizing p with
  | nil => rfl
  | cons c passed ih => rw [List.foldl_cons, List.foldl_cons, ih, place_advance]

theorem offset_foldl_start (passed : List Char) :
    (passed.foldl advance start).offset = passed.length :=
  (Token.offset_foldl_advance start passed).trans (Nat.zero_add _)

end Cursor

namespace Token

/-- A token has the row and the column of its tag. -/
def Tracked (text : List Char) (t : Token) : Prop :=
  (t.line, t.column) = t.tag.rowCol text

theorem placed_tracked (unit : Int) (passed rest : List Char) (kind : TokenKind) :
    (placed unit (passed.foldl Cursor.advance .start) kind).Tracked (passed ++ rest) := by
  show (passed.foldl Cursor.advance .start).place =
    Tag.rowCol ⟨unit, (passed.foldl Cursor.advance .start).offset⟩ (passed ++ rest)
  rw [Cursor.offset_foldl_start, Tag.rowCol_natCast unit (by simp), List.take_left,
    Cursor.place_foldl_advance]
  rfl

/-- The tokens found so far and those of the rest of the text have the rows and columns of their
tags. -/
theorem scanFrom_tracked {unit : Int} {passed text : List Char} {owed : Nat} {found : List Token}
    (hfound : ∀ t ∈ found, t.Tracked (passed ++ text)) :
    ∀ t ∈ (scanFrom unit (passed.foldl Cursor.advance .start) owed found text).tokens,
      t.Tracked (passed ++ text) := by
  -- the reading position is the one behind what has been passed
  induction text generalizing passed owed found with
  | nil =>
      intro t ht
      simp only [scanFrom, List.mem_reverse, List.mem_cons] at ht
      rcases ht with rfl | ht
      · exact placed_tracked unit passed [] .eof
      · exact hfound t ht
  | cons c rest ih =>
      have hwhole : passed ++ c :: rest = passed ++ [c] ++ rest := by simp
      have hnext : (passed.foldl Cursor.advance .start).advance c =
          (passed ++ [c]).foldl Cursor.advance .start := by simp
      unfold scanFrom
      rw [hnext]
      split
      · rw [hwhole] at hfound ⊢
        exact ih hfound
      · split
        · rw [hwhole] at hfound ⊢
          exact ih hfound
        · split
          · next kind more hlexeme =>
              have hplaced := placed_tracked unit passed (c :: rest) kind
              rw [hwhole] at hfound hplaced ⊢
              exact ih (List.forall_mem_cons.2 ⟨hplaced, hfound⟩)
          · intro t ht
            exact hfound t (List.mem_reverse.1 ht)

/-- A scan that gets through a text ends with a token for the end of the text. -/
theorem scanFrom_getLast? {unit : Int} {position : Cursor} {owed : Nat} {found : List Token}
    {text : List Char} (h : (scanFrom unit position owed found text).error = none) :
    (scanFrom unit position owed found text).tokens.getLast? =
      some (placed unit (text.foldl Cursor.advance position) .eof) := by
  induction text generalizing position owed found with
  | nil => simp [scanFrom]
  | cons c rest ih =>
      unfold scanFrom at h ⊢
      split at h
      · exact ih h
      · split at h
        · next hspace =>
            simp only [hspace, if_true]
            exact ih h
        · next hspace =>
            split at h
            · next kind more hlexeme =>
                simp only [hspace]
                exact ih h
            · cases h

end Token

/-- The two ways to find a row and a column agree, and nothing is lost by them.  Every token that
the scan of a text finds has the row and the column of its tag; if the scan gets through the text,
the last one is the token for the end of the text, which stands there.  The offset of every place
from the start to the end of the text is the length of the lines before its row, each with its line
feed, and of the columns before it; so different offsets have different rows or columns. -/
theorem rows_and_columns_are_faithful (unit : Int) (text : List Char) :
    (∀ t ∈ (Token.scan unit text).tokens, (t.line, t.column) = t.tag.rowCol text) ∧
    ((Token.scan unit text).error = none →
      ∃ stop, (Token.scan unit text).tokens.getLast? = some stop ∧ stop.kind = .eof ∧
        stop.tag = ⟨unit, text.length⟩) ∧
    (∀ offset : Nat, offset ≤ text.length →
      Tag.offsetOf text (Tag.rowCol ⟨unit, offset⟩ text) = offset) ∧
    ∀ (other : Int) (i j : Nat), i ≤ text.length → j ≤ text.length →
      Tag.rowCol ⟨unit, i⟩ text = Tag.rowCol ⟨other, j⟩ text → i = j := by
  refine ⟨?_, ?_, fun offset => Tag.offsetOf_rowCol unit, ?_⟩
  · exact @Token.scanFrom_tracked unit [] text 0 [] (List.forall_mem_nil _)
  · intro hscan
    refine ⟨_, Token.scanFrom_getLast? hscan, rfl, ?_⟩
    show Tag.mk unit (text.foldl Cursor.advance .start).offset = _
    rw [Cursor.offset_foldl_start]
  · intro other i j hi hj hplace
    calc
      i = Tag.offsetOf text (Tag.rowCol ⟨unit, i⟩ text) := (Tag.offsetOf_rowCol unit hi).symm
      _ = Tag.offsetOf text (Tag.rowCol ⟨other, j⟩ text) := by rw [hplace]
      _ = j := Tag.offsetOf_rowCol other hj

/-- A carriage return takes a column, and an empty line a row. -/
theorem places_behind_carriage_return :
    let text := "nop\r\n\n rts".toList
    (∃ stop, (Token.scan 3 text).tokens.getLast? = some stop ∧ stop.kind = .eof ∧
      stop.tag = ⟨3, 10⟩) ∧
    (Token.scan 3 text).tokens.map (fun t => t.tag.rowCol text) =
      [(1, 1), (1, 5), (2, 1), (3, 2), (3, 5)] ∧
    Tag.offsetOf text (3, 2) = 7 ∧
    ∀ j : Nat, j ≤ 10 → Tag.rowCol ⟨3, 7⟩ text = Tag.rowCol ⟨0, j⟩ text → 7 = j := by
  intro text
  obtain ⟨htokens, hstop, hoffset, hplaces⟩ := rows_and_columns_are_faithful 3 text
  refine ⟨hstop rfl, ?_, hoffset 7 (by decide), fun j hj => hplaces 0 7 j (by decide) hj⟩
  rw [← List.map_congr_left htokens]
  rfl

end Asm65
