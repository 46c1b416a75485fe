import Asm65.Proofs.Readings

/-!
# Texts one behind the other

A newline ends every lexeme and every statement, and the end of a text does the same as a newline.
So two texts with a newline between them have the tokens of the first, the newline, and the tokens
of the second further on; and they are read as the statements of the first and then, further on,
those of the second.
-/

namespace Asm65

/-! ## Further on -/

/-- A place that lies further on by some characters. -/
def Tag.raised (distance : Nat) (t : Tag) : Tag :=
  ⟨t.unit, t.offset + distance⟩

/-- A position that lies further on by some characters and some lines. -/
def Cursor.raised (distance rows : Nat) (p : Cursor) : Cursor :=
  ⟨p.offset + distance, p.line + rows, p.column⟩

/-- A token that stands further on by some characters and some lines. -/
def Token.raised (distance rows : Nat) (t : Token) : Token :=
  { t with offset := t.offset + distance, line := t.line + rows }

/-- An error that stands further on. -/
def Error.raised (distance : Nat) : Error → Error
  | .problem what tag => .problem what (tag.map (Tag.raised distance))
  | .fault what => .fault what

/-- A term that stands further on. -/
def Term.raised (distance : Nat) : Term → Term
  | .number tag n => .number (tag.map (Tag.raised distance)) n
  | .name tag word => .name (tag.map (Tag.raised distance)) word

/-- An operand that stands further on. -/
def Operand.raised (distance : Nat) (operand : Operand) : Operand :=
  { operand with term := operand.term.map (Term.raised distance) }

/-- A statement that stands further on. -/
def Statement.raised (distance : Nat) : Statement → Statement
  | .comment tag => .comment (tag.map (Tag.raised distance))
  | .label tag name => .label (tag.map (Tag.raised distance)) name
  | .instruction tag mnemonic operand =>
      .instruction (tag.map (Tag.raised distance)) mnemonic (operand.raised distance)
  | .org tag address => .org (tag.map (Tag.raised distance)) address
  | .pad tag address => .pad (tag.map (Tag.raised distance)) address
  | .bytes tag values => .bytes (tag.map (Tag.raised distance)) values
  | .words tag values => .words (tag.map (Tag.raised distance)) values
  | .vector tag target => .vector (tag.map (Tag.raised distance)) target
  | .includeFile tag path => .includeFile (tag.map (Tag.raised distance)) path
  | .unknown => .unknown

/-! ## Tokens -/

namespace Token

variable {unit : Int} {text more : List Char} {position : Cursor} {owed distance rows : Nat}
  {found : List Token}

theorem advance_raised (p : Cursor) (c : Char) :
    (p.raised distance rows).advance c = (p.advance c).raised distance rows := by
  unfold Cursor.advance
  split
  · simp only [Cursor.raised]
    congr 1 <;> omega
  · simp only [Cursor.raised]
    congr 1
    omega

theorem Refusal.error_raised (refusal : Refusal) (p : Cursor) :
    refusal.error unit (p.raised distance rows) = (refusal.error unit p).raised distance := by
  cases refusal with
  | misspelt problem ahead =>
      have hplace : ((p.offset + distance + ahead : Nat) : Int) =
          ((p.offset + ahead : Nat) : Int) + distance := by omega
      simp only [error, Cursor.raised, hplace]
      rfl
  | unreadable fault => rfl

/-- From further on, the scan finds what it finds, further on. -/
theorem scanFrom_raised (before : List Token) :
    scanFrom unit (position.raised distance rows) owed
        (found.map (raised distance rows) ++ before) text =
      ⟨before.reverse ++ (scanFrom unit position owed found text).tokens.map (raised distance rows),
        (scanFrom unit position owed found text).error.map (Error.raised distance)⟩ := by
  induction text generalizing position owed found with
  | nil => simp [scanFrom, placed, raised, Cursor.raised]
  | cons c rest ih =>
      cases owed with
      | succ owed =>
          simp only [scanFrom]
          rw [advance_raised, ih]
      | zero =>
          simp only [scanFrom]
          by_cases hspace : isSpace c = true
          · rw [if_pos hspace, if_pos hspace, advance_raised, ih]
          · rw [if_neg hspace, if_neg hspace]
            cases scanLexeme c rest with
            | ok lexeme =>
                obtain ⟨kind, length⟩ := lexeme
                simp only
                have hplaced : placed unit (position.raised distance rows) kind =
                    (placed unit position kind).raised distance rows := rfl
                rw [advance_raised, hplaced, ← List.cons_append, ← List.map_cons, ih]
            | error refusal =>
                simp [Refusal.error_raised]

/-- A scan that stops in a text does not get to what follows behind a newline. -/
theorem scanFrom_append_newline_of_error {e : Error} (howed : owed ≤ text.length)
    (h : (scanFrom unit position owed found text).error = some e) :
    scanFrom unit position owed found (text ++ '\n' :: more) =
      scanFrom unit position owed found text := by
  induction text generalizing position owed found with
  | nil => cases h
  | cons c rest ih =>
      rw [List.cons_append]
      cases owed with
      | succ owed =>
          simp only [scanFrom] at h ⊢
          exact ih (Nat.le_of_succ_le_succ howed) h
      | zero =>
          simp only [scanFrom, scanLexeme_append_newline] at h ⊢
          by_cases hspace : isSpace c = true
          · rw [if_pos hspace] at h ⊢
            rw [if_pos hspace]
            exact ih (Nat.zero_le _) h
          · rw [if_neg hspace] at h ⊢
            rw [if_neg hspace]
            cases hscan : scanLexeme c rest with
            | ok lexeme =>
                obtain ⟨kind, length⟩ := lexeme
                rw [hscan] at h
                exact ih (scanLexeme_le hscan) h
            | error refusal => rfl

/-- A scan that gets through a text goes on at its end, where there is a newline now. -/
theorem scanFrom_append_newline_of_none (more : List Char) (howed : owed ≤ text.length)
    (h : (scanFrom unit position owed found text).error = none) :
    ∃ tokens, scanFrom unit position owed found text =
        ⟨(placed unit (text.foldl Cursor.advance position) .eof :: tokens).reverse, none⟩ ∧
      scanFrom unit position owed found (text ++ '\n' :: more) =
        scanFrom unit (text.foldl Cursor.advance position) 0 tokens ('\n' :: more) := by
  induction text generalizing position owed found with
  | nil =>
      cases Nat.le_zero.1 howed
      exact ⟨found, rfl, rfl⟩
  | cons c rest ih =>
      rw [List.cons_append, List.foldl_cons]
      cases owed with
      | succ owed =>
          simp only [scanFrom] at h ⊢
          exact ih (Nat.le_of_succ_le_succ howed) h
      | zero =>
          simp only [scanFrom, scanLexeme_append_newline] at h ⊢
          by_cases hspace : isSpace c = true
          · rw [if_pos hspace] at h
            rw [if_pos hspace, if_pos hspace]
            exact ih (Nat.zero_le _) h
          · rw [if_neg hspace] at h
            rw [if_neg hspace, if_neg hspace]
            cases hscan : scanLexeme c rest with
            | ok lexeme =>
                obtain ⟨kind, length⟩ := lexeme
                rw [hscan] at h
                exact ih (scanLexeme_le hscan) h
            | error refusal =>
                rw [hscan] at h
                cases h

/-- Behind a newline the reading goes on in the first column of the next line. -/
theorem foldl_advance_newline (text : List Char) :
    (text.foldl Cursor.advance .start).advance '\n' =
      Cursor.start.raised (text.length + 1) (1 + text.count '\n') := by
  have hline (p : Cursor) : (text.foldl Cursor.advance p).line = p.line + text.count '\n' := by
    induction text generalizing p with
    | nil => rfl
    | cons c rest ih =>
        rw [List.foldl_cons, ih, List.count_cons, Cursor.advance]
        by_cases hnewline : (c == '\n') = true
        · rw [if_pos hnewline, if_pos hnewline]
          show p.line + 1 + rest.count '\n' = p.line + (rest.count '\n' + 1)
          omega
        · rw [if_neg hnewline, if_neg hnewline]
          rfl
  show Cursor.mk _ _ _ = Cursor.mk _ _ _
  rw [offset_foldl_advance, hline]
  simp only [Cursor.start, Nat.zero_add, Nat.add_assoc, Nat.add_comm]

/-- The tokens of two texts with a newline between them, where the first one has tokens: its end
is the newline, and whatever is found or refused in the second one stands further on. -/
theorem scan_join_of_none (h : (scan unit text).error = none) :
    ∃ front stop, (scan unit text).tokens = front ++ [stop] ∧ stop.kind = .eof ∧
      stop.offset = text.length ∧
      scan unit (text ++ '\n' :: more) =
        ⟨front ++ { stop with kind := .newline } ::
            (scan unit more).tokens.map (raised (text.length + 1) (1 + text.count '\n')),
          (scan unit more).error.map (Error.raised (text.length + 1))⟩ := by
  obtain ⟨tokens, hscan, hjoin⟩ :=
    scanFrom_append_newline_of_none more (Nat.zero_le _) h
  refine ⟨tokens.reverse, placed unit (text.foldl Cursor.advance .start) .eof, ?_, rfl, ?_, ?_⟩
  · rw [scan, hscan, List.reverse_cons]
  · show (text.foldl Cursor.advance .start).offset = text.length
    rw [offset_foldl_advance]
    exact Nat.zero_add _
  · have hstep (position : Cursor) : scanFrom unit position 0 tokens ('\n' :: more) =
        scanFrom unit (position.advance '\n') 0 (placed unit position .newline :: tokens) more :=
      rfl
    have hraised := @scanFrom_raised unit more .start 0 (text.length + 1) (1 + text.count '\n') []
      (placed unit (text.foldl Cursor.advance .start) .newline :: tokens)
    rw [scan, hjoin, hstep, foldl_advance_newline]
    rw [List.map_nil, List.nil_append, List.reverse_cons, List.append_assoc] at hraised
    exact hraised

end Token

/-! ## Lines -/

namespace Grammar

variable (distance rows : Nat) {tokens : List Token}

theorem IsTerm.raised {t : Token} {term : Term} (h : IsTerm t term) :
    IsTerm (t.raised distance rows) (term.raised distance) := by
  cases h with
  | number hkind => exact .number hkind
  | name hkind => exact .name hkind

theorem IsSign.raised {modifier : Modifier} (h : IsSign tokens modifier) :
    IsSign (tokens.map (Token.raised distance rows)) modifier := by
  cases h with
  | none => exact .none
  | low hkind => exact .low hkind
  | high hkind => exact .high hkind

theorem IsOperand.raised {takes : Prop} {operand : Operand} (h : IsOperand takes tokens operand) :
    IsOperand takes (tokens.map (Token.raised distance rows)) (operand.raised distance) := by
  cases h with
  | none => exact .none
  | accumulator htakes ha => exact .accumulator htakes ha
  | immediate hhash hsign hterm =>
      rw [List.map_append]
      exact .immediate hhash (hsign.raised distance rows) (hterm.raised distance rows)
  | address hsign hterm hlabel =>
      rw [List.map_append]
      exact .address (hsign.raised distance rows) (hterm.raised distance rows)
        fun htakes hnone => hlabel htakes (List.map_eq_nil_iff.1 hnone)
  | indexedX hterm hcomma hx => exact .indexedX (hterm.raised distance rows) hcomma hx
  | indexedY hterm hcomma hy => exact .indexedY (hterm.raised distance rows) hcomma hy
  | indirect hleft hterm hright => exact .indirect hleft (hterm.raised distance rows) hright
  | indirectX hleft hterm hcomma hx hright =>
      exact .indirectX hleft (hterm.raised distance rows) hcomma hx hright
  | indirectY hleft hterm hright hcomma hy =>
      exact .indirectY hleft (hterm.raised distance rows) hright hcomma hy

theorem IsNumbers.raised {values : List Number} (h : IsNumbers tokens values) :
    IsNumbers (tokens.map (Token.raised distance rows)) values := by
  induction h with
  | one hkind => exact .one hkind
  | more hkind hcomma _ ih => exact .more hkind hcomma ih

theorem IsDirective.raised {s : Statement} (h : IsDirective tokens s) :
    IsDirective (tokens.map (Token.raised distance rows)) (s.raised distance) := by
  cases h with
  | org hname hkind => exact .org hname hkind
  | pad hname hkind => exact .pad hname hkind
  | byte hname hvalues => exact .byte hname (hvalues.raised distance rows)
  | word hname hvalues => exact .word hname (hvalues.raised distance rows)
  | vector hname hkind => exact .vector hname hkind
  | includeFile hname hkind => exact .includeFile hname hkind

theorem IsLabel.raised {read : List Statement} (h : IsLabel tokens read) :
    IsLabel (tokens.map (Token.raised distance rows)) (read.map (Statement.raised distance)) := by
  cases h with
  | none => exact .none
  | label hkind hcolon => exact .label hkind hcolon

theorem IsBody.raised {read : List Statement} (h : IsBody tokens read) :
    IsBody (tokens.map (Token.raised distance rows)) (read.map (Statement.raised distance)) := by
  cases h with
  | none => exact .none
  | instruction hkind hoperand => exact .instruction hkind (hoperand.raised distance rows)
  | directive hdirective => exact .directive (hdirective.raised distance rows)

theorem IsComment.raised {read : List Statement} (h : IsComment tokens read) :
    IsComment (tokens.map (Token.raised distance rows)) (read.map (Statement.raised distance)) := by
  cases h with
  | none => exact .none
  | comment hkind => exact .comment hkind

/-- A line denotes the same further on, further on. -/
theorem IsLine.raised {read : List Statement} (h : IsLine tokens read) :
    IsLine (tokens.map (Token.raised distance rows)) (read.map (Statement.raised distance)) := by
  obtain ⟨hlabel, hbody, hcomment⟩ := h
  have hline := IsLine.line (hlabel.raised distance rows) (hbody.raised distance rows)
    (hcomment.raised distance rows)
  rw [← List.map_append, ← List.map_append, ← List.map_append, List.isEmpty_map] at hline
  rw [apply_ite (List.map (Statement.raised distance))]
  exact hline

end Grammar

/-- The lines of two texts with a newline between them. -/
theorem Token.lines_join {front tokens : List Token} {stop : Token} (distance rows : Nat)
    (hfront : ∀ t ∈ front, t.kind ≠ .eof) (hstop : stop.kind = .eof) :
    lines (front ++ { stop with kind := .newline } :: tokens.map (raised distance rows)) =
      lines (front ++ [stop]) ++ (lines tokens).map (List.map (raised distance rows)) := by
  have hkind : (fun t : Token => t.kind != .eof) ∘ raised distance rows = fun t => t.kind != .eof :=
    rfl
  rw [lines_concat hfront hstop, lines, lines,
    List.takeWhile_append_of_pos (by simpa using hfront), List.takeWhile_cons_of_pos (by simp),
    List.takeWhile_map, hkind, List.splitOnP_append_cons _ _ (by simp), splitOnP_map]
  rfl

namespace Statement

variable {unit : Int} {text more : List Char} {statements first second : List Statement}

/-- Two texts that can be read can be read with a newline between them. -/
theorem parse_join (hfirst : parse unit text = .ok first) (hsecond : parse unit more = .ok second) :
    parse unit (text ++ '\n' :: more) = .ok (first ++ second.map (raised (text.length + 1))) := by
  obtain ⟨tokens, firsts, hscan, hfirsts, rfl⟩ := parse_eq_ok_iff.1 hfirst
  obtain ⟨others, seconds, hmore, hseconds, rfl⟩ := parse_eq_ok_iff.1 hsecond
  obtain ⟨front, stop, htokens, hstop, -, hjoin⟩ :=
    @Token.scan_join_of_none unit text more (by rw [hscan])
  obtain ⟨body, last, rfl, hbody, -⟩ := Token.scan_tokens hscan
  rw [hscan] at htokens
  obtain ⟨rfl, hlast⟩ := List.append_inj' htokens rfl
  cases hlast
  rw [hmore] at hjoin
  refine parse_eq_ok_iff.2 ⟨_, firsts ++ seconds.map (List.map (raised (text.length + 1))), hjoin,
    ?_, ?_⟩
  · rw [Token.lines_join _ _ hbody hstop]
    refine List.rel_append hfirsts ?_
    rw [List.forall₂_map_left_iff, List.forall₂_map_right_iff]
    exact hseconds.imp fun _ _ hline => hline.raised _ _
  · rw [List.flatten_append, List.map_flatten]

/-- Two texts with a newline between them can be read only if each of them can be. -/
theorem exists_parse_of_parse_join (h : parse unit (text ++ '\n' :: more) = .ok statements) :
    ∃ first second, parse unit text = .ok first ∧ parse unit more = .ok second := by
  have hsays : Says (text ++ '\n' :: more) (statements.map untagged) :=
    (says_iff_parse unit).2 ⟨statements, h, rfl⟩
  obtain ⟨_, _, hfirst, hsecond, -⟩ := says_join_iff.1 hsays
  obtain ⟨first, hfirst, -⟩ := (says_iff_parse unit).1 hfirst
  obtain ⟨second, hsecond, -⟩ := (says_iff_parse unit).1 hsecond
  exact ⟨first, second, hfirst, hsecond⟩

/-- Reading goes line by line.  Two texts with a newline between them have the tokens of the first
without its end, the newline there, and the tokens of the second on later lines; a first text that
has no tokens fails as it does alone; and both together are read as the statements of the first and
then those of the second, further on, exactly where each can be read. -/
theorem joined_texts_are_read_apart (unit : Int) (text more : List Char) :
    (∀ tokens others, Token.scan unit text = ⟨tokens, none⟩ →
      Token.scan unit more = ⟨others, none⟩ →
        ∃ front stop, tokens = front ++ [stop] ∧ stop.kind = .eof ∧ stop.offset = text.length ∧
          Token.scan unit (text ++ '\n' :: more) =
            ⟨front ++ { stop with kind := .newline } ::
              others.map (Token.raised (text.length + 1) (1 + text.count '\n')), none⟩) ∧
    (∀ tokens e, Token.scan unit text = ⟨tokens, some e⟩ →
      Token.scan unit (text ++ '\n' :: more) = ⟨tokens, some e⟩) ∧
    ∀ statements, parse unit (text ++ '\n' :: more) = .ok statements ↔
      ∃ first second, parse unit text = .ok first ∧ parse unit more = .ok second ∧
        statements = first ++ second.map (raised (text.length + 1)) := by
  refine ⟨fun tokens others htext hmore => ?_, fun tokens e htext => ?_, fun statements => ?_⟩
  · obtain ⟨front, stop, htokens, hstop, hplace, hjoin⟩ :=
      @Token.scan_join_of_none unit text more (by rw [htext])
    rw [htext] at htokens
    rw [hmore] at hjoin
    exact ⟨front, stop, htokens, hstop, hplace, hjoin⟩
  · rw [← htext]
    exact Token.scanFrom_append_newline_of_error (Nat.zero_le _) (congrArg Token.Scan.error htext)
  · constructor
    · intro h
      obtain ⟨first, second, hfirst, hsecond⟩ := exists_parse_of_parse_join h
      rw [parse_join hfirst hsecond] at h
      exact ⟨first, second, hfirst, hsecond, (Except.ok.inj h).symm⟩
    · rintro ⟨first, second, hfirst, hsecond, rfl⟩
      exact parse_join hfirst hsecond

theorem two_lines_are_read_apart :
    parse 1 "in: nop\njmp in".toList =
      .ok ([.label (some ⟨1, 0⟩) "in", .instruction (some ⟨1, 4⟩) "nop" .none] ++
        [.instruction (some ⟨1, 8⟩) "jmp" (.plain .address (.name (some ⟨1, 12⟩) "in"))]) :=
  ((joined_texts_are_read_apart 1 "in: nop".toList "jmp in".toList).2.2 _).2
    ⟨_, [.instruction (some ⟨1, 0⟩) "jmp" (.plain .address (.name (some ⟨1, 4⟩) "in"))],
      rfl, rfl, rfl⟩

end Statement

end Asm65
