import Asm65.Proofs.Readers

/-!
# Lines are read one by one

The cursor runs over all tokens of a text, but what a line is read as depends on nothing behind the
token that ends it.  So a line can be read on its own, with that token as the last one, and all
tokens come to what their lines come to one after the other.
-/

namespace Asm65

/-- Whether tokens of this kind end a line. -/
def TokenKind.endsLine : TokenKind → Bool
  | newline | eof => true
  | _ => false

theorem TokenKind.endsField_of_endsLine {kind : TokenKind} (h : kind.endsLine = true) :
    kind.endsField = true := by
  cases kind with
  | newline => rfl
  | eof => rfl
  | _ => cases h

theorem TokenKind.eq_of_endsLine {kind : TokenKind} (h : kind.endsLine = true) :
    kind = .newline ∨ kind = .eof := by
  cases kind with
  | newline => exact Or.inl rfl
  | eof => exact Or.inr rfl
  | _ => cases h

/-- The tokens of a line and the token that ends it. -/
structure Line where
  tokens : List Token
  stop : Token
deriving DecidableEq, Repr

namespace Line

/-- Splits tokens into lines.  `line` holds the tokens of the line so far, newest first.  Tokens
after the last end of a line are in no line. -/
def splitFrom (line : List Token) : List Token → List Line
  | [] => []
  | t :: rest =>
      if t.kind.endsLine then ⟨line.reverse, t⟩ :: splitFrom [] rest
      else splitFrom (t :: line) rest

/-- The lines of a list of tokens. -/
def split (tokens : List Token) : List Line :=
  splitFrom [] tokens

/-- The statements of a line that is read on its own. -/
def statements (line : Line) : Except Error (List Statement) :=
  (Reader.readLine line.stop line.tokens).map Prod.fst

/-- The statements of lines in order; `read` holds those of the lines so far, newest first. -/
def allFrom (read : List Statement) : List Line → Except Error (List Statement)
  | [] => .ok read.reverse
  | line :: rest =>
      match line.statements with
      | .ok more => allFrom (more.reverse ++ read) rest
      | .error e => .error e

/-- The statements of lines in order. -/
def all (lines : List Line) : Except Error (List Statement) :=
  allFrom [] lines

/-- A line as the tokens of a text are split into: it ends with the token that ends it, and not
before. -/
structure Proper (line : Line) : Prop where
  inner : ∀ t ∈ line.tokens, t.kind.endsLine = false
  ends : line.stop.kind.endsLine = true

theorem splitFrom_append {front line rest : List Token} {e : Token}
    (hline : ∀ t ∈ line, t.kind.endsLine = false) (he : e.kind.endsLine = true) :
    splitFrom front (line ++ e :: rest) = ⟨front.reverse ++ line, e⟩ :: splitFrom [] rest := by
  induction line generalizing front with
  | nil => simp only [List.nil_append, splitFrom, he, if_true, List.append_nil]
  | cons t line ih =>
      obtain ⟨ht, hline⟩ := List.forall_mem_cons.1 hline
      rw [List.cons_append, splitFrom, if_neg (by rw [ht]; exact Bool.false_ne_true), ih hline]
      simp

theorem proper_of_mem_splitFrom {front tokens : List Token}
    (hfront : ∀ t ∈ front, t.kind.endsLine = false) :
    ∀ line ∈ splitFrom front tokens, line.Proper := by
  induction tokens generalizing front with
  | nil => exact List.forall_mem_nil _
  | cons t rest ih =>
      unfold splitFrom
      split
      · next ht =>
          refine List.forall_mem_cons.2 ⟨⟨fun u hu => ?_, ht⟩, ih (List.forall_mem_nil _)⟩
          exact hfront u (List.mem_reverse.1 hu)
      · next ht => exact ih (List.forall_mem_cons.2 ⟨by simpa using ht, hfront⟩)

theorem proper_of_mem_split {tokens : List Token} : ∀ line ∈ split tokens, line.Proper :=
  proper_of_mem_splitFrom (List.forall_mem_nil _)

end Line

namespace Reader

variable {last e : Token} {line rest : List Token}

/-- What the cursor stands at when a line has been read: the end of a text stays. -/
def behind (e : Token) (rest : List Token) : List Token :=
  if e.kind = .eof then e :: rest else rest

theorem readEndOfLine_cons (he : e.kind.endsLine = true) :
    readEndOfLine last (e :: rest) = .ok (behind e rest) := by
  rcases TokenKind.eq_of_endsLine he with hkind | hkind
  · simp [readEndOfLine, behind, hkind]
  · simp [readEndOfLine, behind, hkind]

theorem readEndOfLine_nil (he : e.kind.endsLine = true) : readEndOfLine e [] = .ok [] := by
  rcases TokenKind.eq_of_endsLine he with hkind | hkind
  · simp [readEndOfLine, hkind]
  · simp [readEndOfLine, hkind]

theorem readEndOfLine_inner {t : Token} (ht : t.kind.endsLine = false) :
    readEndOfLine last (t :: rest) = problemAt .endOfLineExpected last (t :: rest) := by
  simp only [readEndOfLine, current_cons]
  split
  · next hkind => rw [hkind] at ht; cases ht
  · next hkind => rw [hkind] at ht; cases ht
  · rfl

/-! ## A line among others and alone -/

/-- The line in front of `e` and `rest` is compared with the line alone. -/
def Comparison.alone (last e : Token) (rest : List Token) : Comparison where
  places := Eq
  last := last
  last' := e
  ends tokens others := tokens = others ++ e :: rest ∧ ∀ t ∈ others, t.kind.endsLine = false

theorem fits_alone (last : Token) (rest : List Token)
    (hline : ∀ t ∈ line, t.kind.endsLine = false) (he : e.kind.endsLine = true) :
    (Comparison.alone last e rest).Fits (line ++ e :: rest) line := by
  induction line with
  | nil =>
      have hend := TokenKind.endsField_of_endsLine he
      exact .stop ⟨rfl, hline⟩ hend hend rfl
  | cons t line ih =>
      cases hfield : t.kind.endsField with
      | true => exact .stop ⟨rfl, hline⟩ hfield hfield rfl
      | false => exact .cons ⟨rfl, rfl⟩ hfield (ih (List.forall_mem_cons.1 hline).2)

theorem readComment_nil (alone : Bool) (he : e.kind.endsLine = true) :
    readComment alone e [] = (none, []) := by
  rcases TokenKind.eq_of_endsLine he with hkind | hkind
  · simp only [readComment, current_nil, hkind]
  · simp only [readComment, current_nil, hkind]

theorem readComment_append (alone : Bool) (he : e.kind.endsLine = true) (others : List Token) :
    readComment alone last (others ++ e :: rest) =
      ((readComment alone e others).1, (readComment alone e others).2 ++ e :: rest) := by
  cases others with
  | nil =>
      simp only [List.nil_append, readComment, current_cons, current_nil]
      split
      · next hkind => rw [hkind] at he; cases he
      · rfl
  | cons t others =>
      simp only [List.cons_append, readComment, current_cons, List.tail_cons]
      split <;> rfl

theorem mem_of_mem_readComment {alone : Bool} {others : List Token} {t : Token}
    (h : t ∈ (readComment alone e others).2) : t ∈ others := by
  unfold readComment at h
  simp only at h
  split at h
  · exact List.mem_of_mem_tail h
  · exact h

/-- Behind its last field, a line is read in the same way alone. -/
theorem readLineFrom_alone (read : List Statement) {others : List Token}
    (hothers : ∀ t ∈ others, t.kind.endsLine = false) (he : e.kind.endsLine = true) :
    Agree (Error.Matches Eq) (fun a b => b.1 = a.1 ∧ a.2 = behind e rest)
      (readLineFrom read last (others ++ e :: rest)) (readLineFrom read e others) := by
  have hinner {t : Token} (h : t ∈ (readComment read.isEmpty e others).2) :
      t.kind.endsLine = false :=
    hothers t (mem_of_mem_readComment h)
  simp only [readLineFrom, readComment_append read.isEmpty he others]
  generalize readComment read.isEmpty e others = commented at hinner
  obtain ⟨comment, left⟩ := commented
  cases left with
  | nil =>
      rw [List.nil_append, readEndOfLine_cons he, readEndOfLine_nil he]
      exact .ok ⟨rfl, rfl⟩
  | cons t left =>
      have ht : t.kind.endsLine = false := hinner List.mem_cons_self
      rw [List.cons_append, readEndOfLine_inner ht, readEndOfLine_inner ht]
      exact .error (.located rfl rfl)

/-- A line is read in the same way alone. -/
theorem readLine_alone (last : Token) (rest : List Token)
    (hline : ∀ t ∈ line, t.kind.endsLine = false) (he : e.kind.endsLine = true) :
    Agree (Error.Matches Eq) (fun a b => b.1 = a.1 ∧ a.2 = behind e rest)
      (readLine last (line ++ e :: rest)) (readLine e line) := by
  refine readLine_fits (fits_alone last rest hline he) ?_
  rintro tokens others ⟨rfl, hothers⟩ - read read' hread
  have hsame : read' = read := by
    induction hread with
    | nil => rfl
    | cons h _ ih => rw [h.eq, ih]
  rw [hsame]
  exact readLineFrom_alone read hothers he

/-! ## All lines -/

theorem readLines_of_eof (read : List Statement) (rounds : Nat) (he : e.kind = .eof) :
    readLines last read rounds (e :: rest) = .ok read.reverse := by
  cases rounds with
  | zero => rfl
  | succ rounds => simp only [readLines, current_cons, he]

theorem readLines_of_line {t : Token} {tokens : List Token} (read : List Statement) (rounds : Nat)
    (h : t.kind.endsLine = false) :
    readLines last read (rounds + 1) (t :: tokens) =
      match readLine last (t :: tokens) with
      | .ok (more, rest) => readLines last (more.reverse ++ read) rounds rest
      | .error e => .error e := by
  rw [readLines, current_cons]
  split
  · next hkind => rw [hkind] at h; cases h
  · next hkind => rw [hkind] at h; cases h
  · rfl

theorem statements_nil (he : e.kind.endsLine = true) : (Line.mk [] e).statements = .ok [] := by
  rcases TokenKind.eq_of_endsLine he with hkind | hkind <;>
    simp [Line.statements, readLine, readLabel, readBody, readLineFrom, readComment, hkind,
      readEndOfLine_nil he, Except.map]

/-- One line, and then the lines behind it. -/
theorem readLines_line (last : Token) (read : List Statement) (rounds : Nat) (rest : List Token)
    (hline : ∀ t ∈ line, t.kind.endsLine = false) (he : e.kind.endsLine = true) :
    readLines last read (rounds + 1) (line ++ e :: rest) =
      match (Line.mk line e).statements with
      | .ok more => readLines last (more.reverse ++ read) rounds (behind e rest)
      | .error problem => .error problem := by
  cases line with
  | nil =>
      simp only [statements_nil he, List.nil_append, List.reverse_nil, behind]
      rcases TokenKind.eq_of_endsLine he with hkind | hkind
      · rw [if_neg (by simp [hkind]), readLines, current_cons, hkind]
        rfl
      · rw [if_pos hkind, readLines_of_eof _ _ hkind, readLines_of_eof _ _ hkind]
  | cons t line =>
      have hagree := readLine_alone last rest hline he
      rw [List.cons_append] at hagree ⊢
      rw [readLines_of_line read rounds (hline t List.mem_cons_self), Line.statements]
      simp only
      generalize readLine last (t :: (line ++ e :: rest)) = outcome at hagree
      generalize readLine e (t :: line) = outcome' at hagree
      cases hagree with
      | ok h =>
          obtain ⟨hread, hrest⟩ := h
          simp only [Except.map, hread, hrest]
      | error h => rw [h.eq]; rfl

/-- As many rounds as there are tokens are enough to read every line. -/
theorem readLines_eq_allFrom {body : List Token} {stop : Token} {rounds : Nat}
    (last : Token) (read : List Statement) (hbody : ∀ t ∈ body, t.kind ≠ .eof)
    (hstop : stop.kind = .eof) (hrounds : body.length < rounds) :
    readLines last read rounds (body ++ [stop]) =
      Line.allFrom read (Line.split (body ++ [stop])) := by
  induction rounds generalizing body read with
  | zero => exact absurd hrounds (Nat.not_lt_zero _)
  | succ rounds ih =>
      have hends : stop.kind.endsLine = true := by rw [hstop]; rfl
      -- the first line ends with a newline or with the text
      have hfirst : ((body ++ [stop]).find? fun t => t.kind.endsLine).isSome = true := by
        simp [hends]
      obtain ⟨e, hfind⟩ := Option.isSome_iff_exists.1 hfirst
      obtain ⟨he, line, rest, hsplit, hline⟩ := List.find?_eq_some_iff_append.1 hfind
      have hinner : ∀ t ∈ line, t.kind.endsLine = false := by simpa using hline
      rw [hsplit, readLines_line last read rounds rest hinner he, Line.split,
        Line.splitFrom_append hinner he, Line.allFrom, List.reverse_nil, List.nil_append]
      cases (Line.mk line e).statements with
      | error problem => rfl
      | ok more =>
          simp only
          rcases List.eq_nil_or_concat' rest with rfl | ⟨inner, x, rfl⟩
          · obtain ⟨-, hlast⟩ := List.append_inj' hsplit rfl
            obtain rfl : stop = e := List.singleton_inj.1 hlast
            rw [behind, if_pos hstop, readLines_of_eof _ _ hstop]
            rfl
          · rw [← List.cons_append, ← List.append_assoc] at hsplit
            obtain ⟨rfl, hlast⟩ := List.append_inj' hsplit rfl
            obtain rfl : stop = x := List.singleton_inj.1 hlast
            obtain ⟨-, hbehind⟩ := List.forall_mem_append.1 hbody
            obtain ⟨hnewline, hinner⟩ := List.forall_mem_cons.1 hbehind
            rw [behind, if_neg hnewline]
            refine ih _ hinner ?_
            simp only [List.length_append, List.length_cons] at hrounds
            omega

end Reader

/-- The tokens of a text are read line by line. -/
theorem Statement.ofTokens_eq_all_split {body : List Token} {stop : Token}
    (hbody : ∀ t ∈ body, t.kind ≠ .eof) (hstop : stop.kind = .eof) :
    ofTokens (body ++ [stop]) = Line.all (Line.split (body ++ [stop])) := by
  simp only [ofTokens, List.getLast?_concat]
  exact Reader.readLines_eq_allFrom stop [] hbody hstop (by simp)

end Asm65
