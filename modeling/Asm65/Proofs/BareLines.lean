import Asm65.Proofs.Places

/-!
# Lines without places and comments

A line is read by the kinds of its tokens alone, and a comment at its end is read as the end of the
line.  So lines of the same kinds of tokens, with or without a comment behind them, come to the
same: they fail with the same problem, or they are read as the same statements apart from places.
The main statement, `allFrom_agree`, says this of all lines of a text together: what they come to
can be read off their kinds, comments and empty lines left out.
-/

namespace Asm65

/-- Whether a token is a comment. -/
def TokenKind.isComment : TokenKind → Bool
  | .comment _ => true
  | _ => false

theorem TokenKind.eq_comment_of_isComment {kind : TokenKind} (h : kind.isComment = true) :
    ∃ text, kind = .comment text := by
  cases kind with
  | comment text => exact ⟨text, rfl⟩
  | _ => cases h

theorem TokenKind.endsField_eq (kind : TokenKind) :
    kind.endsField = (kind.isComment || kind.endsLine) := by
  cases kind <;> rfl

/-- The same error, at whatever place. -/
def Error.Alike (e e' : Error) : Prop :=
  e'.untagged = e.untagged

section Matches

variable {places : Tag → Tag → Prop}

theorem Error.Matches.alike {e e' : Error} (h : e.Matches places e') : e.Alike e' := by
  cases h with
  | located hfamily hplace => rfl

theorem Statement.core_congr {read read' : List Statement}
    (h : List.Forall₂ (Statement.Matches places) read read') : core read' = core read := by
  rw [← core_map_untagged, map_untagged_eq h, core_map_untagged]

end Matches

open Reader

namespace Line

/-- Only kinds matter, and at the end of the last field there may be a comment or nothing. -/
def bareComparison (last last' : Token) : Comparison where
  places _ _ := True
  last := last
  last' := last'
  ends tokens others := (∃ comments, Grammar.IsComment tokens comments) ∧ others = []

/-- Comments do not count. -/
theorem core_of_isComment {tokens : List Token} {comments : List Statement}
    (h : Grammar.IsComment tokens comments) (read : List Statement) :
    Statement.core (if read.isEmpty then comments else read) = Statement.core read := by
  cases read with
  | nil => cases h <;> rfl
  | cons s read => rfl

/-- Lines of the same kinds of tokens come to the same, with or without a comment at the end. -/
theorem statements_agree {line other : Line} (hstop : line.stop.kind.endsLine = true)
    (hstop' : other.stop.kind.endsLine = true)
    (h : (bareComparison line.stop other.stop).Fits line.tokens other.tokens) :
    Agree Error.Alike (fun read read' => Statement.core read' = Statement.core read) line.statements
      other.statements := by
  have hagree := @readLine_fits _ _ _
    (fun a b => Statement.core b.1 = Statement.core a.1) h ?_
  · unfold Line.statements
    simp only [bareComparison] at hagree
    generalize readLine line.stop line.tokens = outcome at hagree
    generalize readLine other.stop other.tokens = outcome' at hagree
    cases hagree with
    | ok hcore => exact .ok hcore
    | error he => exact .error he.alike
  · rintro tokens others ⟨⟨comments, hcomment⟩, rfl⟩ - read read' hread
    have hline : readLineFrom read line.stop tokens =
        .ok (if read.isEmpty then comments else read, []) :=
      (readLineFrom_eq_ok_iff hstop hcomment.inner).2 ⟨rfl, comments, hcomment, rfl⟩
    have hother : readLineFrom read' other.stop [] =
        .ok (if read'.isEmpty then [] else read', []) :=
      (readLineFrom_eq_ok_iff hstop' (List.forall_mem_nil _)).2 ⟨rfl, [], .none, rfl⟩
    simp only [bareComparison, hline, hother]
    refine .ok ?_
    rw [core_of_isComment hcomment, core_of_isComment .none, Statement.core_congr hread]

/-! ## All lines of a text -/

/-- The kinds of tokens in a line that matter. -/
def bare (kinds : List TokenKind) : List TokenKind :=
  kinds.filter fun kind => !kind.isComment

/-- A line of tokens of given kinds, wherever they stand. -/
def ofKinds (kinds : List TokenKind) : Line :=
  ⟨kinds.map (Token.placed 0 .start), Token.placed 0 .start .eof⟩

theorem fits_ofKinds {last : Token} {tokens : List Token} (hlast : last.kind.endsLine = true)
    (hinner : ∀ t ∈ tokens, t.kind.endsLine = false)
    (h : (tokens.map Token.kind).IsChain fun kind _ => kind.isComment = false) :
    (bareComparison last (Token.placed 0 .start .eof)).Fits tokens
      (ofKinds (bare (tokens.map Token.kind))).tokens := by
  induction tokens with
  | nil =>
      have hend := TokenKind.endsField_of_endsLine hlast
      exact .stop ⟨⟨[], .none⟩, rfl⟩ hend rfl trivial
  | cons t rest ih =>
      obtain ⟨ht, hrest⟩ := List.forall_mem_cons.1 hinner
      rw [List.map_cons] at h ⊢
      cases hcomment : t.kind.isComment with
      | false =>
          have hfield : t.kind.endsField = false := by
            rw [TokenKind.endsField_eq, hcomment, ht, Bool.or_false]
          rw [bare, List.filter_cons_of_pos (by simp [hcomment])]
          exact .cons ⟨rfl, trivial⟩ hfield (ih hrest h.of_cons)
      | true =>
          -- a comment has nothing behind it
          have hend : t.kind.endsField = true := by
            rw [TokenKind.endsField_eq, hcomment, Bool.true_or]
          cases rest with
          | nil =>
              obtain ⟨text, hkind⟩ := TokenKind.eq_comment_of_isComment hcomment
              rw [bare, List.filter_cons_of_neg (by simp [hcomment])]
              exact .stop ⟨⟨_, .comment hkind⟩, rfl⟩ hend rfl trivial
          | cons u rest =>
              rw [List.map_cons, List.isChain_cons_cons, hcomment] at h
              cases h.1

/-- What the lines of a text come to can be read off the kinds of their tokens.  Comments, and lines
without other tokens, do not matter. -/
theorem allFrom_agree {lines : List Line} {read read' : List Statement}
    (hproper : ∀ line ∈ lines, line.Proper)
    (h : ∀ line ∈ lines, (line.tokens.map Token.kind).IsChain fun kind _ => kind.isComment = false)
    (hread : Statement.core read'.reverse = Statement.core read.reverse) :
    Agree Error.Alike (fun read read' => Statement.core read' = Statement.core read)
      (allFrom read lines)
      (allFrom read' (((lines.map fun line => bare (line.tokens.map Token.kind)).filter
        fun kinds => !kinds.isEmpty).map ofKinds)) := by
  induction lines generalizing read read' with
  | nil => exact .ok hread
  | cons line lines ih =>
      obtain ⟨hline, hlines⟩ := List.forall_mem_cons.1 h
      obtain ⟨⟨hinner, hstop⟩, hproper⟩ := List.forall_mem_cons.1 hproper
      have hfits := @statements_agree line (ofKinds (bare (line.tokens.map Token.kind))) hstop rfl
        (fits_ofKinds hstop hinner hline)
      rw [List.map_cons]
      cases hbare : bare (line.tokens.map Token.kind) with
      | nil =>
          rw [hbare] at hfits
          rw [List.filter_cons_of_neg (by simp)]
          simp only [allFrom]
          cases hstatements : line.statements with
          | ok more =>
              rw [hstatements] at hfits
              cases hfits with
              | ok hmore =>
                  refine ih hproper hlines ?_
                  rw [List.reverse_append, Statement.core_append, ← hread, List.reverse_reverse,
                    ← hmore]
                  exact (List.append_nil _).symm
          | error e =>
              rw [hstatements] at hfits
              cases hfits
      | cons kind kinds =>
          rw [hbare] at hfits
          rw [List.filter_cons_of_pos (by simp), List.map_cons]
          simp only [allFrom]
          generalize line.statements = outcome at hfits
          generalize (ofKinds (kind :: kinds)).statements = outcome' at hfits
          cases hfits with
          | ok hmore =>
              refine ih hproper hlines ?_
              rw [List.reverse_append, List.reverse_append, Statement.core_append,
                Statement.core_append, hread, List.reverse_reverse, List.reverse_reverse, hmore]
          | error he => exact .error he

end Line

end Asm65
