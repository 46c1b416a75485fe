import Asm65.Proofs.Derivations

/-!
# What a text says

Without the places in them, the statements of a text do not depend on where it stands, and they can
be read line by line: two texts with a newline between them say what the first says and then what
the second says.
-/

namespace Asm65

/-! ## Newlines end lexemes -/

namespace Token

section Newlines

variable {c : Char} {text more rest : List Char} {kind : TokenKind} {kinds : List TokenKind}

theorem takeWhile_append_newline (isIn : Char → Bool) (h : isIn '\n' = false) :
    (text ++ '\n' :: more).takeWhile isIn = text.takeWhile isIn := by
  induction text with
  | nil => simp [h]
  | cons c text ih => cases hc : isIn c <;> simp [hc, ih]

theorem head?_filter_append_newline (isIn : Char → Bool) (h : isIn '\n' = false) :
    (text ++ '\n' :: more).head?.filter isIn = text.head?.filter isIn := by
  cases text <;> simp [h]

theorem drop_append_newline (isIn : Char → Bool) :
    (text ++ '\n' :: more).drop (text.takeWhile isIn).length =
      text.drop (text.takeWhile isIn).length ++ '\n' :: more :=
  List.drop_append_of_le_length (List.takeWhile_prefix isIn).length_le

theorem scanDirective_append_newline :
    scanDirective (text ++ '\n' :: more) = scanDirective text := by
  simp only [scanDirective, head?_filter_append_newline isNameStart (by decide),
    takeWhile_append_newline isNameChar (by decide)]

theorem scanDigits_append_newline (isDigit : Char → Bool) {base byteDigits : Nat}
    (h : isDigit '\n' = false) :
    scanDigits isDigit base byteDigits (text ++ '\n' :: more) =
      scanDigits isDigit base byteDigits text := by
  simp only [scanDigits, takeWhile_append_newline isDigit h]

theorem scanDecimal_append_newline :
    scanDecimal c (text ++ '\n' :: more) = scanDecimal c text := by
  simp only [scanDecimal, takeWhile_append_newline Text.isDigit (by decide), drop_append_newline,
    head?_filter_append_newline isNameStart (by decide)]

theorem scanString_append_newline :
    scanString (text ++ '\n' :: more) = scanString text := by
  have hquote (tail : List Char) :
      ((tail ++ '\n' :: more).head? == some '"') = (tail.head? == some '"') := by
    cases tail <;> rfl
  simp only [scanString, takeWhile_append_newline (fun x => x != '"' && x != '\n') (by decide),
    drop_append_newline, hquote]

/-- What stands behind a newline does not matter to the lexemes before it. -/
theorem scanLexeme_append_newline :
    scanLexeme c (text ++ '\n' :: more) = scanLexeme c text := by
  simp only [scanLexeme, takeWhile_append_newline (· != '\n') (by decide),
    takeWhile_append_newline isNameChar (by decide), scanDirective_append_newline,
    scanDigits_append_newline Text.isHexDigit (by decide),
    scanDigits_append_newline Text.isBinaryDigit (by decide),
    scanDecimal_append_newline, scanString_append_newline]

theorem Lexeme.append_newline {lexeme : List Char} (h : Lexeme rest kind lexeme) :
    Lexeme (rest ++ '\n' :: more) kind lexeme := by
  obtain ⟨c, body, rfl, -⟩ := h.exists_cons
  rw [← scanLexeme_eq_ok_iff, ← List.append_assoc, scanLexeme_append_newline]
  exact scanLexeme_eq_ok_iff.2 h

theorem Lexes.append_newline (h : Lexes text kinds rest) :
    Lexes (text ++ '\n' :: more) kinds (rest ++ '\n' :: more) := by
  induction h with
  | stop => exact .stop
  | space hspace _ ih => exact .space hspace ih
  | lexeme hlexeme _ ih =>
      rw [List.append_assoc]
      exact .lexeme hlexeme.append_newline ih

theorem Stuck.append_newline {refusal : Refusal} (h : Stuck text refusal) :
    Stuck (text ++ '\n' :: more) refusal := by
  obtain ⟨c, tail, rfl, hspace, hscan⟩ := h
  exact ⟨c, tail ++ '\n' :: more, rfl, hspace, scanLexeme_append_newline.trans hscan⟩

theorem Lexes.join {others : List TokenKind} (h : Lexes text kinds [])
    (hmore : Lexes more others rest) :
    Lexes (text ++ '\n' :: more) (kinds ++ .newline :: others) rest := by
  have hnewline : Lexes (['\n'] ++ more) (.newline :: others) rest := .lexeme .newline hmore
  exact h.append_newline.trans hnewline

/-- The tokens of two texts with a newline between them. -/
theorem lexes_join_iff :
    Lexes (text ++ '\n' :: more) kinds [] ↔
      ∃ before behind, Lexes text before [] ∧ Lexes more behind [] ∧
        kinds = before ++ .newline :: behind := by
  constructor
  · intro h
    -- each text is read as far as it goes; where one of them gets stuck, so does the whole
    obtain ⟨before, rest, htext, rfl | ⟨refusal, hstuck⟩⟩ := exists_lexes text
    · obtain ⟨behind, tail, hmore, rfl | ⟨refusal, hstuck⟩⟩ := exists_lexes more
      · exact ⟨before, behind, htext, hmore, h.unique (htext.join hmore)⟩
      · exact (h.not_stuck (htext.join hmore) hstuck).elim
    · exact (h.not_stuck htext.append_newline hstuck.append_newline).elim
  · rintro ⟨before, behind, htext, hmore, rfl⟩
    exact htext.join hmore

theorem lexes_punctuation (hkind : punctuation? c = some kind) (hrest : Lexes rest kinds []) :
    Lexes (c :: rest) (kind :: kinds) [] := by
  have hlexeme : Lexeme rest kind [c] := .punctuation hkind
  exact .lexeme hlexeme hrest

/-- A text of one line has no newline among its tokens. -/
theorem Lexes.newline_not_mem (h : Lexes text kinds rest) (hline : '\n' ∉ text) :
    TokenKind.newline ∉ kinds := by
  induction h with
  | stop => exact List.not_mem_nil
  | space _ _ ih => exact ih fun hmem => hline (List.mem_cons_of_mem _ hmem)
  | lexeme hlexeme _ ih =>
      rw [List.mem_append, not_or] at hline
      rw [List.mem_cons, not_or]
      refine ⟨?_, ih hline.2⟩
      rintro rfl
      cases hlexeme with
      | newline => exact hline.1 List.mem_cons_self
      | punctuation hkind => exact absurd (mem_of_punctuation? hkind) (by simp)

end Newlines

end Token

/-! ## Statements without places -/

/-- A term without its place. -/
def Term.untagged : Term → Term
  | .number _ n => .number none n
  | .name _ word => .name none word

/-- An operand without the place in it. -/
def Operand.untagged (operand : Operand) : Operand :=
  { operand with term := operand.term.map Term.untagged }

/-- A statement without the places in it. -/
def Statement.untagged : Statement → Statement
  | .comment _ => .comment none
  | .label _ name => .label none name
  | .instruction _ mnemonic operand => .instruction none mnemonic operand.untagged
  | .org _ address => .org none address
  | .pad _ address => .pad none address
  | .bytes _ values => .bytes none values
  | .words _ values => .words none values
  | .vector _ target => .vector none target
  | .includeFile _ path => .includeFile none path
  | .unknown => .unknown

namespace Statement

/-- Whether a statement can add something to a program. -/
def counts : Statement → Bool
  | .comment _ | .includeFile _ _ => false
  | _ => true

/-- The statements that count, without the places in them. -/
def core (statements : List Statement) : List Statement :=
  (statements.filter counts).map untagged

theorem counts_untagged (s : Statement) : s.untagged.counts = s.counts := by
  cases s <;> rfl

theorem untagged_untagged (s : Statement) : s.untagged.untagged = s.untagged := by
  cases s with
  | instruction tag mnemonic operand =>
      obtain ⟨kind, modifier, term⟩ := operand
      cases term with
      | none => rfl
      | some term => cases term <;> rfl
  | _ => rfl

@[simp] theorem core_append (statements more : List Statement) :
    core (statements ++ more) = core statements ++ core more := by
  simp [core]

/-- Places do not matter to what counts. -/
@[simp] theorem core_map_untagged (statements : List Statement) :
    core (statements.map untagged) = core statements := by
  have hcounts : counts ∘ untagged = counts := funext counts_untagged
  have huntagged : untagged ∘ untagged = untagged := funext untagged_untagged
  simp only [core, List.filter_map, List.map_map, hcounts, huntagged]

end Statement

theorem exists_append_of_forall₂ {α β : Type} {related : α → β → Prop} {front back : List α}
    {ys : List β} (h : List.Forall₂ related (front ++ back) ys) :
    ∃ before behind, ys = before ++ behind ∧ List.Forall₂ related front before ∧
      List.Forall₂ related back behind := by
  induction front generalizing ys with
  | nil => exact ⟨[], ys, rfl, .nil, h⟩
  | cons x front ih =>
      obtain _ | ⟨hx, hrest⟩ := h
      obtain ⟨before, behind, rfl, hfront, hback⟩ := ih hrest
      exact ⟨_, behind, rfl, .cons hx hfront, hback⟩

section Matches

variable {places : Tag → Tag → Prop}

theorem Operand.Matches.untagged_eq {operand other : Operand} (h : operand.Matches places other) :
    other.untagged = operand.untagged := by
  obtain ⟨kind, modifier, term⟩ := operand
  obtain ⟨kind', modifier', term'⟩ := other
  obtain ⟨rfl, rfl, hterm⟩ := h
  cases hterm with
  | some hterm => cases hterm <;> rfl
  | none => rfl

theorem Statement.Matches.untagged_eq {s s' : Statement} (h : s.Matches places s') :
    s'.untagged = s.untagged := by
  cases h with
  | instruction hplace hoperand =>
      exact congrArg (Statement.instruction none _) hoperand.untagged_eq
  | _ => rfl

theorem Statement.map_untagged_eq {read read' : List Statement}
    (h : List.Forall₂ (Statement.Matches places) read read') :
    read'.map untagged = read.map untagged := by
  induction h with
  | nil => rfl
  | cons hfirst _ ih => rw [List.map_cons, List.map_cons, hfirst.untagged_eq, ih]

end Matches

namespace Grammar

open Reader

/-- Tokens of the same kinds, wherever they stand. -/
abbrev Alike : List Token → List Token → Prop :=
  List.Forall₂ fun t u => u.kind = t.kind

section Alike

variable {tokens others : List Token} {statements : List Statement}

/-- Lines of tokens of the same kinds, with `e` behind both. -/
def alikeComparison (e : Token) : Comparison where
  places _ _ := True
  last := e
  last' := e
  ends := Alike

theorem fits_of_alike {e : Token} (he : e.kind.endsLine = true) (h : Alike tokens others) :
    (alikeComparison e).Fits tokens others := by
  induction h with
  | nil =>
      have hend := TokenKind.endsField_of_endsLine he
      exact .stop .nil hend hend trivial
  | @cons t u tokens others hkind hrest ih =>
      cases hfield : t.kind.endsField with
      | true =>
          have hfield' : u.kind.endsField = true := by rw [hkind, hfield]
          exact .stop (.cons hkind hrest) hfield hfield' trivial
      | false => exact .cons ⟨hkind, trivial⟩ hfield ih

theorem readEndOfLine_alike {e : Token} (he : e.kind.endsLine = true) (h : Alike tokens others) :
    Agree (Error.Matches (alikeComparison e).places) (fun _ _ => True) (readEndOfLine e tokens)
      (readEndOfLine e others) := by
  cases h with
  | nil =>
      rw [readEndOfLine_nil he]
      exact .ok trivial
  | cons hkind hrest =>
      simp only [readEndOfLine, current_cons, hkind]
      split
      · exact .ok trivial
      · exact .ok trivial
      · exact .error (.located rfl trivial)

/-- What follows the last field is read alike. -/
theorem readLineFrom_alike {e : Token} (he : e.kind.endsLine = true) {read read' : List Statement}
    (hread : List.Forall₂ (Statement.Matches (alikeComparison e).places) read read')
    (h : Alike tokens others) :
    Agree (Error.Matches (alikeComparison e).places)
      (fun a b => List.Forall₂ (Statement.Matches (alikeComparison e).places) a.1 b.1)
      (readLineFrom read e tokens) (readLineFrom read' e others) := by
  have hempty : read'.isEmpty = read.isEmpty := by
    cases hread <;> rfl
  cases h with
  | nil =>
      simp only [readLineFrom, readComment_nil _ he, readEndOfLine_nil he]
      exact .ok (List.rel_append hread .nil)
  | cons hkind hrest =>
      simp only [readLineFrom, readComment, current_cons, hkind, List.tail_cons, hempty]
      split
      · refine (readEndOfLine_alike he hrest).bind fun _ _ _ => .ok (List.rel_append hread ?_)
        split
        · exact .cons (.comment trivial) .nil
        · exact .nil
      · refine (readEndOfLine_alike he (.cons hkind hrest)).bind fun _ _ _ => ?_
        exact .ok (List.rel_append hread .nil)

/-- Lines of the same kinds of tokens denote the same, their places apart. -/
theorem IsLine.of_alike (h : IsLine tokens statements) (halike : Alike tokens others) :
    ∃ read, IsLine others read ∧
      read.map Statement.untagged = statements.map Statement.untagged := by
  have he : (Token.placed 0 .start .eof).kind.endsLine = true := rfl
  generalize Token.placed 0 .start .eof = e at he
  have hinner : ∀ u ∈ others, u.kind.endsLine = false := by
    have htokens := h.inner
    clear h
    induction halike with
    | nil => exact List.forall_mem_nil _
    | cons hkind _ ih =>
        obtain ⟨ht, hrest⟩ := List.forall_mem_cons.1 htokens
        exact List.forall_mem_cons.2 ⟨by rw [hkind, ht], ih hrest⟩
  have hagree := readLine_fits (fits_of_alike he halike) fun _ _ hends _ _ _ hread =>
    readLineFrom_alike he hread hends
  have hline := @statements_of_isLine statements ⟨tokens, e⟩ he h
  have hother := fun read => @isLine_of_statements read ⟨others, e⟩ ⟨hinner, he⟩
  simp only [Line.statements, alikeComparison] at hline hother hagree
  generalize readLine e tokens = outcome at hagree hline
  generalize readLine e others = outcome' at hagree hother
  cases hagree with
  | error => cases hline
  | ok hread =>
      cases hline
      exact ⟨_, hother _ rfl, Statement.map_untagged_eq hread⟩

end Alike

/-- What a line of tokens of given kinds denotes, places left out. -/
def Denotes (kinds : List TokenKind) (statements : List Statement) : Prop :=
  ∃ tokens read, tokens.map Token.kind = kinds ∧ IsLine tokens read ∧
    read.map Statement.untagged = statements

theorem Denotes.of_isLine {tokens : List Token} {read : List Statement} (h : IsLine tokens read) :
    Denotes (tokens.map Token.kind) (read.map Statement.untagged) :=
  ⟨tokens, read, rfl, h, rfl⟩

theorem Denotes.isLine {tokens : List Token} {statements : List Statement}
    (h : Denotes (tokens.map Token.kind) statements) :
    ∃ read, IsLine tokens read ∧ read.map Statement.untagged = statements := by
  obtain ⟨others, read, hkinds, hline, rfl⟩ := h
  refine hline.of_alike ?_
  have hsame : List.Forall₂ (fun k l => l = k) (others.map Token.kind) (tokens.map Token.kind) := by
    rw [hkinds, List.forall₂_same]
    exact fun _ _ => rfl
  rwa [List.forall₂_map_left_iff, List.forall₂_map_right_iff] at hsame

end Grammar

open Grammar

theorem splitOnP_map {α β : Type} (f : α → β) (p : β → Bool) (xs : List α) :
    (xs.map f).splitOnP p = (xs.splitOnP (p ∘ f)).map (List.map f) := by
  induction xs with
  | nil => simp
  | cons x xs ih =>
      rw [List.map_cons, List.splitOnP_cons_eq_if_modifyHead, List.splitOnP_cons_eq_if_modifyHead,
        ih, Function.comp_apply]
      split
      · rfl
      · cases xs.splitOnP (p ∘ f) <;> rfl

theorem splitOnP_filter {α : Type} {p q : α → Bool} (h : ∀ x, p x = true → q x = true)
    (xs : List α) : (xs.filter q).splitOnP p = (xs.splitOnP p).map (List.filter q) := by
  induction xs with
  | nil => simp
  | cons x xs ih =>
      obtain ⟨first, rest, hsplit⟩ := List.exists_cons_of_ne_nil (List.splitOnP_ne_nil p xs)
      rw [hsplit, List.map_cons] at ih
      rw [List.splitOnP_cons_eq_if_modifyHead, hsplit]
      cases hp : p x with
      | true => simp [List.splitOnP_cons_eq_if_modifyHead, h x hp, hp, ih]
      | false =>
          cases hq : q x with
          | true => simp [List.splitOnP_cons_eq_if_modifyHead, hq, hp, ih]
          | false => simp [hq, ih]

/-- The kinds of the tokens in the lines of a text. -/
theorem Token.map_kind_lines {tokens : List Token} {kinds : List TokenKind}
    (hkinds : tokens.map kind = kinds ++ [.eof]) (heof : ∀ kind ∈ kinds, kind ≠ .eof) :
    (lines tokens).map (List.map kind) = kinds.splitOn .newline := by
  obtain ⟨body, last, rfl, rfl, hlast⟩ := List.map_eq_append_iff.1 hkinds
  obtain ⟨stop, rfl, hstop⟩ := List.map_eq_singleton_iff.1 hlast
  rw [lines_concat (by simpa using heof) hstop, List.splitOn, splitOnP_map]
  rfl

namespace Statement

/-- What a text says: the statements of its lines, places left out. -/
def Says (text : List Char) (statements : List Statement) : Prop :=
  ∃ kinds parts, Token.Lexes text kinds [] ∧
    List.Forall₂ Denotes (kinds.splitOn .newline) parts ∧ statements = parts.flatten

section Says

variable {text more line : List Char} {statements : List Statement} {kinds : List TokenKind}

theorem exists_isLine_of_denotes {lines : List (List Token)} {parts : List (List Statement)}
    (h : List.Forall₂ Denotes (lines.map (List.map Token.kind)) parts) :
    ∃ reads, List.Forall₂ IsLine lines reads ∧ reads.map (List.map untagged) = parts := by
  rw [List.forall₂_map_left_iff] at h
  induction h with
  | nil => exact ⟨[], .nil, rfl⟩
  | cons hline _ ih =>
      obtain ⟨read, hread, rfl⟩ := hline.isLine
      obtain ⟨reads, hreads, rfl⟩ := ih
      exact ⟨read :: reads, .cons hread hreads, rfl⟩

/-- A text is read as what it says, in whatever unit. -/
theorem says_iff_parse (unit : Int) :
    Says text statements ↔
      ∃ read, parse unit text = .ok read ∧ read.map untagged = statements := by
  constructor
  · rintro ⟨kinds, parts, hlexes, hparts, rfl⟩
    obtain ⟨hnone, hkinds⟩ := hlexes.scan_eq unit
    -- the tokens of the scan have places, and lines of tokens of the same kinds say the same
    rw [← Token.map_kind_lines hkinds hlexes.ne_eof] at hparts
    obtain ⟨reads, hreads, rfl⟩ := exists_isLine_of_denotes hparts
    have hscan : Token.scan unit text = ⟨(Token.scan unit text).tokens, none⟩ := by rw [← hnone]
    exact ⟨reads.flatten, parse_eq_ok_iff.2 ⟨_, reads, hscan, hreads, rfl⟩, List.map_flatten⟩
  · rintro ⟨read, hparse, rfl⟩
    obtain ⟨tokens, reads, hscan, hreads, rfl⟩ := parse_eq_ok_iff.1 hparse
    obtain ⟨kinds, hlexes⟩ := (Token.scan_error_eq_none_iff unit text).1 (by rw [hscan])
    have hkinds := (hlexes.scan_eq unit).2
    rw [hscan] at hkinds
    refine ⟨kinds, reads.map (List.map untagged), hlexes, ?_, List.map_flatten⟩
    rw [← Token.map_kind_lines hkinds hlexes.ne_eof, List.forall₂_map_left_iff,
      List.forall₂_map_right_iff]
    exact hreads.imp fun _ _ => Denotes.of_isLine

/-- What two texts with a newline between them say. -/
theorem says_join_iff :
    Says (text ++ '\n' :: more) statements ↔
      ∃ first second, Says text first ∧ Says more second ∧ statements = first ++ second := by
  constructor
  · rintro ⟨kinds, parts, hlexes, hparts, rfl⟩
    obtain ⟨before, behind, htext, hmore, rfl⟩ := Token.lexes_join_iff.1 hlexes
    rw [List.splitOn, List.splitOnP_append_cons _ _ (by simp)] at hparts
    obtain ⟨firsts, seconds, rfl, hfirsts, hseconds⟩ := exists_append_of_forall₂ hparts
    exact ⟨_, _, ⟨before, firsts, htext, hfirsts, rfl⟩, ⟨behind, seconds, hmore, hseconds, rfl⟩,
      List.flatten_append⟩
  · rintro ⟨first, second, ⟨before, firsts, htext, hfirsts, rfl⟩,
      ⟨behind, seconds, hmore, hseconds, rfl⟩, rfl⟩
    refine ⟨_, firsts ++ seconds, htext.join hmore, ?_, List.flatten_append.symm⟩
    rw [List.splitOn, List.splitOnP_append_cons _ _ (by simp)]
    exact List.rel_append hfirsts hseconds

/-- A text says what its lines say one after the other. -/
theorem says_intercalate_iff {lines : List (List Char)} (hne : lines ≠ []) :
    Says (['\n'].intercalate lines) statements ↔
      ∃ parts, List.Forall₂ Says lines parts ∧ statements = parts.flatten := by
  induction lines generalizing statements with
  | nil => exact (hne rfl).elim
  | cons line lines ih =>
      simp only [List.forall₂_cons_left_iff]
      cases lines with
      | nil => simp [List.intercalate]
      | cons next lines =>
          rw [List.intercalate_cons_cons, List.append_assoc, List.singleton_append, says_join_iff]
          simp only [ih (List.cons_ne_nil next lines)]
          constructor
          · rintro ⟨first, second, hfirst, ⟨parts, hparts, rfl⟩, rfl⟩
            exact ⟨first :: parts, ⟨first, parts, hfirst, hparts, rfl⟩, rfl⟩
          · rintro ⟨_, ⟨first, parts, hfirst, hparts, rfl⟩, rfl⟩
            exact ⟨first, parts.flatten, hfirst, ⟨parts, hparts, rfl⟩, rfl⟩

/-- A single line says what its tokens denote. -/
theorem says_line_iff (hline : '\n' ∉ line) :
    Says line statements ↔ ∃ kinds, Token.Lexes line kinds [] ∧ Denotes kinds statements := by
  constructor
  · rintro ⟨kinds, parts, hlexes, hparts, rfl⟩
    rw [List.splitOn_eq_singleton (hlexes.newline_not_mem hline)] at hparts
    obtain _ | ⟨hpart, ⟨⟩⟩ := hparts
    exact ⟨kinds, hlexes, by simpa using hpart⟩
  · rintro ⟨kinds, hlexes, hdenotes⟩
    refine ⟨kinds, [statements], hlexes, ?_, by simp⟩
    rw [List.splitOn_eq_singleton (hlexes.newline_not_mem hline)]
    exact .cons hdenotes .nil

end Says

end Statement

end Asm65
