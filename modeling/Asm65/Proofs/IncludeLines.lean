import Asm65.Proofs.Readings

/-!
# Lines with an include directive

An include directive can be found in the text of a line and cut out of it.  What is left of the line
says what the line says, but for the directive; and a line without the directive in its text has
none among its statements.
-/

namespace Asm65

open Grammar Token

/-! ## Finding the directive -/

/-- A character that is in front of a directive. -/
def isBeforeDirective (c : Char) : Bool :=
  c != '.' && c != ';' && c != '"'

/-- The file that the include directive of a line names, and the line without the directive. -/
def cutInclude? (line : List Char) : Option (String × List Char) :=
  let before := line.takeWhile isBeforeDirective
  match line.drop before.length with
  | '.' :: rest =>
      let word := rest.takeWhile isNameChar
      if Text.lower word = "include".toList then
        match (rest.drop word.length).dropWhile isSpace with
        | '"' :: quoted =>
            let file := quoted.takeWhile (· != '"')
            match quoted.drop file.length with
            | _ :: after => some (String.ofList file, before ++ after)
            | [] => none
        | _ => none
      else none
  | _ => none

/-- The text of a line with an include directive. -/
def includeLine (before word blanks file after : List Char) : List Char :=
  before ++ '.' :: (word ++ (blanks ++ '"' :: (file ++ '"' :: after)))

/-- The parts of such a line: what is in front of the directive, the word behind its full stop, the
spaces behind the word and the name of the file. -/
structure IsInclude (before word blanks file : List Char) : Prop where
  plain : ∀ c ∈ before, isBeforeDirective c = true
  name : ∀ c ∈ word, isNameChar c = true
  lower : Text.lower word = "include".toList
  spaces : ∀ c ∈ blanks, isSpace c = true
  unquoted : ∀ c ∈ file, (c != '"') = true

section Parts

variable {before word blanks file after line cut : List Char}

theorem stops_of_blanks {rest : List Char} (h : ∀ c ∈ blanks, isSpace c = true) :
    Stops isNameChar (blanks ++ '"' :: rest) := by
  cases blanks with
  | nil => simp; decide
  | cons c blanks =>
      have hc := (List.forall_mem_cons.1 h).1
      simp only [isSpace, Bool.or_eq_true, beq_iff_eq] at hc
      rw [List.cons_append, stops_cons]
      rcases hc with (rfl | rfl) | rfl <;> decide

/-- The directive of a line is found by its text. -/
theorem cutInclude?_includeLine (h : IsInclude before word blanks file) :
    cutInclude? (includeLine before word blanks file after) =
      some (String.ofList file, before ++ after) := by
  have hbefore : (includeLine before word blanks file after).takeWhile isBeforeDirective =
      before := takeWhile_of_stops h.plain (by simp; decide)
  have hword : (word ++ (blanks ++ '"' :: (file ++ '"' :: after))).takeWhile isNameChar = word :=
    takeWhile_of_stops h.name (stops_of_blanks h.spaces)
  have hblanks : (blanks ++ '"' :: (file ++ '"' :: after)).dropWhile isSpace =
      '"' :: (file ++ '"' :: after) := by
    rw [List.dropWhile_append_of_pos h.spaces]
    rfl
  have hfile : (file ++ '"' :: after).takeWhile (· != '"') = file :=
    takeWhile_of_stops h.unquoted (by simp)
  have hrest : (includeLine before word blanks file after).drop before.length =
      '.' :: (word ++ (blanks ++ '"' :: (file ++ '"' :: after))) := List.drop_left
  simp only [cutInclude?, hbefore, hrest, hword, h.lower, if_true, List.drop_left, hblanks, hfile]

/-- The longest run of a class in front of a text. -/
theorem exists_run (isIn : Char → Bool) (text : List Char) :
    ∃ rest, text = text.takeWhile isIn ++ rest ∧
      text.drop (text.takeWhile isIn).length = rest ∧
      (∀ c ∈ text.takeWhile isIn, isIn c = true) ∧ Stops isIn rest := by
  obtain ⟨rest, hrest⟩ := List.takeWhile_prefix (l := text) isIn
  refine ⟨rest, hrest.symm, ?_, ?_⟩
  · nth_rewrite 2 [← hrest]
    exact List.drop_left
  · rw [← takeWhile_append_eq_iff, hrest]

/-- Only a line with a directive is cut. -/
theorem includeLine_of_cutInclude? {path : String} (h : cutInclude? line = some (path, cut)) :
    ∃ before word blanks file after, line = includeLine before word blanks file after ∧
      IsInclude before word blanks file ∧ path = String.ofList file ∧ cut = before ++ after := by
  obtain ⟨tail, hline, hdrop, hplain, -⟩ := exists_run isBeforeDirective line
  simp only [cutInclude?, hdrop] at h
  generalize line.takeWhile isBeforeDirective = before at *
  split at h
  · next rest =>
      obtain ⟨behind, hrest, hdropWord, hname, -⟩ := exists_run isNameChar rest
      rw [hdropWord] at h
      generalize rest.takeWhile isNameChar = word at *
      split at h
      · next hlower =>
          have hblanks := List.takeWhile_append_dropWhile (p := isSpace) (l := behind)
          obtain ⟨-, -, -, hspaces, -⟩ := exists_run isSpace behind
          split at h
          · next quoted hquoted =>
              obtain ⟨closing, hquotedFile, hdropFile, hunquoted, hclosing⟩ :=
                exists_run (· != '"') quoted
              rw [hdropFile] at h
              split at h
              · next quote after =>
                  -- the name of the file ends at a quote
                  have hquote : quote = '"' := by simpa using hclosing
                  cases h
                  refine ⟨before, word, behind.takeWhile isSpace, quoted.takeWhile (· != '"'),
                    after, ?_, ⟨hplain, hname, hlower, hspaces, hunquoted⟩, rfl, rfl⟩
                  rw [hquote] at hquotedFile
                  rw [includeLine, ← hquotedFile, ← hquoted, hblanks, ← hrest, ← hline]
              · cases h
          · cases h
      · cases h
  · cases h

end Parts

/-! ## Reading the parts -/

namespace Token

variable {text rest : List Char} {kind : TokenKind} {kinds : List TokenKind}

/-- The first token of a text stands behind spaces. -/
theorem Lexes.uncons (h : Lexes text (kind :: kinds) []) :
    ∃ blanks lexeme rest, text = blanks ++ (lexeme ++ rest) ∧
      (∀ c ∈ blanks, isSpace c = true) ∧ Lexeme rest kind lexeme ∧ Lexes rest kinds [] := by
  generalize hall : kind :: kinds = all at h
  generalize hend : ([] : List Char) = final at h
  induction h with
  | stop => cases hall
  | @space c text rest kinds hspace _ ih =>
      obtain ⟨blanks, lexeme, rest, rfl, hblanks, hlexeme, hrest⟩ := ih hall hend
      exact ⟨c :: blanks, lexeme, rest, rfl, List.forall_mem_cons.2 ⟨hspace, hblanks⟩, hlexeme,
        hrest⟩
  | lexeme hlexeme hnext _ =>
      cases hall
      subst hend
      exact ⟨[], _, _, rfl, List.forall_mem_nil _, hlexeme, hnext⟩

theorem Lexeme.of_directive {name : String} {lexeme : List Char}
    (h : Lexeme rest (.directive name) lexeme) :
    ∃ word, lexeme = '.' :: word ∧ IsName word ∧ name = String.ofList (Text.lower word) := by
  cases h with
  | directive hname hstop => exact ⟨_, rfl, hname, rfl⟩
  | punctuation hkind => exact absurd (mem_of_punctuation? hkind) (by simp)

theorem Lexeme.of_string {path : String} {lexeme : List Char}
    (h : Lexeme rest (.string path) lexeme) :
    ∃ file, lexeme = '"' :: file ++ ['"'] ∧ (∀ c ∈ file, (c != '"' && c != '\n') = true) ∧
      path = String.ofList file := by
  cases h with
  | string htext => exact ⟨_, rfl, htext, rfl⟩
  | punctuation hkind => exact absurd (mem_of_punctuation? hkind) (by simp)

theorem Lexeme.of_identifier {name : String} {lexeme : List Char}
    (h : Lexeme rest (.identifier name) lexeme) :
    IsName lexeme ∧ Stops isNameChar rest ∧ name = String.ofList lexeme := by
  cases h with
  | identifier hname hstop => exact ⟨hname, hstop, rfl⟩
  | punctuation hkind => exact absurd (mem_of_punctuation? hkind) (by simp)

theorem Lexeme.of_colon {lexeme : List Char} (h : Lexeme rest .colon lexeme) : lexeme = [':'] := by
  cases h with
  | punctuation hkind => simpa using mem_of_punctuation? hkind

theorem isBeforeDirective_of_class {isIn : Char → Bool} {c : Char} (hc : isIn c = true)
    (hsigns : isIn '.' = false ∧ isIn ';' = false ∧ isIn '"' = false) :
    isBeforeDirective c = true := by
  simp only [isBeforeDirective, bne, beq_false_of_class '.' hc hsigns.1,
    beq_false_of_class ';' hc hsigns.2.1, beq_false_of_class '"' hc hsigns.2.2]
  rfl

theorem isBeforeDirective_of_isSpace {blanks : List Char} (h : ∀ c ∈ blanks, isSpace c = true) :
    ∀ c ∈ blanks, isBeforeDirective c = true :=
  fun c hc => isBeforeDirective_of_class (h c hc) (by decide)

/-- The text of a label stands in front of whatever comes behind it. -/
theorem Lexes.label {label : List Token} {labels : List Statement} (hlabel : IsLabel label labels)
    (h : Lexes text (label.map Token.kind ++ kinds) []) :
    ∃ before rest, text = before ++ rest ∧ Lexes rest kinds [] ∧
      (∀ c ∈ before, isBeforeDirective c = true) ∧
      ∀ {other others}, Lexes other others [] →
        Lexes (before ++ other) (label.map Token.kind ++ others) [] := by
  cases hlabel with
  | none => exact ⟨[], text, rfl, h, List.forall_mem_nil _, id⟩
  | @label t colon name hkind hcolon =>
      simp only [List.map_cons, List.map_nil, hkind, hcolon, List.cons_append,
        List.nil_append] at h ⊢
      obtain ⟨blanks, lexeme, rest, rfl, hblanks, hname, hrest⟩ := h.uncons
      obtain ⟨spaces, mark, behind, rfl, hspaces, hmark, hbehind⟩ := hrest.uncons
      obtain ⟨hisName, hstop, rfl⟩ := hname.of_identifier
      obtain rfl := hmark.of_colon
      refine ⟨blanks ++ (lexeme ++ (spaces ++ [':'])), behind, by simp, hbehind, ?_, ?_⟩
      · simp only [List.forall_mem_append]
        exact ⟨isBeforeDirective_of_isSpace hblanks,
          fun c hc => isBeforeDirective_of_class (hisName.isNameChar c hc) (by decide),
          isBeforeDirective_of_isSpace hspaces, List.forall_mem_singleton.2 (by decide)⟩
      · intro other others hother
        have hstop' : Stops isNameChar (spaces ++ ':' :: other) := by
          cases spaces <;> simpa using hstop
        have hname' := Lexes.lexeme (.identifier hisName hstop')
          (.spaces hspaces (lexes_punctuation (c := ':') rfl hother))
        simpa using hname'.spaces hblanks

/-- The text of an include directive behind a label. -/
theorem Lexes.includeLine {label : List Token} {labels : List Statement} {path : String}
    (hlabel : IsLabel label labels)
    (h : Lexes text (label.map Token.kind ++ .directive "include" :: .string path :: kinds) []) :
    ∃ before word blanks file after, text = includeLine before word blanks file after ∧
      IsInclude before word blanks file ∧ path = String.ofList file ∧
      Lexes (before ++ after) (label.map Token.kind ++ kinds) [] := by
  obtain ⟨front, rest, rfl, hrest, hplain, hback⟩ := Lexes.label hlabel h
  obtain ⟨spaces, directive, behind, rfl, hspaces, hdirective, hbehind⟩ := hrest.uncons
  obtain ⟨blanks, quoted, after, rfl, hblanks, hquoted, hafter⟩ := hbehind.uncons
  obtain ⟨word, rfl, hword, hlower⟩ := hdirective.of_directive
  obtain ⟨file, rfl, hfile, rfl⟩ := hquoted.of_string
  have hplain' : ∀ c ∈ front ++ spaces, isBeforeDirective c = true :=
    List.forall_mem_append.2 ⟨hplain, isBeforeDirective_of_isSpace hspaces⟩
  have hlower' : Text.lower word = "include".toList := by
    rw [hlower, String.toList_ofList]
  have hunquoted : ∀ c ∈ file, (c != '"') = true := by
    intro c hc
    exact (Bool.and_eq_true_iff.1 (hfile c hc)).1
  refine ⟨front ++ spaces, word, blanks, file, after, by simp [Asm65.includeLine],
    ⟨hplain', hword.isNameChar, hlower', hblanks, hunquoted⟩, rfl, ?_⟩
  rw [List.append_assoc]
  exact hback (hafter.spaces hspaces)

/-- No lexeme goes on with a full stop, but for comments and strings. -/
theorem Lexeme.dot_not_mem {c : Char} {body lexeme : List Char} (h : Lexeme rest kind lexeme)
    (hlexeme : lexeme = c :: body) (hc : isBeforeDirective c = true) : '.' ∉ lexeme := by
  cases h with
  | newline => decide
  | comment hbody hstop =>
      cases hlexeme
      exact absurd hc (by decide)
  | identifier hname hstop =>
      intro hdot
      exact absurd (hname.isNameChar '.' hdot) (by decide)
  | directive hname hstop =>
      cases hlexeme
      exact absurd hc (by decide)
  | hexadecimal hne hdigits hstop =>
      rw [List.mem_cons, not_or]
      exact ⟨by decide, fun hdot => absurd (hdigits '.' hdot) (by decide)⟩
  | binary hne hdigits hstop =>
      rw [List.mem_cons, not_or]
      exact ⟨by decide, fun hdot => absurd (hdigits '.' hdot) (by decide)⟩
  | decimal hnumeral hdecimal =>
      intro hdot
      exact absurd (hnumeral.digits '.' hdot) (by decide)
  | string htext =>
      cases hlexeme
      exact absurd hc (by decide)
  | punctuation hkind =>
      cases hlexeme
      rw [List.mem_singleton]
      rintro rfl
      cases hkind

/-- A full stop with no comment or string in front of it starts a token. -/
theorem Lexes.at_dot {before : List Char} (h : Lexes text kinds [])
    (htext : text = before ++ '.' :: rest) (hbefore : ∀ c ∈ before, isBeforeDirective c = true) :
    ∃ front back, kinds = front ++ back ∧ Lexes ('.' :: rest) back [] := by
  generalize hend : ([] : List Char) = final at h
  induction h generalizing before with
  | stop =>
      subst hend
      simp at htext
  | @space c text final kinds hspace hnext ih =>
      cases before with
      | nil =>
          cases htext
          exact absurd hspace (by decide)
      | cons d before =>
          obtain ⟨rfl, htail⟩ := List.cons.inj htext
          exact ih htail (List.forall_mem_cons.1 hbefore).2 hend
  | @lexeme kind lexeme text final kinds hlexeme hnext ih =>
      subst hend
      cases before with
      | nil =>
          rw [List.nil_append] at htext
          exact ⟨[], kind :: kinds, rfl, htext ▸ .lexeme hlexeme hnext⟩
      | cons d before =>
          obtain ⟨c, body, rfl, -⟩ := hlexeme.exists_cons
          rw [List.cons_append, List.cons_append, List.cons.injEq] at htext
          obtain ⟨rfl, htail⟩ := htext
          have hdot := hlexeme.dot_not_mem rfl (List.forall_mem_cons.1 hbefore).1
          -- so the lexeme ends before the full stop
          obtain ⟨more, rfl, hmore⟩ :
              ∃ more, before = body ++ more ∧ text = more ++ '.' :: rest := by
            rcases List.append_eq_append_iff.1 htail with hshort | ⟨more, rfl, hmore⟩
            · exact hshort
            · cases more with
              | nil => exact ⟨[], by simp, hmore.symm⟩
              | cons x more =>
                  cases hmore
                  exact (hdot (by simp)).elim
          have hplain := (List.forall_mem_append.1 (List.forall_mem_cons.1 hbefore).2).2
          obtain ⟨front, back, rfl, hback⟩ := ih hmore hplain rfl
          exact ⟨kind :: front, back, rfl, hback⟩

theorem Lexes.directive {word : List Char} (h : Lexes ('.' :: (word ++ rest)) kinds [])
    (hword : ∀ c ∈ word, isNameChar c = true) (hstop : Stops isNameChar rest) :
    .directive (String.ofList (Text.lower word)) ∈ kinds := by
  generalize htext : '.' :: (word ++ rest) = text at h
  cases h with
  | stop => cases htext
  | space hspace hnext =>
      cases htext
      exact absurd hspace (by decide)
  | @lexeme kind lexeme text _ kinds hlexeme hnext =>
      obtain ⟨c, body, rfl, -⟩ := hlexeme.exists_cons
      rw [List.cons_append, List.cons.injEq] at htext
      obtain ⟨rfl, htail⟩ := htext
      obtain ⟨hname, hend, rfl⟩ := scanDirective_eq_ok_iff.1 (scanLexeme_eq_ok_iff.2 hlexeme)
      have hbody : body = word := by
        rw [← takeWhile_of_stops hname.isNameChar hend, ← htail, takeWhile_of_stops hword hstop]
      rw [hbody]
      exact List.mem_cons_self

end Token

/-! ## Directives among the tokens -/

/-- Whether a statement is an include directive. -/
def Statement.isInclude : Statement → Bool
  | .includeFile _ _ => true
  | _ => false

namespace Grammar

variable {tokens : List Token}

theorem ne_include_of_isArgument (h : ∀ t ∈ tokens, t.kind.isArgument = true) :
    ∀ t ∈ tokens, t.kind ≠ .directive "include" := by
  intro t ht hkind
  have hargument := h t ht
  rw [hkind] at hargument
  cases hargument

/-- The body of a line is an include directive, or there is none in it. -/
theorem IsBody.include_cases {bodies : List Statement} (h : IsBody tokens bodies) :
    (∃ d t path, tokens = [d, t] ∧ d.kind = .directive "include" ∧ t.kind = .string path ∧
        bodies = [.includeFile d.tag path]) ∨
      (∀ t ∈ tokens, t.kind ≠ .directive "include") ∧ ∀ s ∈ bodies, s.isInclude = false := by
  cases h with
  | none => exact Or.inr ⟨List.forall_mem_nil _, List.forall_mem_nil _⟩
  | instruction hkind hoperand =>
      have hfree := ne_include_of_isArgument hoperand.isArgument
      exact Or.inr ⟨List.forall_mem_cons.2 ⟨by simp [hkind], hfree⟩, by simp [Statement.isInclude]⟩
  | directive hdirective =>
      cases hdirective with
      | org hname hkind => exact Or.inr ⟨by simp [hname, hkind], by simp [Statement.isInclude]⟩
      | pad hname hkind => exact Or.inr ⟨by simp [hname, hkind], by simp [Statement.isInclude]⟩
      | byte hname hvalues =>
          have hfree := ne_include_of_isArgument hvalues.isArgument
          exact Or.inr ⟨List.forall_mem_cons.2 ⟨by simp [hname], hfree⟩,
            by simp [Statement.isInclude]⟩
      | word hname hvalues =>
          have hfree := ne_include_of_isArgument hvalues.isArgument
          exact Or.inr ⟨List.forall_mem_cons.2 ⟨by simp [hname], hfree⟩,
            by simp [Statement.isInclude]⟩
      | vector hname hkind => exact Or.inr ⟨by simp [hname, hkind], by simp [Statement.isInclude]⟩
      | includeFile hname hkind => exact Or.inl ⟨_, _, _, rfl, hname, hkind, rfl⟩

theorem IsLabel.include_free {labels : List Statement} (h : IsLabel tokens labels) :
    (∀ t ∈ tokens, t.kind ≠ .directive "include") ∧ ∀ s ∈ labels, s.isInclude = false := by
  cases h with
  | none => exact ⟨List.forall_mem_nil _, List.forall_mem_nil _⟩
  | label hkind hcolon => exact ⟨by simp [hkind, hcolon], by simp [Statement.isInclude]⟩

theorem IsComment.include_free {comments : List Statement} (h : IsComment tokens comments) :
    (∀ t ∈ tokens, t.kind ≠ .directive "include") ∧ (∀ s ∈ comments, s.isInclude = false) ∧
      Statement.core comments = [] := by
  cases h with
  | none => exact ⟨List.forall_mem_nil _, List.forall_mem_nil _, rfl⟩
  | comment hkind => exact ⟨by simp [hkind], by simp [Statement.isInclude], rfl⟩

end Grammar

namespace Statement

variable {line : List Char} {statements : List Statement}

theorem isInclude_untagged (s : Statement) : s.untagged.isInclude = s.isInclude := by
  cases s <;> rfl

theorem forall_isInclude_untagged :
    (∀ s ∈ statements.map untagged, s.isInclude = false) ↔
      ∀ s ∈ statements, s.isInclude = false := by
  simp only [List.forall_mem_map, isInclude_untagged]

theorem untagged_eq_include {s : Statement} {path : String}
    (h : s.untagged = .includeFile none path) : ∃ tag, s = .includeFile tag path := by
  cases s <;> cases h
  exact ⟨_, rfl⟩

/-- A line whose text has an include directive has it among its tokens. -/
theorem directive_mem_of_cutInclude? {kinds : List TokenKind} {path : String} {cut : List Char}
    (h : Lexes line kinds []) (hcut : cutInclude? line = some (path, cut)) :
    .directive "include" ∈ kinds := by
  obtain ⟨before, word, blanks, file, after, rfl, hinclude, -, -⟩ := includeLine_of_cutInclude? hcut
  obtain ⟨front, back, rfl, hback⟩ := h.at_dot rfl hinclude.plain
  have hword := hback.directive hinclude.name (stops_of_blanks hinclude.spaces)
  rw [hinclude.lower] at hword
  exact List.mem_append_right _ hword

/-- A line is without an include directive, in its text and among its statements; or it has one,
behind a label at most, and without it the line says the label. -/
theorem Says.include_cases (hline : '\n' ∉ line) (h : Says line statements) :
    (cutInclude? line = none ∧ ∀ s ∈ statements, s.isInclude = false) ∨
      ∃ path cut front rest, cutInclude? line = some (path, cut) ∧
        statements = front ++ [.includeFile none path] ∧ (∀ s ∈ front, s.isInclude = false) ∧
        Says cut rest ∧ core rest = core front ∧ ∀ s ∈ rest, s.isInclude = false := by
  obtain ⟨kinds, hlexes, tokens, read, rfl, hderived, rfl⟩ := (says_line_iff hline).1 h
  cases hderived with
  | @line label body comment labels bodies comments hlabel hbody hcomment =>
      obtain ⟨hlabelTokens, hlabels⟩ := hlabel.include_free
      obtain ⟨hcommentTokens, hcomments, hcore⟩ := hcomment.include_free
      rcases hbody.include_cases with ⟨d, t, path, rfl, hd, ht, rfl⟩ | ⟨hbodyTokens, hbodies⟩
      · right
        have hparts : Lexes line (label.map Token.kind ++
            .directive "include" :: .string path :: comment.map Token.kind) [] := by
          simpa [hd, ht] using hlexes
        obtain ⟨before, word, blanks, file, after, rfl, hinclude, rfl, hcut⟩ :=
          Lexes.includeLine hlabel hparts
        -- the rest of the line is a label and a comment
        have hcutLine : '\n' ∉ before ++ after := by
          simp only [includeLine, List.mem_append, List.mem_cons, not_or] at hline ⊢
          tauto
        have hrest : Says (before ++ after)
            ((if labels.isEmpty then comments else labels).map untagged) := by
          rw [says_line_iff hcutLine]
          refine ⟨_, hcut, ?_⟩
          simpa using Denotes.of_isLine (.line hlabel .none hcomment)
        refine ⟨_, _, labels.map untagged, _, cutInclude?_includeLine hinclude, by simp [untagged],
          ?_, hrest, ?_, ?_⟩
        · exact forall_isInclude_untagged.2 hlabels
        · cases labels with
          | nil => exact (core_map_untagged comments).trans hcore
          | cons => rfl
        · cases labels with
          | nil => exact forall_isInclude_untagged.2 hcomments
          | cons => exact forall_isInclude_untagged.2 hlabels
      · left
        constructor
        · cases hcut : cutInclude? line with
          | none => rfl
          | some found =>
              -- then the directive is a token of one of the three parts
              obtain ⟨t, ht, hkind⟩ := List.mem_map.1 (directive_mem_of_cutInclude? hlexes hcut)
              rcases List.mem_append.1 ht with ht | ht
              · rcases List.mem_append.1 ht with ht | ht
                · exact (hlabelTokens t ht hkind).elim
                · exact (hbodyTokens t ht hkind).elim
              · exact (hcommentTokens t ht hkind).elim
        · split
          · exact forall_isInclude_untagged.2 hcomments
          · exact forall_isInclude_untagged.2 (List.forall_mem_append.2 ⟨hlabels, hbodies⟩)

end Statement

end Asm65
