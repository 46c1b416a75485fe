import Mathlib.Data.List.Chain
import Mathlib.Logic.Relation
import Asm65.Proofs.BareLines
import Asm65.Proofs.Outcomes
import Asm65.Proofs.Tiling

/-!
# The layout of a text

Spaces may be put in front of any token, comments may stand at the end of any line or not, and lines
without anything else may come and go.  `Relaid` is one such change.  The kinds of tokens in the
lines of a text, comments and empty lines left out, are its `skeleton`; no change of layout changes
it, and by `Line.allFrom_agree` everything that is read can be read off it.
-/

namespace Asm65

namespace Line

@[simp] theorem bare_nil : bare [] = [] :=
  rfl

@[simp] theorem bare_append (kinds more : List TokenKind) :
    bare (kinds ++ more) = bare kinds ++ bare more :=
  List.filter_append kinds more

@[simp] theorem bare_newline (kinds : List TokenKind) :
    bare (.newline :: kinds) = .newline :: bare kinds :=
  rfl

@[simp] theorem bare_comment (text : String) (kinds : List TokenKind) :
    bare (.comment text :: kinds) = bare kinds :=
  rfl

theorem bare_cons_congr {kinds others : List TokenKind} (kind : TokenKind)
    (h : bare others = bare kinds) : bare (kind :: others) = bare (kind :: kinds) := by
  rw [← List.singleton_append, bare_append, h, ← bare_append, List.singleton_append]

/-- The lines of tokens that matter: those left when comments and then empty lines are left out. -/
def skeleton (kinds : List TokenKind) : List (List TokenKind) :=
  ((bare kinds).splitOn .newline).filter fun line => !line.isEmpty

theorem skeleton_join (kinds more : List TokenKind) :
    skeleton (kinds ++ .newline :: more) = skeleton kinds ++ skeleton more := by
  rw [skeleton, bare_append, bare_newline, List.splitOn_append_cons_self, List.filter_append]
  rfl

end Line

open Line

namespace Token

section Layout

variable {c : Char} {text rest other front back tail : List Char} {kind : TokenKind}
  {kinds : List TokenKind} {lexeme : List Char}

/-! ## Where lexemes may end -/

/-- A line ends in front of a text. -/
def AtLineEnd (text : List Char) : Prop :=
  text = [] ∨ ∃ more, text = '\n' :: more

theorem Lexeme.atLineEnd (h : Lexeme rest kind lexeme) (hend : AtLineEnd other) :
    Lexeme other kind lexeme := by
  have halone : Lexeme [] kind lexeme := h.of_head? nofun
  rcases hend with rfl | ⟨more, rfl⟩
  · exact halone
  · exact halone.append_newline

/-- A space or a semicolon ends every lexeme but a comment. -/
theorem Lexeme.before_gap (h : Lexeme rest kind lexeme) (hnot : kind.isComment = false)
    (hc : isSpace c = true ∨ c = ';') : Lexeme (c :: tail) kind lexeme := by
  refine h.of_stops fun isIn hisIn _ => ?_
  have hsigns : isIn ' ' = false ∧ isIn '\t' = false ∧ isIn '\r' = false ∧ isIn ';' = false := by
    cases kind with
    | comment => cases hnot
    | identifier | directive =>
        obtain rfl := List.mem_singleton.1 hisIn
        decide
    | number =>
        simp only [continuing, List.mem_cons, List.not_mem_nil, or_false] at hisIn
        rcases hisIn with rfl | rfl | rfl | rfl <;> decide
    | _ => cases hisIn
  obtain ⟨hblank, htab, hreturn, hsemicolon⟩ := hsigns
  rw [stops_cons]
  simp only [isSpace, Bool.or_eq_true, beq_iff_eq] at hc
  rcases hc with ((rfl | rfl) | rfl) | rfl
  · exact hblank
  · exact htab
  · exact hreturn
  · exact hsemicolon

/-- A comment goes on to the end of the line. -/
theorem Lexeme.atLineEnd_of_isComment (h : Lexeme rest kind lexeme)
    (hkind : kind.isComment = true) : AtLineEnd rest := by
  cases h with
  | comment hbody hstop =>
      cases rest with
      | nil => exact Or.inl rfl
      | cons c rest =>
          rw [stops_cons, bne_eq_false_iff_eq] at hstop
          exact Or.inr ⟨rest, by rw [hstop]⟩
  | punctuation hmark =>
      obtain ⟨text, rfl⟩ := TokenKind.eq_comment_of_isComment hkind
      exact absurd (mem_of_punctuation? hmark) (by simp)
  | _ => cases hkind

/-! ## Idle text -/

/-- Text at the end of a line that says nothing: spaces, and a comment or none. -/
inductive Idle : List Char → Prop
  | nothing : Idle []
  | comment {body : List Char} (hbody : '\n' ∉ body) : Idle (';' :: body)
  | space {c : Char} {tail : List Char} (hspace : isSpace c = true) (htail : Idle tail) :
      Idle (c :: tail)

theorem Idle.of_spaces {gap : List Char} (h : ∀ c ∈ gap, isSpace c = true) : Idle gap := by
  induction gap with
  | nil => exact .nothing
  | cons c gap ih =>
      obtain ⟨hc, hgap⟩ := List.forall_mem_cons.1 h
      exact .space hc (ih hgap)

theorem Idle.newline_not_mem (h : Idle tail) : '\n' ∉ tail := by
  induction h with
  | nothing => exact List.not_mem_nil
  | comment hbody => simpa using hbody
  | space hspace _ ih =>
      rw [List.mem_cons, not_or]
      refine ⟨?_, ih⟩
      rintro rfl
      cases hspace

theorem Idle.head (h : Idle (c :: tail)) : isSpace c = true ∨ c = ';' := by
  cases h with
  | comment => exact Or.inr rfl
  | space hspace => exact Or.inl hspace

/-- A comment in front of the end of a line. -/
theorem Lexeme.of_semicolon {body : List Char} (hbody : '\n' ∉ body) (hend : AtLineEnd rest) :
    Lexeme rest (.comment (String.ofList (Text.strip body))) (';' :: body) := by
  refine .comment (fun c hc => ?_) ?_
  · rw [bne_iff_ne]
    rintro rfl
    exact hbody hc
  · rcases hend with rfl | ⟨more, rfl⟩
    · exact stops_nil _
    · rw [stops_cons]
      rfl

theorem Idle.lexes (h : Idle tail) : ∃ kinds, Lexes tail kinds [] ∧ Line.bare kinds = [] := by
  induction h with
  | nothing => exact ⟨[], .stop, rfl⟩
  | @comment body hbody =>
      have hlexes := Lexes.lexeme (Lexeme.of_semicolon hbody (Or.inl rfl)) .stop
      rw [List.append_nil] at hlexes
      exact ⟨_, hlexes, rfl⟩
  | space hspace _ ih =>
      obtain ⟨kinds, hlexes, hbare⟩ := ih
      exact ⟨kinds, .space hspace hlexes, hbare⟩

theorem Lexes.eq_nil (h : Lexes [] kinds rest) : kinds = [] := by
  generalize htext : ([] : List Char) = text at h
  cases h with
  | stop => rfl
  | space => cases htext
  | lexeme hlexeme =>
      obtain ⟨c, body, rfl, -⟩ := hlexeme.exists_cons
      cases htext

/-- Idle text behind a text adds at most a comment, or makes the last one longer. -/
theorem Lexes.append_idle (h : Lexes text kinds rest) (hrest : rest = []) (htail : Idle tail) :
    ∃ others, Lexes (text ++ tail) others [] ∧ Line.bare others = Line.bare kinds := by
  induction h with
  | stop =>
      subst hrest
      exact htail.lexes
  | space hspace _ ih =>
      obtain ⟨others, hothers, hbare⟩ := ih hrest
      exact ⟨others, .space hspace hothers, hbare⟩
  | @lexeme kind lexeme text rest kinds hlexeme hnext ih =>
      obtain ⟨others, hothers, hbare⟩ := ih hrest
      rw [List.append_assoc]
      cases text with
      | cons c text =>
          -- the next character stays what it is
          have hsame : Lexeme (c :: text ++ tail) kind lexeme := hlexeme.of_head? (by simp)
          exact ⟨kind :: others, .lexeme hsame hothers, bare_cons_congr kind hbare⟩
      | nil =>
          obtain rfl := hnext.eq_nil
          cases hcomment : kind.isComment with
          | false =>
              have hends : Lexeme ([] ++ tail) kind lexeme := by
                cases tail with
                | nil => exact hlexeme
                | cons c tail => exact hlexeme.before_gap hcomment htail.head
              exact ⟨kind :: others, .lexeme hends hothers, bare_cons_congr kind hbare⟩
          | true =>
              cases hlexeme with
              | @comment body hbody =>
                  have hlonger : '\n' ∉ body ++ tail := by
                    rw [List.mem_append, not_or]
                    exact ⟨fun hmem => by simpa using hbody _ hmem, htail.newline_not_mem⟩
                  have hlexes := Lexes.lexeme (Lexeme.of_semicolon hlonger (Or.inl rfl)) .stop
                  rw [List.append_nil] at hlexes
                  exact ⟨_, hlexes, rfl⟩
              | punctuation hmark =>
                  obtain ⟨text, rfl⟩ := TokenKind.eq_comment_of_isComment hcomment
                  exact absurd (mem_of_punctuation? hmark) (by simp)
              | _ => cases hcomment

/-! ## Changes at one place -/

/-- What is left of a text that is read to its end can be read to its end. -/
theorem Lexes.rest_of {before : List TokenKind} (h : Lexes text kinds [])
    (hbefore : Lexes text before rest) :
    ∃ after, Lexes rest after [] ∧ kinds = before ++ after := by
  obtain ⟨after, final, hafter, rfl | ⟨refusal, hstuck⟩⟩ := exists_lexes rest
  · exact ⟨after, hafter, h.unique (hbefore.trans hafter)⟩
  · exact (h.not_stuck (hbefore.trans hafter) hstuck).elim

/-- What stands behind some tokens can be replaced, if it ends the same lexemes. -/
theorem Lexes.replace (h : Lexes text kinds rest) (other : List Char) :
    ∃ front, text = front ++ rest ∧
      ((∀ kind lexeme, Lexeme rest kind lexeme → Lexeme other kind lexeme) →
        Lexes (front ++ other) kinds other) := by
  induction h with
  | stop => exact ⟨[], rfl, fun _ => .stop⟩
  | @space c text rest kinds hspace _ ih =>
      obtain ⟨front, rfl, hreplace⟩ := ih
      exact ⟨c :: front, rfl, fun hends => .space hspace (hreplace hends)⟩
  | @lexeme kind lexeme text rest kinds hlexeme _ ih =>
      obtain ⟨front, rfl, hreplace⟩ := ih
      refine ⟨lexeme ++ front, (List.append_assoc _ _ _).symm, fun hends => ?_⟩
      rw [List.append_assoc]
      exact .lexeme (hlexeme.replace hends) (hreplace hends)

/-- A text opened where one of its tokens starts. -/
theorem Lexes.open_at {unit : Int} {t : Token} (h : Lexes (front ++ back) kinds [])
    (ht : t ∈ (scan unit (front ++ back)).tokens) (hoffset : t.offset = front.length)
    (other : List Char) :
    ∃ before after, kinds = before ++ after ∧ Lexes back after [] ∧
      ((∀ kind lexeme, Lexeme back kind lexeme → Lexeme other kind lexeme) →
        Lexes (front ++ other) before other) := by
  obtain ⟨tokens, htiles⟩ := h.exists_tiles rfl unit .start
  rw [scan_eq_iff_tiles.2 htiles] at ht
  obtain ⟨earlier, later, rfl⟩ := List.append_of_mem ht
  obtain ⟨front', back', htext, hlexes, hplaced, -⟩ := htiles.split
  have hlength : front.length = front'.length := hoffset.symm.trans (offset_of_placed hplaced)
  obtain ⟨rfl, rfl⟩ := List.append_inj htext hlength
  obtain ⟨after, hafter, hkinds⟩ := h.rest_of hlexes
  obtain ⟨front', htext, hreplace⟩ := hlexes.replace other
  obtain rfl := List.append_cancel_right htext
  exact ⟨_, after, hkinds, hafter, hreplace⟩

/-- Idle text at the end of a line does not matter. -/
theorem Lexes.idle_at_line_end (h : Lexes (front ++ back) kinds []) (hend : AtLineEnd back)
    (htail : Idle tail) :
    ∃ others, Lexes (front ++ (tail ++ back)) others [] ∧ Line.bare others = Line.bare kinds := by
  rw [← List.append_assoc]
  rcases hend with rfl | ⟨more, rfl⟩
  · rw [List.append_nil] at h ⊢
    exact h.append_idle rfl htail
  · obtain ⟨before, behind, hfront, hmore, rfl⟩ := lexes_join_iff.1 h
    obtain ⟨others, hothers, hbare⟩ := hfront.append_idle rfl htail
    exact ⟨_, hothers.join hmore, by simp [hbare]⟩

/-- Spaces in front of a token do not matter. -/
theorem Lexes.spaces_at {unit : Int} {t : Token} {gap : List Char}
    (h : Lexes (front ++ back) kinds []) (ht : t ∈ (scan unit (front ++ back)).tokens)
    (hoffset : t.offset = front.length) (hgap : ∀ c ∈ gap, isSpace c = true) :
    ∃ others, Lexes (front ++ (gap ++ back)) others [] ∧ Line.bare others = Line.bare kinds := by
  by_cases hend : AtLineEnd back
  · exact h.idle_at_line_end hend (.of_spaces hgap)
  · obtain ⟨before, after, rfl, hafter, hreplace⟩ := h.open_at ht hoffset (gap ++ back)
    refine ⟨_, (hreplace fun kind lexeme hlexeme => ?_).trans (hafter.spaces hgap), rfl⟩
    cases gap with
    | nil => exact hlexeme
    | cons c gap =>
        -- a comment would go on to the end of the line
        have hnot : kind.isComment = false := by
          rw [← Bool.not_eq_true]
          exact fun hcomment => hend (hlexeme.atLineEnd_of_isComment hcomment)
        exact hlexeme.before_gap hnot (Or.inl (hgap c List.mem_cons_self))

/-- A comment does not matter. -/
theorem Lexes.without_comment {unit : Int} {t : Token} {body : List Char}
    (h : Lexes (front ++ (';' :: body ++ back)) kinds [])
    (ht : t ∈ (scan unit (front ++ (';' :: body ++ back))).tokens)
    (hoffset : t.offset = front.length) (hbody : '\n' ∉ body) (hend : AtLineEnd back) :
    ∃ others, Lexes (front ++ back) others [] ∧ Line.bare others = Line.bare kinds := by
  obtain ⟨before, after, rfl, hafter, hreplace⟩ := h.open_at ht hoffset back
  have hcomment : Lexes (';' :: body ++ back) [.comment (String.ofList (Text.strip body))] back :=
    .lexeme (.of_semicolon hbody hend) .stop
  obtain ⟨behind, hbehind, rfl⟩ := hafter.rest_of hcomment
  refine ⟨_, (hreplace fun kind lexeme hlexeme => hlexeme.atLineEnd hend).trans hbehind, ?_⟩
  simp

/-! ## Lines -/

/-- A text can be read as tokens, and these have a skeleton. -/
def HasSkeleton (text : List Char) (lines : List (List TokenKind)) : Prop :=
  ∃ kinds, Lexes text kinds [] ∧ skeleton kinds = lines

variable {lines : List (List TokenKind)}

theorem HasSkeleton.unique {others : List (List TokenKind)} (h : HasSkeleton text lines)
    (h' : HasSkeleton text others) : lines = others := by
  obtain ⟨kinds, hlexes, rfl⟩ := h
  obtain ⟨more, hmore, rfl⟩ := h'
  rw [hlexes.unique hmore]

theorem Idle.hasSkeleton (h : Idle tail) : HasSkeleton tail [] := by
  obtain ⟨kinds, hlexes, hbare⟩ := h.lexes
  refine ⟨kinds, hlexes, ?_⟩
  rw [skeleton, hbare]
  rfl

/-- The skeleton of a text, line by line. -/
theorem hasSkeleton_intercalate_cons {line : List Char} {texts : List (List Char)} :
    HasSkeleton (['\n'].intercalate (line :: texts)) lines ↔
      ∃ first rest, HasSkeleton line first ∧ HasSkeleton (['\n'].intercalate texts) rest ∧
        lines = first ++ rest := by
  cases texts with
  | nil =>
      rw [List.intercalate_singleton, List.intercalate_nil]
      constructor
      · intro h
        exact ⟨lines, [], h, Idle.nothing.hasSkeleton, (List.append_nil _).symm⟩
      · rintro ⟨first, rest, hfirst, hrest, rfl⟩
        rw [hrest.unique Idle.nothing.hasSkeleton, List.append_nil]
        exact hfirst
  | cons next texts =>
      rw [List.intercalate_cons_cons, List.append_assoc, List.singleton_append]
      constructor
      · rintro ⟨kinds, hlexes, rfl⟩
        obtain ⟨before, behind, hline, hrest, rfl⟩ := lexes_join_iff.1 hlexes
        exact ⟨_, _, ⟨before, hline, rfl⟩, ⟨behind, hrest, rfl⟩, skeleton_join before behind⟩
      · rintro ⟨_, _, ⟨before, hline, rfl⟩, ⟨behind, hrest, rfl⟩, rfl⟩
        exact ⟨_, hline.join hrest, skeleton_join before behind⟩

/-- A line that says nothing does not matter. -/
theorem hasSkeleton_insert_line {line : List Char} (hline : Idle line)
    (before after : List (List Char)) :
    HasSkeleton (['\n'].intercalate (before ++ line :: after)) lines ↔
      HasSkeleton (['\n'].intercalate (before ++ after)) lines := by
  induction before generalizing lines with
  | nil =>
      rw [List.nil_append, List.nil_append, hasSkeleton_intercalate_cons]
      constructor
      · rintro ⟨first, rest, hfirst, hrest, rfl⟩
        rw [hfirst.unique hline.hasSkeleton]
        exact hrest
      · intro h
        exact ⟨[], lines, hline.hasSkeleton, h, rfl⟩
  | cons first before ih =>
      simp only [List.cons_append, hasSkeleton_intercalate_cons, ih]

/-! ## Changes of layout -/

/-- One change of layout: spaces in front of a token, which may be a newline or the end of the text,
text that says nothing at the end of a line, a comment that is taken away, or a line that says
nothing, added or taken away. -/
inductive Relaid (unit : Int) : List Char → List Char → Prop
  | space {front gap back : List Char} {t : Token}
      (ht : t ∈ (scan unit (front ++ back)).tokens) (hoffset : t.offset = front.length)
      (hgap : ∀ c ∈ gap, isSpace c = true) : Relaid unit (front ++ back) (front ++ (gap ++ back))
  | comment {front tail back : List Char} (hend : AtLineEnd back) (htail : Idle tail) :
      Relaid unit (front ++ back) (front ++ (tail ++ back))
  | uncomment {front body back : List Char} {t : Token}
      (ht : t ∈ (scan unit (front ++ (';' :: body ++ back))).tokens)
      (hoffset : t.offset = front.length) (hbody : '\n' ∉ body) (hend : AtLineEnd back) :
      Relaid unit (front ++ (';' :: body ++ back)) (front ++ back)
  | line {before after : List (List Char)} {line : List Char} (hline : Idle line) :
      Relaid unit (['\n'].intercalate (before ++ after))
        (['\n'].intercalate (before ++ line :: after))
  | unline {before after : List (List Char)} {line : List Char} (hline : Idle line) :
      Relaid unit (['\n'].intercalate (before ++ line :: after))
        (['\n'].intercalate (before ++ after))

/-- No change of layout changes the skeleton. -/
theorem Relaid.hasSkeleton {unit : Int} (h : Relaid unit text other)
    (htext : HasSkeleton text lines) : HasSkeleton other lines := by
  have hbare {relaid : List Char} {kinds : List TokenKind}
      (hrelaid : ∃ others, Lexes relaid others [] ∧ Line.bare others = Line.bare kinds)
      (hlines : skeleton kinds = lines) : HasSkeleton relaid lines := by
    obtain ⟨others, hothers, hbare⟩ := hrelaid
    refine ⟨others, hothers, ?_⟩
    rw [← hlines, skeleton, skeleton, hbare]
  cases h with
  | space ht hoffset hgap =>
      obtain ⟨kinds, hlexes, hlines⟩ := htext
      exact hbare (hlexes.spaces_at ht hoffset hgap) hlines
  | comment hend htail =>
      obtain ⟨kinds, hlexes, hlines⟩ := htext
      exact hbare (hlexes.idle_at_line_end hend htail) hlines
  | uncomment ht hoffset hbody hend =>
      obtain ⟨kinds, hlexes, hlines⟩ := htext
      exact hbare (hlexes.without_comment ht hoffset hbody hend) hlines
  | line hline => exact (hasSkeleton_insert_line hline _ _).2 htext
  | unline hline => exact (hasSkeleton_insert_line hline _ _).1 htext

theorem hasSkeleton_of_relaid {unit : Int} (h : Relation.ReflTransGen (Relaid unit) text other)
    (htext : HasSkeleton text lines) : HasSkeleton other lines := by
  induction h with
  | refl => exact htext
  | tail _ hstep ih => exact hstep.hasSkeleton ih

/-! ## Comments end lines -/

theorem Lexes.isChain_comment (h : Lexes text kinds rest) (hrest : rest = []) :
    kinds.IsChain fun kind next => kind.isComment = true → next = .newline := by
  induction h with
  | stop => exact .nil
  | space _ _ ih => exact ih hrest
  | @lexeme kind lexeme text rest kinds hlexeme hnext ih =>
      cases kinds with
      | nil => exact .singleton kind
      | cons next kinds =>
          refine List.isChain_cons_cons.2 ⟨fun hcomment => ?_, ih hrest⟩
          subst hrest
          rcases hlexeme.atLineEnd_of_isComment hcomment with rfl | ⟨more, rfl⟩
          · cases hnext.eq_nil
          · have hjoin : Lexes ([] ++ '\n' :: more) (next :: kinds) [] := hnext
            obtain ⟨before, behind, hempty, -, hkinds⟩ := lexes_join_iff.1 hjoin
            rw [hempty.eq_nil] at hkinds
            exact (List.cons.inj hkinds).1

/-- In each line of a text a comment is the last token. -/
theorem Lexes.isChain_lines (h : Lexes text kinds []) :
    ∀ line ∈ kinds.splitOn .newline, line.IsChain fun kind _ => kind.isComment = false := by
  intro line hline
  have hinfix : line <:+: kinds := by
    obtain ⟨first, others, hsplit⟩ :=
      List.exists_cons_of_ne_nil (List.splitOn_ne_nil TokenKind.newline kinds)
    obtain ⟨hfirst, hothers⟩ := infix_of_splitOnP hsplit
    rw [hsplit] at hline
    rcases List.mem_cons.1 hline with rfl | hline
    · exact hfirst.isInfix
    · exact hothers line hline
  have hchain := List.IsChain.infix (h.isChain_comment rfl) hinfix
  refine hchain.imp_of_mem_imp fun kind next _ hnext hends => ?_
  have hmem : next ∈ (kinds.splitOn .newline).flatten := List.mem_flatten.2 ⟨line, hline, hnext⟩
  rw [List.splitOn, flatten_splitOnP, List.mem_filter] at hmem
  rw [← Bool.not_eq_true]
  intro hcomment
  rw [hends hcomment] at hmem
  cases hmem.2

end Layout

end Token

/-! ## What a skeleton says -/

theorem Agree.untag_eq {α β : Type} {view : α → β} {first other : Except Error α}
    (h : Agree Error.Alike (fun a b => view b = view a) first other) :
    untag view other = untag view first := by
  cases h with
  | ok h => exact congrArg Except.ok h
  | error h => exact congrArg Except.error h

/-- What a text is read as can be read off its skeleton. -/
theorem Statement.parse_of_skeleton {text : List Char} {lines : List (List TokenKind)}
    (h : Token.HasSkeleton text lines) (unit : Int) :
    untag core (parse unit text) = untag core (Line.all (lines.map ofKinds)) := by
  obtain ⟨kinds, hlexes, rfl⟩ := h
  obtain ⟨hnone, hkinds⟩ := hlexes.scan_eq unit
  have hscan : Token.scan unit text = ⟨(Token.scan unit text).tokens, none⟩ := by
    rw [← hnone]
  generalize (Token.scan unit text).tokens = tokens at hscan hkinds
  obtain ⟨body, stop, rfl, hbody, hstop⟩ := Token.scan_tokens hscan
  have hlines : (Line.split (body ++ [stop])).map (fun line => line.tokens.map Token.kind) =
      kinds.splitOn .newline := by
    have htokens := @map_tokens_splitFrom [] body stop (List.forall_mem_nil _) hbody hstop
    rw [← Token.map_kind_lines hkinds hlexes.ne_eof, Token.lines_concat hbody hstop]
    exact (List.map_map ..).symm.trans (congrArg (List.map (List.map Token.kind)) htokens)
  have hbare : ((Line.split (body ++ [stop])).map fun line => bare (line.tokens.map Token.kind)) =
      (bare kinds).splitOn .newline := by
    rw [List.splitOn, bare, splitOnP_filter (by rintro kind hkind; rw [beq_iff_eq.1 hkind]; rfl),
      ← List.splitOn, ← hlines, List.map_map]
    rfl
  have hagree := @allFrom_agree (Line.split (body ++ [stop])) [] [] Line.proper_of_mem_split
    (fun line hline => ?_) rfl
  · rw [hbare] at hagree
    simp only [parse, hscan, ofTokens_eq_all_split hbody hstop]
    exact hagree.untag_eq.symm
  · exact hlexes.isChain_lines _ (hlines ▸ List.mem_map_of_mem hline)

namespace Output

/-- What a text is assembled to. -/
def ofText (unit : Int) (text : List Char) : Except Error Output :=
  Statement.parse unit text >>= ofStatements

/-- An output without places and without statements that do not count. -/
def untagged (output : Output) : Output :=
  { output with
    statements := Statement.core output.statements,
    program := output.program.map Block.untagged }

/-- Only the statements that count are assembled. -/
theorem ofStatements_core (statements : List Statement) :
    ofStatements (Statement.core statements) = untag untagged (ofStatements statements) := by
  unfold ofStatements
  rw [Program.ofStatements_core]
  refine untag_bind fun program => ?_
  obtain ⟨hprogram, hlabels⟩ := Program.layout_untagged program
  simp only [hprogram, hlabels]
  cases hlayout : (Program.layout program).labels with
  | error e => rfl
  | ok labels =>
      -- only what is resolved is encoded in the same way without places
      simp only [untag, id, bind, Except.bind,
        Program.image_untagged (Program.layout_resolved hlayout)]
      cases Program.image (Program.layout program).program <;> rfl

/-- What a text is assembled to, without places, can be read off its statements without places. -/
theorem ofText_untagged (unit : Int) (text : List Char) :
    untag untagged (ofText unit text) =
      untag Statement.core (Statement.parse unit text) >>= ofStatements :=
  (untag_bind ofStatements_core).symm

/-- Outputs that agree apart from places: the code, the labels, the blocks, and the addresses of the
instructions are the same. -/
structure Alike (output other : Output) : Prop where
  code_eq : other.code = output.code
  labels_eq : other.labels = output.labels
  blocks_eq : other.program.map Block.untagged = output.program.map Block.untagged
  addresses_eq : other.mapEntries.map MapEntry.address = output.mapEntries.map MapEntry.address

theorem addresses_untagged (program : Program) :
    (Program.mapEntries (program.map Block.untagged)).map MapEntry.address =
      (Program.mapEntries program).map MapEntry.address := by
  have hentry (c : Chunk) : (Chunk.mapEntry? c.untagged).map MapEntry.address =
      (Chunk.mapEntry? c).map MapEntry.address := by
    cases c <;> rfl
  have hchunks : Program.chunks (program.map Block.untagged) =
      (Program.chunks program).map Chunk.untagged := by
    simp only [Program.chunks, List.flatMap_map, List.map_flatMap, Block.untagged]
  simp only [Program.mapEntries, hchunks, List.filterMap_map, List.map_filterMap,
    Function.comp_def, hentry]

theorem alike_of_untagged {output other : Output} (h : other.untagged = output.untagged) :
    Alike output other := by
  have hcode : other.untagged.code = output.untagged.code := by rw [h]
  have hlabels : other.untagged.labels = output.untagged.labels := by rw [h]
  have hblocks : other.program.map Block.untagged = output.program.map Block.untagged := by
    show other.untagged.program = output.untagged.program
    rw [h]
  refine ⟨hcode, hlabels, hblocks, ?_⟩
  rw [mapEntries, mapEntries, ← addresses_untagged, hblocks, addresses_untagged]

theorem agree_of_untag {first other : Except Error Output}
    (h : untag untagged other = untag untagged first) : Agree Error.Alike Alike first other := by
  cases first with
  | ok output =>
      cases other with
      | ok output' => exact .ok (alike_of_untagged (Except.ok.inj h))
      | error e => cases h
  | error e =>
      cases other with
      | ok output => cases h
      | error e' => exact .error (Except.error.inj h)

end Output

/-- Carriage returns in front of newlines. -/
def withReturns (text : List Char) : List Char :=
  text.flatMap fun c => if c = '\n' then ['\r', '\n'] else [c]

theorem relaid_withReturns (unit : Int) (front text : List Char) :
    Relation.ReflTransGen (Token.Relaid unit) (front ++ text) (front ++ withReturns text) := by
  induction text generalizing front with
  | nil => exact .refl
  | cons c text ih =>
      by_cases hc : c = '\n'
      · subst hc
        have hstep :
            Token.Relaid unit (front ++ '\n' :: text) (front ++ (['\r'] ++ '\n' :: text)) :=
          .comment (Or.inr ⟨text, rfl⟩) (.space rfl .nothing)
        have hrest := ih (front ++ ['\r', '\n'])
        rw [List.append_assoc, List.append_assoc] at hrest
        exact .head hstep hrest
      · have hrest := ih (front ++ [c])
        rw [List.append_assoc, List.append_assoc] at hrest
        have hkeep : withReturns (c :: text) = [c] ++ withReturns text := by
          simp [withReturns, hc]
        rw [hkeep]
        exact hrest

/-- The layout of a text does not matter.  Spaces may be put in front of tokens, newlines and the
end of the text, comments may come and go at the ends of lines, and lines without anything else may
come and go, any number of times: such a text is assembled to the same code, labels, blocks and
addresses, or it fails for the same reason.  So do texts with carriage returns at the ends of
lines. -/
theorem layout_of_text_does_not_matter {unit : Int} {text : List Char}
    (htext : (Token.scan unit text).error = none) :
    (∀ other, Relation.ReflTransGen (Token.Relaid unit) text other →
      (Token.scan unit other).error = none ∧
        Agree Error.Alike Output.Alike (Output.ofText unit text) (Output.ofText unit other)) ∧
      Agree Error.Alike Output.Alike (Output.ofText unit text)
        (Output.ofText unit (withReturns text)) := by
  obtain ⟨kinds, hlexes⟩ := (Token.scan_error_eq_none_iff unit text).1 htext
  have hskeleton : Token.HasSkeleton text (skeleton kinds) := ⟨kinds, hlexes, rfl⟩
  have hsame {other : List Char} (h : Relation.ReflTransGen (Token.Relaid unit) text other) :
      (Token.scan unit other).error = none ∧
        Agree Error.Alike Output.Alike (Output.ofText unit text) (Output.ofText unit other) := by
    have hother := Token.hasSkeleton_of_relaid h hskeleton
    constructor
    · obtain ⟨others, hothers, -⟩ := hother
      exact (hothers.scan_eq unit).1
    · apply Output.agree_of_untag
      rw [Output.ofText_untagged, Output.ofText_untagged, Statement.parse_of_skeleton hother,
        Statement.parse_of_skeleton hskeleton]
  exact ⟨fun other h => hsame h, (hsame (relaid_withReturns unit [] text)).2⟩

/-- A space, a comment and a line more or less. -/
theorem relaid_text_same :
    Relation.ReflTransGen (Token.Relaid 0) "lda #1;x\nrts".toList "lda # 1\n\t;y\nrts".toList ∧
      (∃ output, Output.ofText 0 "lda #1;x\nrts".toList = .ok output ∧
        output.code = [0xA9, 1, 0x60]) ∧
      Agree Error.Alike Output.Alike (Output.ofText 0 "lda #1;x\nrts".toList)
        (Output.ofText 0 "lda # 1\n\t;y\nrts".toList) ∧
      Agree Error.Alike Output.Alike (Output.ofText 0 "lda #1;x\nrts".toList)
        (Output.ofText 0 "lda #1;x\r\nrts".toList) := by
  have hspace : Token.Relaid 0 "lda #1;x\nrts".toList "lda # 1;x\nrts".toList :=
    @Token.Relaid.space 0 "lda #".toList [' '] "1;x\nrts".toList ⟨.number ⟨.byte, 1⟩, 0, 5, 1, 6⟩
      (by decide +kernel) rfl (List.forall_mem_singleton.2 rfl)
  have hcomment : Token.Relaid 0 "lda # 1;x\nrts".toList "lda # 1\nrts".toList :=
    @Token.Relaid.uncomment 0 "lda # 1".toList ['x'] "\nrts".toList ⟨.comment "x", 0, 7, 1, 8⟩
      (by decide +kernel) rfl (by decide) (Or.inr ⟨"rts".toList, rfl⟩)
  have hline : Token.Relaid 0 "lda # 1\nrts".toList "lda # 1\n\t;y\nrts".toList :=
    @Token.Relaid.line 0 ["lda # 1".toList] ["rts".toList] "\t;y".toList
      (.space rfl (.comment (by decide)))
  have hrelaid := ((Relation.ReflTransGen.single hspace).tail hcomment).tail hline
  obtain ⟨hlayout, hreturns⟩ := @layout_of_text_does_not_matter 0 "lda #1;x\nrts".toList rfl
  have hcode : (Output.ofText 0 "lda #1;x\nrts".toList).toOption.map Output.code =
      some [0xA9, 1, 0x60] := by
    decide +kernel
  obtain ⟨output, houtput, hcode⟩ := Option.map_eq_some_iff.1 hcode
  refine ⟨hrelaid, ⟨output, ?_, hcode⟩, (hlayout _ hrelaid).2, hreturns⟩
  cases hresult : Output.ofText 0 "lda #1;x\nrts".toList with
  | ok result => rw [hresult] at houtput; exact congrArg Except.ok (Option.some.inj houtput)
  | error e => rw [hresult] at houtput; cases houtput

end Asm65
