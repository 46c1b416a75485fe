import Asm65.Proofs.Derivations

/-!
# Tokens tile their text

The tokens of a text stand in it one behind the other, each at the place where its lexeme starts,
with nothing but spaces between them.  `Tiles` says this with the places, as `Lexes` does without
them; `scan_eq_iff_tiles` says that the scan finds exactly such tokens, and `Tiles.split` opens a
text at any of them.  No lexeme is read otherwise when it stands alone, so no character belongs to
two tokens or to none.
-/

namespace Asm65

namespace Token

/-- The tokens of a text that is read from a position on: lexemes, with spaces in front of them, up
to the end of the text. -/
inductive Tiles (unit : Int) : Cursor → List Char → List Token → Prop
  | stop {position : Cursor} : Tiles unit position [] [placed unit position .eof]
  | space {position : Cursor} {c : Char} {text : List Char} {tokens : List Token}
      (hspace : isSpace c = true) (hnext : Tiles unit (position.advance c) text tokens) :
      Tiles unit position (c :: text) tokens
  | lexeme {position : Cursor} {kind : TokenKind} {lexeme text : List Char} {tokens : List Token}
      (hlexeme : Lexeme text kind lexeme)
      (hnext : Tiles unit (lexeme.foldl Cursor.advance position) text tokens) :
      Tiles unit position (lexeme ++ text) (placed unit position kind :: tokens)

section Tiles

variable {unit : Int} {position : Cursor} {text rest : List Char} {tokens before after : List Token}
  {t : Token} {kind : TokenKind} {kinds : List TokenKind} {lexeme : List Char}

/-! ## Where lexemes end -/

theorem Stops.of_head? {isIn : Char → Bool} {other : List Char} (h : Stops isIn rest)
    (hhead : ∀ c ∈ other.head?, c ∈ rest.head?) : Stops isIn other :=
  fun c hc => h c (hhead c hc)

/-- The classes of characters with which a lexeme of a kind may go on. -/
def continuing : TokenKind → List (Char → Bool)
  | .comment _ => [(· != '\n')]
  | .identifier _ | .directive _ => [isNameChar]
  | .number _ => [Text.isHexDigit, Text.isBinaryDigit, Text.isDigit, isNameStart]
  | _ => []

/-- A lexeme may stand in front of any text that does not go on with it. -/
theorem Lexeme.of_stops {other : List Char} (h : Lexeme rest kind lexeme)
    (hstops : ∀ isIn ∈ continuing kind, Stops isIn rest → Stops isIn other) :
    Lexeme other kind lexeme := by
  cases h with
  | newline => exact .newline
  | comment hbody hstop => exact .comment hbody (hstops _ (by simp [continuing]) hstop)
  | identifier hname hstop => exact .identifier hname (hstops _ (by simp [continuing]) hstop)
  | directive hname hstop => exact .directive hname (hstops _ (by simp [continuing]) hstop)
  | hexadecimal hne hdigits hstop =>
      exact .hexadecimal hne hdigits (hstops _ (by simp [continuing]) hstop)
  | binary hne hdigits hstop => exact .binary hne hdigits (hstops _ (by simp [continuing]) hstop)
  | decimal hnumeral hdecimal =>
      exact .decimal ⟨hnumeral.ne_nil, hnumeral.digits,
        hstops _ (by simp [continuing]) hnumeral.stops,
        hstops _ (by simp [continuing]) hnumeral.noName⟩ hdecimal
  | string htext => exact .string htext
  | punctuation hkind => exact .punctuation hkind

/-- Only the next character tells where a lexeme ends, and the end of a text ends them all. -/
theorem Lexeme.of_head? {other : List Char} (h : Lexeme rest kind lexeme)
    (hhead : ∀ c ∈ other.head?, c ∈ rest.head?) : Lexeme other kind lexeme :=
  h.of_stops fun _ _ hstop => hstop.of_head? hhead

/-- What stands further behind a lexeme can be replaced, if it ends the same lexemes. -/
theorem Lexeme.replace {front other : List Char} (h : Lexeme (front ++ rest) kind lexeme)
    (hends : ∀ kind lexeme, Lexeme rest kind lexeme → Lexeme other kind lexeme) :
    Lexeme (front ++ other) kind lexeme := by
  cases front with
  | nil => exact hends kind lexeme h
  | cons c front => exact h.of_head? (by simp)

/-! ## The scan -/

theorem Lexes.exists_tiles (h : Lexes text kinds rest) (hrest : rest = []) (unit : Int)
    (position : Cursor) : ∃ tokens, Tiles unit position text tokens := by
  induction h generalizing position with
  | stop =>
      subst hrest
      exact ⟨_, .stop⟩
  | space hspace _ ih =>
      obtain ⟨tokens, htokens⟩ := ih hrest (position.advance _)
      exact ⟨tokens, .space hspace htokens⟩
  | lexeme hlexeme _ ih =>
      obtain ⟨tokens, htokens⟩ := ih hrest _
      exact ⟨_, .lexeme hlexeme htokens⟩

theorem Tiles.scanFrom_eq (h : Tiles unit position text tokens) (found : List Token) :
    scanFrom unit position 0 found text = ⟨found.reverse ++ tokens, none⟩ := by
  induction h generalizing found with
  | stop => simp only [scanFrom, List.reverse_cons]
  | space hspace _ ih =>
      simp only [scanFrom, hspace, if_true]
      exact ih found
  | lexeme hlexeme _ ih =>
      rw [scanFrom_lexeme hlexeme, ih, List.reverse_cons, List.append_assoc, List.singleton_append]

/-- The scan gets through a text exactly if tokens tile it, and these are what it finds. -/
theorem scan_eq_iff_tiles :
    scan unit text = ⟨tokens, none⟩ ↔ Tiles unit .start text tokens := by
  constructor
  · intro h
    obtain ⟨kinds, hlexes⟩ := (scan_error_eq_none_iff unit text).1 (by rw [h])
    obtain ⟨found, hfound⟩ := hlexes.exists_tiles rfl unit .start
    have hscan := hfound.scanFrom_eq []
    rw [← scan, h, List.reverse_nil, List.nil_append] at hscan
    cases hscan
    exact hfound
  · intro h
    rw [scan, h.scanFrom_eq, List.reverse_nil, List.nil_append]

/-! ## Places -/

theorem Tiles.le_offset (h : Tiles unit position text tokens) :
    ∀ t ∈ tokens, position.offset ≤ t.offset := by
  induction h with
  | stop => simp [placed]
  | space _ _ ih =>
      intro t ht
      have hle := ih t ht
      rw [advance_offset] at hle
      omega
  | lexeme _ _ ih =>
      refine List.forall_mem_cons.2 ⟨Nat.le_refl _, fun t ht => ?_⟩
      have hle := ih t ht
      rw [offset_foldl_advance] at hle
      omega

/-- Each token stands behind those before it. -/
theorem Tiles.pairwise_offset (h : Tiles unit position text tokens) :
    tokens.Pairwise fun t u => t.offset < u.offset := by
  induction h with
  | stop => exact List.pairwise_singleton _ _
  | space _ _ ih => exact ih
  | @lexeme position kind lexeme text tokens hlexeme hnext ih =>
      refine List.Pairwise.cons (fun t ht => ?_) ih
      -- a lexeme has at least one character
      obtain ⟨c, body, rfl, -⟩ := hlexeme.exists_cons
      have hle := hnext.le_offset t ht
      rw [offset_foldl_advance, List.length_cons] at hle
      show position.offset < t.offset
      omega

/-- What stands at a token: its lexeme and then the tokens behind it, or the end of the text. -/
inductive Tiles.At (unit : Int) (position : Cursor) (after : List Token) (t : Token) :
    List Char → Prop
  | stop (hkind : t.kind = .eof) (hafter : after = []) : At unit position after t []
  | lexeme {lexeme text : List Char} (hlexeme : Lexeme text t.kind lexeme)
      (hnext : Tiles unit (lexeme.foldl Cursor.advance position) text after) :
      At unit position after t (lexeme ++ text)

/-- A text opened at one of its tokens.  What stands there can be replaced, if it ends the same
lexemes. -/
theorem Tiles.split (h : Tiles unit position text (before ++ t :: after)) :
    ∃ front back, text = front ++ back ∧ Lexes text (before.map Token.kind) back ∧
      t = placed unit (front.foldl Cursor.advance position) t.kind ∧
      At unit (front.foldl Cursor.advance position) after t back ∧
      ∀ other tokens, (∀ kind lexeme, Lexeme back kind lexeme → Lexeme other kind lexeme) →
        Tiles unit (front.foldl Cursor.advance position) other tokens →
        Tiles unit position (front ++ other) (before ++ tokens) := by
  generalize htokens : before ++ t :: after = tokens at h
  induction h generalizing before with
  | stop =>
      obtain ⟨rfl, htokens⟩ | ⟨_, rfl, hempty⟩ := List.append_eq_cons_iff.1 htokens
      · cases htokens
        exact ⟨[], [], rfl, .stop, rfl, .stop rfl rfl, fun _ _ _ hother => hother⟩
      · simp at hempty
  | @space position c text tokens hspace _ ih =>
      obtain ⟨front, back, rfl, hlexes, hplaced, hat, hreplace⟩ := ih htokens
      exact ⟨c :: front, back, rfl, .space hspace hlexes, hplaced, hat,
        fun other tokens hends hother => .space hspace (hreplace other tokens hends hother)⟩
  | @lexeme position kind lexeme text tokens hlexeme hnext ih =>
      cases before with
      | nil =>
          obtain ⟨rfl, rfl⟩ := List.cons.inj htokens
          exact ⟨[], lexeme ++ text, rfl, .stop, rfl, .lexeme hlexeme hnext,
            fun _ _ _ hother => hother⟩
      | cons first before =>
          obtain ⟨rfl, hrest⟩ := List.cons.inj htokens
          obtain ⟨front, back, rfl, hlexes, hplaced, hat, hreplace⟩ := ih hrest
          rw [← List.foldl_append] at hplaced hat hreplace
          refine ⟨lexeme ++ front, back, (List.append_assoc _ _ _).symm, .lexeme hlexeme hlexes,
            hplaced, hat, fun other tokens hends hother => ?_⟩
          rw [List.append_assoc]
          exact .lexeme (hlexeme.replace hends) (hreplace other tokens hends hother)

theorem offset_of_placed {front : List Char} {kind : TokenKind}
    (h : t = placed unit (front.foldl Cursor.advance .start) kind) : t.offset = front.length := by
  rw [h]
  exact (offset_foldl_advance _ _).trans (Nat.zero_add _)

/-- In front of the first token there are only spaces. -/
theorem Lexes.eq_append_of_nil (h : Lexes text [] rest) :
    ∃ gap, text = gap ++ rest ∧ ∀ c ∈ gap, isSpace c = true := by
  generalize hkinds : ([] : List TokenKind) = kinds at h
  induction h with
  | stop => exact ⟨[], rfl, List.forall_mem_nil _⟩
  | space hspace _ ih =>
      obtain ⟨gap, rfl, hgap⟩ := ih hkinds
      exact ⟨_ :: gap, rfl, List.forall_mem_cons.2 ⟨hspace, hgap⟩⟩
  | lexeme => cases hkinds

theorem Tiles.eq_append (h : Tiles unit position text (t :: after)) :
    ∃ gap back, text = gap ++ back ∧ (∀ c ∈ gap, isSpace c = true) ∧
      t.offset = position.offset + gap.length := by
  obtain ⟨front, back, rfl, hlexes, hplaced, -⟩ := @Tiles.split unit position text [] after t h
  obtain ⟨gap, hgap, hspaces⟩ := hlexes.eq_append_of_nil
  obtain rfl := List.append_cancel_right hgap
  refine ⟨front, back, rfl, hspaces, ?_⟩
  rw [hplaced]
  exact offset_foldl_advance position front

/-! ## Lexemes by themselves -/

/-- A lexeme by itself is one token. -/
theorem Lexeme.scan_alone (h : Lexeme rest kind lexeme) (unit : Int) :
    scan unit lexeme =
      ⟨[placed unit .start kind, placed unit (lexeme.foldl Cursor.advance .start) .eof], none⟩ := by
  have halone : Lexeme [] kind lexeme := h.of_head? nofun
  have htiles : Tiles unit .start (lexeme ++ []) _ := .lexeme halone .stop
  rw [List.append_nil] at htiles
  exact scan_eq_iff_tiles.2 htiles

end Tiles

end Token

open Token

/-- The tokens of a text tile it.  Their offsets increase; the last one, and only this one, marks
the end of the text and stands there; in front of the first one there are only spaces; and every
other token has a lexeme that starts at its offset, with only spaces between the lexeme and the next
token.  The lexeme by itself gives the same token again, and no other. -/
theorem tokens_tile_text {unit : Int} {text : List Char} {tokens : List Token}
    (hscan : Token.scan unit text = ⟨tokens, none⟩) :
    (tokens.Pairwise fun t u => t.offset < u.offset) ∧
    (∃ body stop, tokens = body ++ [stop] ∧ (∀ t ∈ body, t.kind ≠ .eof) ∧ stop.kind = .eof ∧
      stop.offset = text.length) ∧
    (∀ first rest, tokens = first :: rest → ∀ c ∈ text.take first.offset, isSpace c = true) ∧
    ∀ before t next after, tokens = before ++ t :: next :: after →
      ∃ lexeme gap, text.drop t.offset = lexeme ++ gap ++ text.drop next.offset ∧
        next.offset = t.offset + lexeme.length + gap.length ∧
        lexeme ≠ [] ∧ (∀ c ∈ gap, isSpace c = true) ∧
        Lexeme (gap ++ text.drop next.offset) t.kind lexeme ∧
        ∀ other, Token.scan other lexeme =
          ⟨[placed other .start t.kind,
            placed other (lexeme.foldl Cursor.advance .start) .eof], none⟩ := by
  have htiles := scan_eq_iff_tiles.1 hscan
  refine ⟨htiles.pairwise_offset, ?_, ?_, ?_⟩
  · obtain ⟨body, stop, rfl, hbody, hstop⟩ := scan_tokens hscan
    refine ⟨body, stop, rfl, hbody, hstop, ?_⟩
    obtain ⟨front, back, rfl, -, hplaced, hat, -⟩ := htiles.split
    cases hat with
    | stop =>
        rw [List.append_nil]
        exact offset_of_placed hplaced
    | lexeme hlexeme => exact (hlexeme.ne_eof hstop).elim
  · rintro first rest rfl
    obtain ⟨gap, back, rfl, hgap, hoffset⟩ := htiles.eq_append
    rw [hoffset, Cursor.start, Nat.zero_add, List.take_left]
    exact hgap
  · rintro before t next after rfl
    obtain ⟨front, back, rfl, -, hplaced, hat, -⟩ := htiles.split
    have hoffset : t.offset = front.length := offset_of_placed hplaced
    cases hat with
    | stop _ hafter => cases hafter
    | @lexeme lexeme rest hlexeme hnext =>
        obtain ⟨gap, behind, rfl, hgap, hnextOffset⟩ := hnext.eq_append
        have hnextPlace : next.offset = t.offset + lexeme.length + gap.length := by
          rw [hnextOffset, offset_foldl_advance, hplaced]
          rfl
        have hbehind : (front ++ (lexeme ++ (gap ++ behind))).drop next.offset = behind := by
          rw [hnextPlace, hoffset, ← List.append_assoc, ← List.append_assoc]
          exact List.drop_left' (by simp only [List.length_append])
        refine ⟨lexeme, gap, ?_, hnextPlace, ?_, hgap, ?_, hlexeme.scan_alone⟩
        · rw [hbehind, hoffset, List.drop_left, List.append_assoc]
        · obtain ⟨c, body, rfl, -⟩ := hlexeme.exists_cons
          exact List.cons_ne_nil c body
        · rwa [hbehind]

/-- Lexemes without a space between them. -/
theorem adjacent_lexemes_tile :
    ∃ tokens, Token.scan 0 "a:lda#$10;x".toList = ⟨tokens, none⟩ ∧
      tokens.map Token.offset = [0, 1, 2, 5, 6, 9, 11] ∧
      (tokens.Pairwise fun t u => t.offset < u.offset) ∧
      ∃ lexeme gap, "$10;x".toList = lexeme ++ gap ++ ";x".toList ∧
        (∀ c ∈ gap, isSpace c = true) ∧
        Token.scan 7 lexeme =
          ⟨[⟨.number ⟨.byte, 16⟩, 7, 0, 1, 1⟩,
            placed 7 (lexeme.foldl Cursor.advance .start) .eof], none⟩ := by
  let before : List Token :=
    [⟨.identifier "a", 0, 0, 1, 1⟩, ⟨.colon, 0, 1, 1, 2⟩, ⟨.identifier "lda", 0, 2, 1, 3⟩,
      ⟨.hash, 0, 5, 1, 6⟩]
  let number : Token := ⟨.number ⟨.byte, 16⟩, 0, 6, 1, 7⟩
  let comment : Token := ⟨.comment "x", 0, 9, 1, 10⟩
  have hscan : Token.scan 0 "a:lda#$10;x".toList =
      ⟨before ++ number :: comment :: [⟨.eof, 0, 11, 1, 12⟩], none⟩ := rfl
  obtain ⟨hincrease, -, -, htile⟩ := tokens_tile_text hscan
  obtain ⟨lexeme, gap, hplace, -, -, hgap, -, halone⟩ := htile before number comment _ rfl
  exact ⟨_, hscan, rfl, hincrease, lexeme, gap, hplace, hgap, halone 7⟩

end Asm65
