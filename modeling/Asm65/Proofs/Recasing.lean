import Mathlib.Logic.Relation
import Asm65.Proofs.Spacing

/-!
# Capital and small letters

The case of letters matters in the names of labels, in strings and in comments, and nowhere else.
`Recased` changes the letters of one lexeme: the name of a directive, a hexadecimal literal, or a
word that the grammar takes for a mnemonic, an index register or the accumulator.  The scan then
finds the same tokens at the same places, but for the spelling of that word; a line is then read as
the same statements, but for the spelling of the mnemonic; and a program is built from operations,
which know no spelling.
-/

namespace Asm65

namespace Token

/-! ## Letters -/

/-- What is said of a character and its small letter can be checked on the ASCII characters. -/
theorem forall_toLower (related : Char → Char → Prop) (hrefl : ∀ c, related c c)
    (hascii : ∀ n : Fin 128, related (Char.ofNat n).toLower (Char.ofNat n)) (c : Char) :
    related c.toLower c := by
  by_cases h : c.toNat < 128
  · exact forall_ascii (fun c => related c.toLower c) hascii h
  · have hcapital : ¬ (c.val ≥ 'A'.val ∧ c.val ≤ 'Z'.val) := by
      rintro ⟨-, hz⟩
      rw [UInt32.le_iff_toNat_le] at hz
      exact h (Nat.lt_of_le_of_lt hz (by decide))
    have hsame : c.toLower = c := dif_neg hcapital
    rw [hsame]
    exact hrefl c

/-- A letter goes on with the same lexemes in either case. -/
theorem continuing_toLower {kind : TokenKind} {isIn : Char → Bool} (h : isIn ∈ continuing kind)
    (c : Char) : isIn c.toLower = isIn c := by
  refine forall_toLower (fun d c => isIn d = isIn c) (fun _ => rfl) ?_ c
  cases kind with
  | comment =>
      obtain rfl := List.mem_singleton.1 h
      decide +kernel
  | identifier | directive =>
      obtain rfl := List.mem_singleton.1 h
      decide +kernel
  | number =>
      simp only [continuing, List.mem_cons, List.not_mem_nil, or_false] at h
      rcases h with rfl | rfl | rfl | rfl <;> decide +kernel
  | _ => cases h

theorem isNameStart_toLower : ∀ c : Char, isNameStart c.toLower = isNameStart c :=
  @continuing_toLower (.number ⟨.byte, 0⟩) isNameStart (by simp [continuing])

theorem isNameChar_toLower : ∀ c : Char, isNameChar c.toLower = isNameChar c :=
  @continuing_toLower (.identifier "") isNameChar (by simp [continuing])

theorem isHexDigit_toLower : ∀ c : Char, Text.isHexDigit c.toLower = Text.isHexDigit c :=
  @continuing_toLower (.number ⟨.byte, 0⟩) Text.isHexDigit (by simp [continuing])

theorem hexValue_toLower (c : Char) : Text.hexValue c.toLower = Text.hexValue c :=
  forall_toLower (fun d c => Text.hexValue d = Text.hexValue c) (fun _ => rfl) (by decide +kernel) c

theorem capital_toLower (c : Char) : Text.capital c.toLower = Text.capital c :=
  forall_toLower (fun d c => Text.capital d = Text.capital c) (fun _ => rfl) (by decide +kernel) c

theorem advance_toLower (position : Cursor) (c : Char) :
    position.advance c.toLower = position.advance c := by
  have hnewline : (c.toLower == '\n') = (c == '\n') :=
    forall_toLower (fun d c => (d == '\n') = (c == '\n')) (fun _ => rfl) (by decide +kernel) c
  simp only [Cursor.advance, hnewline]

/-- A full stop and a dollar sign have no case. -/
theorem eq_of_toLower {c sign : Char} (hsign : sign = '.' ∨ sign = '$') (h : c.toLower = sign) :
    c = sign := by
  rcases hsign with rfl | rfl
  · exact forall_toLower (fun d c => d = '.' → c = '.') (fun _ => id) (by decide +kernel) c h
  · exact forall_toLower (fun d c => d = '$' → c = '$') (fun _ => id) (by decide +kernel) c h

section Texts

variable {text other : List Char}

theorem upper_of_lower (h : Text.lower other = Text.lower text) :
    Text.upper (String.ofList other) = Text.upper (String.ofList text) := by
  have hcapitals (cs : List Char) :
      cs.flatMap Text.capital = (Text.lower cs).flatMap Text.capital := by
    simp only [Text.lower, List.flatMap_map, capital_toLower]
  rw [Text.upper, Text.upper, String.toList_ofList, String.toList_ofList, hcapitals other, h,
    ← hcapitals]

theorem foldl_advance_of_lower (h : Text.lower other = Text.lower text) (position : Cursor) :
    other.foldl Cursor.advance position = text.foldl Cursor.advance position := by
  have hlower (cs : List Char) :
      (Text.lower cs).foldl Cursor.advance position = cs.foldl Cursor.advance position := by
    simp only [Text.lower, List.foldl_map, advance_toLower]
  rw [← hlower, h, hlower]

theorem forall_of_lower {isIn : Char → Bool} (hblind : ∀ c, isIn c.toLower = isIn c)
    (h : Text.lower other = Text.lower text) (htext : ∀ c ∈ text, isIn c = true) :
    ∀ c ∈ other, isIn c = true := by
  intro c hc
  have hmem : c.toLower ∈ Text.lower text := h ▸ List.mem_map_of_mem hc
  obtain ⟨d, hd, hlower⟩ := List.mem_map.1 hmem
  rw [← hblind, ← hlower, hblind]
  exact htext d hd

theorem exists_cons_of_lower {c : Char} (h : Text.lower other = Text.lower (c :: text)) :
    ∃ d rest, other = d :: rest ∧ d.toLower = c.toLower ∧ Text.lower rest = Text.lower text := by
  cases other with
  | nil => cases h
  | cons d rest =>
      obtain ⟨hd, hrest⟩ := List.cons.inj h
      exact ⟨d, rest, rfl, hd, hrest⟩

theorem IsName.of_lower (h : Text.lower other = Text.lower text) (hname : IsName text) :
    IsName other := by
  cases text with
  | nil => exact hname.elim
  | cons c text =>
      obtain ⟨d, rest, rfl, hd, hrest⟩ := exists_cons_of_lower h
      refine ⟨?_, forall_of_lower isNameChar_toLower hrest hname.2⟩
      rw [← isNameStart_toLower, hd, isNameStart_toLower]
      exact hname.1

end Texts

/-! ## Lexemes -/

section Lexemes

variable {rest back lexeme other : List Char} {kind : TokenKind}

theorem Lexeme.recase_directive {name : String} (h : Lexeme rest (.directive name) lexeme)
    (hcase : Text.lower other = Text.lower lexeme) : Lexeme rest (.directive name) other := by
  cases h with
  | directive hname hstop =>
      obtain ⟨c, word, rfl, hc, hword⟩ := exists_cons_of_lower hcase
      obtain rfl := eq_of_toLower (Or.inl rfl) hc
      rw [← hword]
      exact .directive (hname.of_lower hword) hstop
  | punctuation hmark => exact absurd (mem_of_punctuation? hmark) (by simp)

theorem Lexeme.recase_hexadecimal {digits : List Char} (h : Lexeme rest kind ('$' :: digits))
    (hcase : Text.lower other = Text.lower ('$' :: digits)) : Lexeme rest kind other := by
  obtain ⟨c, run, rfl, hc, hrun⟩ := exists_cons_of_lower hcase
  obtain rfl := eq_of_toLower (Or.inr rfl) hc
  have hvalues (cs : List Char) : (Text.lower cs).map Text.hexValue = cs.map Text.hexValue := by
    simp only [Text.lower, List.map_map, Function.comp_def, hexValue_toLower]
  have hlength : run.length = digits.length := by
    simpa only [Text.lower, List.length_map] using congrArg List.length hrun
  cases h with
  | identifier hname => exact absurd hname.1 (by decide)
  | hexadecimal hne hdigits hstop =>
      rw [← hvalues, ← hrun, hvalues, ← hlength]
      refine .hexadecimal (fun hnil => ?_) (forall_of_lower isHexDigit_toLower hrun hdigits) hstop
      rw [hnil] at hlength
      exact hne (List.length_eq_zero_iff.1 hlength.symm)
  | decimal hnumeral => exact absurd (hnumeral.digits '$' List.mem_cons_self) (by decide)
  | punctuation hmark => exact absurd (mem_of_punctuation? hmark) (by simp)

theorem Lexeme.recase_identifier {name : String} (h : Lexeme rest (.identifier name) lexeme)
    (hcase : Text.lower other = Text.lower lexeme) :
    ∃ word, Lexeme rest (.identifier word) other ∧ Text.upper word = Text.upper name := by
  cases h with
  | identifier hname hstop =>
      exact ⟨_, .identifier (hname.of_lower hcase) hstop, upper_of_lower hcase⟩
  | punctuation hmark => exact absurd (mem_of_punctuation? hmark) (by simp)

/-- The case of a letter does not matter to the lexeme in front of it. -/
theorem Lexeme.before_recased {previous : List Char} {c : Char}
    (h : Lexeme (c :: rest) kind previous) {d : Char} (hd : d.toLower = c.toLower) :
    Lexeme (d :: back) kind previous := by
  refine h.of_stops fun isIn hisIn hstop => ?_
  rw [stops_cons] at hstop ⊢
  rw [← continuing_toLower hisIn, hd, continuing_toLower hisIn]
  exact hstop

/-- Only one lexeme stands in front of a text. -/
theorem Lexeme.unique {kind' : TokenKind} {lexeme' back : List Char}
    (h : Lexeme rest kind lexeme) (h' : Lexeme back kind' lexeme')
    (htext : lexeme ++ rest = lexeme' ++ back) : kind = kind' ∧ lexeme = lexeme' ∧ rest = back := by
  obtain ⟨c, body, rfl, -⟩ := h.exists_cons
  obtain ⟨d, body', rfl, -⟩ := h'.exists_cons
  obtain ⟨rfl, hbody⟩ := List.cons.inj htext
  have hscan := scanLexeme_eq_ok_iff.2 h
  rw [show body ++ rest = body' ++ back from hbody, scanLexeme_eq_ok_iff.2 h'] at hscan
  obtain ⟨rfl, hlength⟩ := Prod.mk.inj (Except.ok.inj hscan)
  obtain ⟨rfl, rfl⟩ := List.append_inj hbody hlength.symm
  exact ⟨rfl, rfl, rfl⟩

end Lexemes

/-! ## Tokens -/

section Tokens

variable {unit : Int} {front lexeme other back : List Char} {t : Token} {kind : TokenKind}
  {before after tokens left right : List Token} {earlier later : List (List Token)}

/-- When the letters of a lexeme change case, only its token changes. -/
theorem scan_recase (hscan : scan unit (front ++ (lexeme ++ back)) = ⟨before ++ t :: after, none⟩)
    (hoffset : t.offset = front.length) (hlexeme : Lexeme back t.kind lexeme)
    (hcase : Text.lower other = Text.lower lexeme) (hother : Lexeme back kind other) :
    scan unit (front ++ (other ++ back)) = ⟨before ++ { t with kind } :: after, none⟩ := by
  obtain ⟨front', behind, htext, -, hplaced, hat, hreplace⟩ := (scan_eq_iff_tiles.1 hscan).split
  have hlength : front.length = front'.length := hoffset.symm.trans (offset_of_placed hplaced)
  obtain ⟨rfl, rfl⟩ := List.append_inj htext hlength
  generalize hposition : front.foldl Cursor.advance .start = position at hplaced hat hreplace
  -- the same lexeme stands there
  have hnext : Tiles unit (other.foldl Cursor.advance position) back after := by
    rw [foldl_advance_of_lower hcase]
    generalize hbehind : lexeme ++ back = behind at hat
    cases hat with
    | stop =>
        obtain ⟨c, body, rfl, -⟩ := hlexeme.exists_cons
        cases hbehind
    | lexeme hfound hnext =>
        obtain ⟨-, rfl, rfl⟩ := hlexeme.unique hfound hbehind
        exact hnext
  rw [scan_eq_iff_tiles]
  have htoken : ({ t with kind } : Token) = placed unit position kind := by
    rw [hplaced]
    rfl
  rw [htoken]
  refine hreplace (other ++ back) _ (fun kind previous hprevious => ?_) (.lexeme hother hnext)
  obtain ⟨c, body, rfl, -⟩ := hlexeme.exists_cons
  obtain ⟨d, rest, rfl, hd, -⟩ := exists_cons_of_lower hcase
  exact hprevious.before_recased hd

/-- A change of tokens that makes or removes no end of a line changes the lines token by token. -/
theorem lines_map {f : Token → Token}
    (hnewline : ∀ u, ((f u).kind == .newline) = (u.kind == .newline))
    (heof : ∀ u, ((f u).kind == .eof) = (u.kind == .eof)) (tokens : List Token) :
    lines (tokens.map f) = (lines tokens).map (List.map f) := by
  have hends : (fun u : Token => u.kind == .newline) ∘ f = fun u => u.kind == .newline :=
    funext hnewline
  have hgoes : (fun u : Token => u.kind != .eof) ∘ f = fun u => u.kind != .eof :=
    funext fun u => congrArg not (heof u)
  rw [lines, lines, List.takeWhile_map, hgoes, splitOnP_map, hends]

/-- The tokens with one of them replaced. -/
def replaced (t u : Token) : Token → Token :=
  fun v => if v = t then u else v

theorem replaced_self (t u : Token) : replaced t u t = u :=
  if_pos rfl

theorem map_replaced_of_not_mem {u : Token} (h : t ∉ tokens) :
    tokens.map (replaced t u) = tokens := by
  conv => rhs; rw [← List.map_id tokens]
  refine List.map_congr_left fun v hv => if_neg ?_
  rintro rfl
  exact h hv

theorem map_replaced {u : Token} (h : (before ++ t :: after).Nodup) :
    (before ++ t :: after).map (replaced t u) = before ++ u :: after := by
  rw [List.nodup_append, List.nodup_cons] at h
  obtain ⟨-, ⟨hafter, -⟩, hbefore⟩ := h
  rw [List.map_append, List.map_cons, replaced_self, map_replaced_of_not_mem hafter,
    map_replaced_of_not_mem fun hmem => hbefore t hmem t List.mem_cons_self rfl]

theorem kind_replaced {u : Token} {wanted : TokenKind} (ht : t.kind ≠ wanted)
    (hu : u.kind ≠ wanted) (v : Token) :
    ((replaced t u v).kind == wanted) = (v.kind == wanted) := by
  by_cases hv : v = t
  · subst hv
    rw [replaced_self, beq_eq_false_iff_ne.2 ht, beq_eq_false_iff_ne.2 hu]
  · rw [replaced, if_neg hv]

/-- When a token is replaced that ends no line, only its line changes. -/
theorem lines_replace {u : Token} (hnodup : (before ++ t :: after).Nodup)
    (ht : t.kind ≠ .newline ∧ t.kind ≠ .eof) (hu : u.kind ≠ .newline ∧ u.kind ≠ .eof)
    (hlines : lines (before ++ t :: after) = earlier ++ (left ++ t :: right) :: later) :
    lines (before ++ u :: after) = earlier ++ (left ++ u :: right) :: later := by
  have hflat : (lines (before ++ t :: after)).flatten.Nodup := by
    rw [lines, flatten_splitOnP]
    exact (hnodup.sublist (List.takeWhile_sublist _)).filter _
  rw [hlines, List.flatten_append, List.flatten_cons, List.nodup_append, List.nodup_append] at hflat
  obtain ⟨-, ⟨hline, -, hlater⟩, hearlier⟩ := hflat
  have hothers {others : List (List Token)} (h : t ∉ others.flatten) :
      others.map (List.map (replaced t u)) = others := by
    conv => rhs; rw [← List.map_id others]
    refine List.map_congr_left fun line hline => map_replaced_of_not_mem fun hmem => ?_
    exact h (List.mem_flatten.2 ⟨line, hline, hmem⟩)
  have hmem : t ∈ left ++ t :: right := by simp
  rw [← map_replaced hnodup, lines_map (kind_replaced ht.1 hu.1) (kind_replaced ht.2 hu.2), hlines,
    List.map_append, List.map_cons, map_replaced hline,
    hothers fun h => hearlier t h t (List.mem_append_left _ hmem) rfl,
    hothers fun h => hlater t hmem t h rfl]

end Tokens

end Token

/-! ## Lines -/

namespace Grammar

/-- The words whose case does not matter, told by the tokens around them: a mnemonic stands at the
start of a line or behind a colon, and is no label itself; an index register stands behind a comma;
and the accumulator stands alone behind the mnemonic of an instruction that has a form for it. -/
inductive IsFolded (previous : Option TokenKind) (name : String) (right : List Token) : Prop
  | mnemonic (hleft : previous = none ∨ previous = some .colon)
      (hright : ∀ next ∈ right.head?, next.kind ≠ .colon)
  | index (hleft : previous = some .comma)
  | accumulator {mnemonic : String} (hleft : previous = some (.identifier mnemonic))
      (htakes : TakesAccumulator mnemonic) (hname : Text.upper name = "A")
      (hright : ∀ next ∈ right.head?, next.kind.isComment = true)

/-- Tokens in which words whose case does not matter may be spelt with other letters. -/
inductive Respells : Option TokenKind → List Token → List Token → Prop
  | nil {previous : Option TokenKind} : Respells previous [] []
  | keep {previous : Option TokenKind} {t : Token} {tokens others : List Token}
      (hrest : Respells (some t.kind) tokens others) : Respells previous (t :: tokens) (t :: others)
  | fold {previous : Option TokenKind} {t : Token} {name word : String}
      {tokens others : List Token} (hkind : t.kind = .identifier name)
      (hword : Text.upper word = Text.upper name) (hfolded : IsFolded previous name tokens)
      (hrest : Respells (some t.kind) tokens others) :
      Respells previous (t :: tokens) ({ t with kind := .identifier word } :: others)

section Respells

variable {previous : Option TokenKind} {t : Token} {tokens others left right tail : List Token}
  {name word : String} {statements comments : List Statement}

theorem Respells.refl (previous : Option TokenKind) (tokens : List Token) :
    Respells previous tokens tokens := by
  induction tokens generalizing previous with
  | nil => exact .nil
  | cons t tokens ih => exact .keep (ih (some t.kind))

theorem respells_of_isFolded (hkind : t.kind = .identifier name)
    (hword : Text.upper word = Text.upper name)
    (hfolded : IsFolded ((left.getLast?.map Token.kind).or previous) name right) :
    Respells previous (left ++ t :: right)
      (left ++ { t with kind := .identifier word } :: right) := by
  induction left generalizing previous with
  | nil => exact .fold hkind hword hfolded (.refl _ right)
  | cons first left ih =>
      refine .keep (ih ?_)
      rw [List.getLast?_cons] at hfolded
      cases hlast : left.getLast? with
      | none => simpa [hlast] using hfolded
      | some last => simpa [hlast] using hfolded

/-- A token that is no word, or a word whose case matters, stays as it is. -/
theorem Respells.cons_keep (h : Respells previous (t :: tokens) others)
    (hnot : ∀ name, t.kind = .identifier name → ¬ IsFolded previous name tokens) :
    ∃ rest, others = t :: rest ∧ Respells (some t.kind) tokens rest := by
  cases h with
  | keep hrest => exact ⟨_, rfl, hrest⟩
  | fold hkind _ hfolded => exact (hnot _ hkind hfolded).elim

theorem Respells.cons_sign {kind : TokenKind} (h : Respells previous (t :: tokens) others)
    (hkind : t.kind = kind) (hnot : ∀ name, kind ≠ .identifier name) :
    ∃ rest, others = t :: rest ∧ Respells (some kind) tokens rest := by
  subst hkind
  exact h.cons_keep fun name hname => (hnot name hname).elim

theorem Respells.cons_word (h : Respells previous (t :: tokens) others)
    (hkind : t.kind = .identifier name) :
    ∃ u word rest, others = u :: rest ∧ u.tag = t.tag ∧ u.kind = .identifier word ∧
      Text.upper word = Text.upper name ∧ Respells (some (.identifier name)) tokens rest := by
  cases h with
  | keep hrest => exact ⟨t, name, _, rfl, rfl, hkind, rfl, hkind ▸ hrest⟩
  | fold hkind' hword _ hrest =>
      obtain rfl := TokenKind.identifier.inj (hkind'.symm.trans hkind)
      exact ⟨_, _, _, rfl, rfl, rfl, hword, hkind ▸ hrest⟩

theorem Respells.cons_isWord (h : Respells previous (t :: tokens) others) (hword : IsWord word t) :
    ∃ u rest, others = u :: rest ∧ IsWord word u ∧ Respells (some t.kind) tokens rest := by
  obtain ⟨name, hkind, hupper⟩ := hword
  obtain ⟨u, spelt, rest, rfl, -, hu, hspelt, hrest⟩ := h.cons_word hkind
  exact ⟨u, rest, rfl, ⟨spelt, hu, hspelt.trans hupper⟩, hkind ▸ hrest⟩

/-- Tokens without words stay as they are. -/
theorem Respells.eq_of_forall (h : Respells previous tokens others)
    (hnot : ∀ t ∈ tokens, ∀ name, t.kind ≠ .identifier name) : others = tokens := by
  induction h with
  | nil => rfl
  | keep _ ih => rw [ih (List.forall_mem_cons.1 hnot).2]
  | fold hkind => exact absurd hkind ((List.forall_mem_cons.1 hnot).1 _)

/-- Behind a mnemonic, only the accumulator may be in any case. -/
theorem IsFolded.behind_mnemonic {mnemonic : String}
    (h : IsFolded (some (.identifier mnemonic)) name right) :
    TakesAccumulator mnemonic ∧ Text.upper name = "A" ∧
      ∀ next ∈ right.head?, next.kind.isComment = true := by
  cases h with
  | mnemonic hleft => rcases hleft with hleft | hleft <;> cases hleft
  | index hleft => cases hleft
  | accumulator hleft htakes hname hright =>
      cases hleft
      exact ⟨htakes, hname, hright⟩

/-- In front of an index there is a label. -/
theorem not_isFolded_of_comma {comma : Token} {mnemonic : String} (hcomma : comma.kind = .comma) :
    ¬ IsFolded (some (.identifier mnemonic)) name (comma :: right) := by
  intro hfolded
  obtain ⟨-, -, hright⟩ := hfolded.behind_mnemonic
  have hcomment := hright comma rfl
  rw [hcomma] at hcomment
  cases hcomment

theorem IsComment.not_identifier (h : IsComment tail comments) :
    ∀ t ∈ tail, ∀ name, t.kind ≠ .identifier name := by
  cases h with
  | none => exact List.forall_mem_nil _
  | comment hkind =>
      refine List.forall_mem_singleton.2 fun name => ?_
      rw [hkind]
      nofun

theorem IsComment.eq_of_respells (h : IsComment tail comments)
    (hrespells : Respells previous tail others) : others = tail :=
  hrespells.eq_of_forall h.not_identifier

/-- Behind a sign or a directive stands a label or a literal. -/
theorem not_isFolded_behind_sign {kind : TokenKind}
    (hkind : ∀ name, kind ∉ [.colon, .comma, .identifier name]) :
    ¬ IsFolded (some kind) name right := by
  intro hfolded
  cases hfolded with
  | mnemonic hleft =>
      rcases hleft with hleft | hleft
      · cases hleft
      · exact hkind "" (by simp [Option.some.inj hleft])
  | index hleft => exact hkind "" (by simp [Option.some.inj hleft])
  | @accumulator mnemonic hleft => exact hkind mnemonic (by simp [Option.some.inj hleft])

theorem Respells.cons_behind_sign {kind : TokenKind} (h : Respells (some kind) (t :: tokens) others)
    (hkind : ∀ name, kind ∉ [.colon, .comma, .identifier name]) :
    ∃ rest, others = t :: rest ∧ Respells (some t.kind) tokens rest :=
  h.cons_keep fun _ _ => not_isFolded_behind_sign hkind

/-- What stands behind a `<` or a `>` stays as it is, and without them it is as before. -/
theorem IsSign.of_respells {sign : List Token} {modifier : Modifier} (hsign : IsSign sign modifier)
    (hbare : sign = [] → ∀ name, t.kind = .identifier name → ¬ IsFolded previous name tokens)
    (h : Respells previous (sign ++ t :: tokens) others) :
    ∃ rest, others = sign ++ t :: rest ∧ Respells (some t.kind) tokens rest := by
  cases hsign with
  | none => exact h.cons_keep (hbare rfl)
  | low hlow =>
      obtain ⟨_, rfl, hbehind⟩ := h.cons_sign hlow (by simp)
      obtain ⟨rest, rfl, hrest⟩ := hbehind.cons_behind_sign (by simp)
      exact ⟨rest, rfl, hrest⟩
  | high hhigh =>
      obtain ⟨_, rfl, hbehind⟩ := h.cons_sign hhigh (by simp)
      obtain ⟨rest, rfl, hrest⟩ := hbehind.cons_behind_sign (by simp)
      exact ⟨rest, rfl, hrest⟩

/-- An operand is the same whatever the case of the registers in it. -/
theorem IsOperand.of_respells {mnemonic : String} {operand : Operand}
    (h : IsOperand (TakesAccumulator mnemonic) tokens operand) (htail : IsComment tail comments)
    (hrespells : Respells (some (.identifier mnemonic)) (tokens ++ tail) others) :
    ∃ respelt, others = respelt ++ tail ∧
      IsOperand (TakesAccumulator mnemonic) respelt operand := by
  cases h with
  | none => exact ⟨[], htail.eq_of_respells hrespells, .none⟩
  | accumulator htakes ha =>
      obtain ⟨u, rest, rfl, hu, hrest⟩ := hrespells.cons_isWord ha
      rw [htail.eq_of_respells hrest]
      exact ⟨[u], rfl, .accumulator htakes hu⟩
  | immediate hhash hsign hterm =>
      rw [List.append_assoc, List.cons_append] at hrespells
      obtain ⟨_, rfl, hsigned⟩ := hrespells.cons_sign hhash (by simp)
      obtain ⟨_, rfl, hrest⟩ :=
        hsign.of_respells (fun _ _ _ => not_isFolded_behind_sign (by simp)) hsigned
      rw [htail.eq_of_respells hrest]
      exact ⟨_, by simp, .immediate hhash hsign hterm⟩
  | address hsign hterm hlabel =>
      rw [List.append_assoc] at hrespells
      obtain ⟨_, rfl, hrest⟩ := hsign.of_respells (fun hnone name hkind hfolded => by
        -- a bare `A` would be the accumulator
        obtain ⟨htakes, hname, -⟩ := hfolded.behind_mnemonic
        exact hlabel htakes hnone ⟨name, hkind, hname⟩) hrespells
      rw [htail.eq_of_respells hrest]
      exact ⟨_, by simp, .address hsign hterm hlabel⟩
  | indexedX hterm hcomma hx =>
      obtain ⟨_, rfl, hindexed⟩ := hrespells.cons_keep fun _ _ => not_isFolded_of_comma hcomma
      obtain ⟨_, rfl, hindex⟩ := hindexed.cons_sign hcomma (by simp)
      obtain ⟨u, _, rfl, hu, hrest⟩ := hindex.cons_isWord hx
      rw [htail.eq_of_respells hrest]
      exact ⟨_, rfl, .indexedX hterm hcomma hu⟩
  | indexedY hterm hcomma hy =>
      obtain ⟨_, rfl, hindexed⟩ := hrespells.cons_keep fun _ _ => not_isFolded_of_comma hcomma
      obtain ⟨_, rfl, hindex⟩ := hindexed.cons_sign hcomma (by simp)
      obtain ⟨u, _, rfl, hu, hrest⟩ := hindex.cons_isWord hy
      rw [htail.eq_of_respells hrest]
      exact ⟨_, rfl, .indexedY hterm hcomma hu⟩
  | indirect hleft hterm hright =>
      obtain ⟨_, rfl, hinner⟩ := hrespells.cons_sign hleft (by simp)
      obtain ⟨_, rfl, hclosed⟩ := hinner.cons_behind_sign (by simp)
      obtain ⟨_, rfl, hrest⟩ := hclosed.cons_sign hright (by simp)
      rw [htail.eq_of_respells hrest]
      exact ⟨_, rfl, .indirect hleft hterm hright⟩
  | indirectX hleft hterm hcomma hx hright =>
      obtain ⟨_, rfl, hinner⟩ := hrespells.cons_sign hleft (by simp)
      obtain ⟨_, rfl, hindexed⟩ := hinner.cons_behind_sign (by simp)
      obtain ⟨_, rfl, hindex⟩ := hindexed.cons_sign hcomma (by simp)
      obtain ⟨u, _, rfl, hu, hclosed⟩ := hindex.cons_isWord hx
      obtain ⟨_, rfl, hrest⟩ := hclosed.cons_sign hright (by simp)
      rw [htail.eq_of_respells hrest]
      exact ⟨_, rfl, .indirectX hleft hterm hcomma hu hright⟩
  | indirectY hleft hterm hright hcomma hy =>
      obtain ⟨_, rfl, hinner⟩ := hrespells.cons_sign hleft (by simp)
      obtain ⟨_, rfl, hclosed⟩ := hinner.cons_behind_sign (by simp)
      obtain ⟨_, rfl, hindexed⟩ := hclosed.cons_sign hright (by simp)
      obtain ⟨_, rfl, hindex⟩ := hindexed.cons_sign hcomma (by simp)
      obtain ⟨u, _, rfl, hu, hrest⟩ := hindex.cons_isWord hy
      rw [htail.eq_of_respells hrest]
      exact ⟨_, rfl, .indirectY hleft hterm hright hcomma hu⟩

theorem IsNumbers.not_identifier {values : List Number} (h : IsNumbers tokens values) :
    ∀ t ∈ tokens, ∀ name, t.kind ≠ .identifier name := by
  induction h with
  | one hkind =>
      refine List.forall_mem_singleton.2 fun name => ?_
      rw [hkind]
      nofun
  | more hkind hcomma _ ih =>
      refine List.forall_mem_cons.2 ⟨fun name => ?_, List.forall_mem_cons.2 ⟨fun name => ?_, ih⟩⟩
      · rw [hkind]
        nofun
      · rw [hcomma]
        nofun

/-- The arguments of a directive are literals, but for the label of a vector. -/
theorem IsDirective.eq_of_respells {s : Statement} (h : IsDirective tokens s)
    (htail : IsComment tail comments) (hrespells : Respells previous (tokens ++ tail) others) :
    others = tokens ++ tail := by
  have hliterals {d : Token} {name : String} {arguments : List Token}
      (hd : d.kind = .directive name)
      (harguments : ∀ t ∈ arguments, ∀ name, t.kind ≠ .identifier name)
      (hrespells : Respells previous (d :: arguments ++ tail) others) :
      others = d :: arguments ++ tail := by
    obtain ⟨_, rfl, hrest⟩ := hrespells.cons_sign hd (by simp)
    rw [hrest.eq_of_forall (List.forall_mem_append.2 ⟨harguments, htail.not_identifier⟩)]
    rfl
  cases h with
  | org hname hkind | pad hname hkind | includeFile hname hkind =>
      exact hliterals hname (by simp [hkind]) hrespells
  | byte hname hvalues | word hname hvalues =>
      exact hliterals hname hvalues.not_identifier hrespells
  | vector hname hkind =>
      obtain ⟨_, rfl, hlabel⟩ := hrespells.cons_sign hname (by simp)
      obtain ⟨_, rfl, hrest⟩ := hlabel.cons_behind_sign (by simp)
      rw [htail.eq_of_respells hrest]
      rfl

end Respells

end Grammar

/-- Statements that are the same but for the case of letters in a mnemonic. -/
inductive Statement.Respelt : Statement → Statement → Prop
  | same {s : Statement} : Respelt s s
  | mnemonic {tag : Option Tag} {mnemonic word : String} {operand : Operand}
      (hword : Text.upper word = Text.upper mnemonic) :
      Respelt (.instruction tag mnemonic operand) (.instruction tag word operand)

namespace Grammar

section Lines

variable {previous : Option TokenKind} {tokens others tail : List Token}
  {statements bodies comments : List Statement}

theorem IsBody.of_respells (h : IsBody tokens bodies) (htail : IsComment tail comments)
    (hrespells : Respells previous (tokens ++ tail) others) :
    ∃ respelt read, others = respelt ++ tail ∧ IsBody respelt read ∧
      List.Forall₂ Statement.Respelt bodies read := by
  cases h with
  | none => exact ⟨[], [], htail.eq_of_respells hrespells, .none, .nil⟩
  | instruction hkind hoperand =>
      obtain ⟨u, word, _, rfl, htag, hu, hword, hrest⟩ := hrespells.cons_word hkind
      obtain ⟨respelt, rfl, hrespelt⟩ := hoperand.of_respells htail hrest
      have htakes : TakesAccumulator _ = TakesAccumulator word :=
        congrArg (· ∈ ["ASL", "LSR", "ROL", "ROR"]) hword.symm
      rw [htakes] at hrespelt
      refine ⟨u :: respelt, _, rfl, .instruction hu hrespelt, .cons ?_ .nil⟩
      rw [htag]
      exact .mnemonic hword
  | directive hdirective =>
      exact ⟨tokens, _, hdirective.eq_of_respells htail hrespells, .directive hdirective,
        .cons .same .nil⟩

/-- A line is read as the same statements, but for the spelling of the mnemonic. -/
theorem IsLine.of_respells (h : IsLine tokens statements)
    (hrespells : Respells none tokens others) :
    ∃ read, IsLine others read ∧ List.Forall₂ Statement.Respelt statements read := by
  cases h with
  | @line label body comment labels bodies comments hlabel hbody hcomment =>
      have hread {respelt : List Token} {read : List Statement} (hrespelt : IsBody respelt read)
          (hsame : List.Forall₂ Statement.Respelt bodies read) :
          ∃ read, IsLine (label ++ respelt ++ comment) read ∧
            List.Forall₂ Statement.Respelt
              (if (labels ++ bodies).isEmpty then comments else labels ++ bodies) read := by
        refine ⟨_, .line hlabel hrespelt hcomment, ?_⟩
        have hempty : (labels ++ read).isEmpty = (labels ++ bodies).isEmpty := by
          cases hsame with
          | nil => rfl
          | cons => cases labels <;> rfl
        rw [hempty]
        split
        · exact List.forall₂_same.2 fun _ _ => .same
        · exact List.rel_append (List.forall₂_same.2 fun _ _ => .same) hsame
      cases hlabel with
      | none =>
          obtain ⟨respelt, read, rfl, hrespelt, hsame⟩ := hbody.of_respells hcomment hrespells
          exact hread hrespelt hsame
      | label hkind hcolon =>
          obtain ⟨_, rfl, hlabelled⟩ := hrespells.cons_keep fun name _ hfolded => by
            cases hfolded with
            | mnemonic _ hright => exact hright _ rfl hcolon
            | index hleft => cases hleft
            | accumulator hleft => cases hleft
          obtain ⟨_, rfl, hrest⟩ := hlabelled.cons_sign hcolon (by simp)
          obtain ⟨respelt, read, rfl, hrespelt, hsame⟩ := hbody.of_respells hcomment hrest
          exact hread hrespelt hsame

end Lines

end Grammar

namespace Token

/-- The lexemes in which the case of letters does not matter, told by the tokens around them. -/
inductive Folds (left right : List Token) : TokenKind → List Char → Prop
  | directive {name : String} {lexeme : List Char} : Folds left right (.directive name) lexeme
  | hexadecimal {n : Number} {digits : List Char} : Folds left right (.number n) ('$' :: digits)
  | word {name : String} {lexeme : List Char}
      (hfolded : Grammar.IsFolded (left.getLast?.map kind) name right) :
      Folds left right (.identifier name) lexeme

/-- A text with letters of one lexeme in another case, where it does not matter. -/
inductive Recased (unit : Int) : List Char → List Char → Prop
  | lexeme {front lexeme other back : List Char} {t : Token} {left right : List Token}
      {earlier later : List (List Token)}
      (hline : lines (scan unit (front ++ (lexeme ++ back))).tokens =
        earlier ++ (left ++ t :: right) :: later)
      (hoffset : t.offset = front.length) (hlexeme : Lexeme back t.kind lexeme)
      (hfolds : Folds left right t.kind lexeme) (hcase : Text.lower other = Text.lower lexeme) :
      Recased unit (front ++ (lexeme ++ back)) (front ++ (other ++ back))

/-- The token of a lexeme in another case. -/
theorem Folds.exists_lexeme {left right : List Token} {back lexeme other : List Char} {t : Token}
    (h : Folds left right t.kind lexeme) (hlexeme : Lexeme back t.kind lexeme)
    (hcase : Text.lower other = Text.lower lexeme) :
    ∃ kind, Lexeme back kind other ∧
      ((t.kind ≠ .newline ∧ t.kind ≠ .eof) ∧ kind ≠ .newline ∧ kind ≠ .eof) ∧
      Grammar.Respells none (left ++ t :: right) (left ++ { t with kind } :: right) := by
  generalize hkind : t.kind = found at h hlexeme
  cases h with
  | directive =>
      refine ⟨_, hlexeme.recase_directive hcase, by simp, ?_⟩
      rw [← hkind]
      exact .refl none _
  | hexadecimal =>
      refine ⟨_, hlexeme.recase_hexadecimal hcase, by simp, ?_⟩
      rw [← hkind]
      exact .refl none _
  | word hfolded =>
      obtain ⟨word, hother, hword⟩ := hlexeme.recase_identifier hcase
      refine ⟨_, hother, by simp, Grammar.respells_of_isFolded hkind hword ?_⟩
      rw [Option.or_none]
      exact hfolded

end Token

namespace Statement

theorem Respelt.trans {s s' s'' : Statement} (h : s.Respelt s') (h' : s'.Respelt s'') :
    s.Respelt s'' := by
  cases h with
  | same => exact h'
  | mnemonic hword =>
      cases h' with
      | same => exact .mnemonic hword
      | mnemonic hother => exact .mnemonic (hother.trans hword)

theorem forall₂_respelt_trans {statements read reread : List Statement}
    (h : List.Forall₂ Respelt statements read) (h' : List.Forall₂ Respelt read reread) :
    List.Forall₂ Respelt statements reread := by
  induction h generalizing reread with
  | nil => exact h'
  | cons hs _ ih =>
      obtain ⟨s'', rest, hs', hrest, rfl⟩ := List.forall₂_cons_left_iff.1 h'
      exact .cons (hs.trans hs') (ih hrest)

/-- A text with one lexeme in another case is read as the same statements, but for the spelling of
mnemonics. -/
theorem parse_recased {unit : Int} {text other : List Char} {statements : List Statement}
    (h : Token.Recased unit text other) (hparse : parse unit text = .ok statements) :
    ∃ read, parse unit other = .ok read ∧ List.Forall₂ Respelt statements read := by
  obtain ⟨tokens, parts, hscan, hparts, rfl⟩ := parse_eq_ok_iff.1 hparse
  cases h with
  | @lexeme front lexeme other back t left right earlier later hline hoffset hlexeme hfolds hcase =>
      rw [hscan] at hline
      have hmem : t ∈ tokens := by
        have hflat : t ∈ (Token.lines tokens).flatten := by simp [hline]
        rw [Token.lines, flatten_splitOnP] at hflat
        exact (List.takeWhile_sublist _).subset (List.mem_of_mem_filter hflat)
      obtain ⟨before, after, rfl⟩ := List.append_of_mem hmem
      have hnodup : (before ++ t :: after).Nodup :=
        (Token.scan_eq_iff_tiles.1 hscan).pairwise_offset.imp fun hlt heq => by
          rw [heq] at hlt
          exact Nat.lt_irrefl _ hlt
      obtain ⟨kind, hother, ⟨ht, hu⟩, hrespells⟩ := hfolds.exists_lexeme hlexeme hcase
      have hrescan := Token.scan_recase hscan hoffset hlexeme hcase hother
      have hlines := @Token.lines_replace t before after left right earlier later
        { t with kind } hnodup ht hu hline
      -- only the statements of this line may differ
      rw [hline] at hparts
      obtain ⟨first, _, rfl, hfirst, hothers⟩ := exists_append_of_forall₂ hparts
      obtain ⟨here, behind, hhere, hbehind, rfl⟩ := List.forall₂_cons_left_iff.1 hothers
      obtain ⟨read, hread, hrespelt⟩ := hhere.of_respells hrespells
      refine ⟨_, parse_eq_ok_iff.2 ⟨_, first ++ read :: behind, hrescan, ?_, rfl⟩, ?_⟩
      · rw [hlines]
        exact List.rel_append hfirst (.cons hread hbehind)
      · rw [List.flatten_append, List.flatten_append, List.flatten_cons, List.flatten_cons]
        exact List.rel_append (List.forall₂_same.2 fun _ _ => .same)
          (List.rel_append hrespelt (List.forall₂_same.2 fun _ _ => .same))

theorem parse_of_recased {unit : Int} {text other : List Char} {statements : List Statement}
    (h : Relation.ReflTransGen (Token.Recased unit) text other)
    (hparse : parse unit text = .ok statements) :
    ∃ read, parse unit other = .ok read ∧ List.Forall₂ Respelt statements read := by
  induction h with
  | refl => exact ⟨statements, hparse, List.forall₂_same.2 fun _ _ => .same⟩
  | tail _ hstep ih =>
      obtain ⟨middle, hmiddle, hfirst⟩ := ih
      obtain ⟨read, hread, hsecond⟩ := parse_recased hstep hmiddle
      exact ⟨read, hread, forall₂_respelt_trans hfirst hsecond⟩

end Statement

/-! ## Programs -/

/-- What sort of error it is. -/
def Error.sort : Error → Family ⊕ FaultKind
  | .problem p _ => .inl p.family
  | .fault f => .inr f.kind

/-- Where the error is. -/
def Error.tag? : Error → Option Tag
  | .problem _ tag => tag
  | .fault _ => none

/-- Errors of the same sort, at the same place. -/
structure Error.Akin (e e' : Error) : Prop where
  sort_eq : e'.sort = e.sort
  tag_eq : e'.tag? = e.tag?

theorem Agree.of_eq {α : Type} (outcome : Except Error α) :
    Agree Error.Akin Eq outcome outcome := by
  cases outcome with
  | ok value => exact .ok rfl
  | error e => exact .error ⟨rfl, rfl⟩

theorem Chunk.ofInstruction_respelt {mnemonic word : String}
    (hword : Text.upper word = Text.upper mnemonic) (tag : Option Tag) (operand : Operand) :
    Agree Error.Akin Eq (ofInstruction tag mnemonic operand) (ofInstruction tag word operand) := by
  have hop : Op.ofMnemonic? word = Op.ofMnemonic? mnemonic := by
    unfold Op.ofMnemonic?
    rw [hword]
  unfold ofInstruction
  rw [hop]
  cases Op.ofMnemonic? mnemonic with
  | none => exact .error ⟨rfl, rfl⟩
  | some operation =>
      refine (Agree.of_eq (Param.ofOperand operand)).bind ?_
      rintro written _ rfl
      generalize (if operation.isConditional then written.withMode .pcRelative else written) = param
      simp only
      split
      · exact .error ⟨rfl, rfl⟩
      · split
        · exact .ok rfl
        · exact .error ⟨rfl, rfl⟩

theorem Statement.Respelt.piece {s s' : Statement} (h : s.Respelt s') :
    Agree Error.Akin Eq s.piece s'.piece := by
  cases h with
  | same => exact .of_eq _
  | mnemonic hword =>
      refine (Chunk.ofInstruction_respelt hword _ _).bind ?_
      rintro chunk _ rfl
      exact .of_eq _

theorem Program.ofStatements_respelt {statements read : List Statement}
    (h : List.Forall₂ Statement.Respelt statements read) :
    Agree Error.Akin Eq (ofStatements statements) (ofStatements read) := by
  have hpieces (found : List Piece) :
      Agree Error.Akin Eq (piecesFrom found statements) (piecesFrom found read) := by
    induction h generalizing found with
    | nil => exact .of_eq _
    | @cons s s' statements read hs _ ih =>
        have hpiece := hs.piece
        simp only [piecesFrom]
        generalize s.piece = outcome at hpiece ⊢
        generalize s'.piece = outcome' at hpiece ⊢
        cases hpiece with
        | ok hadded =>
            subst hadded
            exact ih _
        | error he => exact .error he
  refine (hpieces []).bind ?_
  rintro pieces _ rfl
  exact .of_eq _

/-- A branch to a label holds the distance to it. -/
theorem Param.resolve_ofName_relative {labels : Labels} {position address : Int} {tag : Option Tag}
    {name : String} {param : Param} (hname : labels[name]? = some address)
    (h : (ofName tag name .none .pcRelative).resolve labels position = .ok param) :
    param = .resolved .pcRelative (.byte (Reference.distance position address)) := by
  have hfind : labels.find name tag = .ok address := by
    simp only [Labels.find, hname]
  simp only [ofName, resolve, hfind, bind, Except.bind, if_true,
    Reference.branchOffset_eq_distance] at h
  split at h
  · cases h
    rfl
  · cases h

namespace Output

/-- Outputs that are the same but for the spelling of statements. -/
structure Akin (output other : Output) : Prop where
  code_eq : other.code = output.code
  labels_eq : other.labels = output.labels
  program_eq : other.program = output.program
  sourceMap_eq : ∀ units, other.sourceMap units = output.sourceMap units

theorem ofStatements_respelt {statements read : List Statement}
    (h : List.Forall₂ Statement.Respelt statements read) :
    Agree Error.Akin Akin (ofStatements statements) (ofStatements read) := by
  refine (Program.ofStatements_respelt h).bind ?_
  rintro program _ rfl
  refine (Agree.of_eq (Program.layout program).labels).bind ?_
  rintro labels _ rfl
  cases Program.image (Program.layout program).program with
  | ok code => exact .ok ⟨rfl, rfl, rfl, fun _ => rfl⟩
  | error fault => exact .error ⟨rfl, rfl⟩

/-- Labels are known by their exact spelling.  One that is defined nowhere in just these letters
has no entry; any other has the address of its last such definition; and a vector or an instruction
that names a label holds what the entry under this name says. -/
structure BySpelling (output : Output) (statements : List Statement) : Prop where
  undefined : ∀ name, (∀ s ∈ statements, ∀ tag, s ≠ .label tag name) → output.labels[name]? = none
  defined : ∀ before tag name after, statements = before ++ .label tag name :: after →
    (∀ s ∈ after, ∀ tag, s ≠ .label tag name) →
    output.labels[name]? = some (FlatWalk.across before).cursor
  vector : ∀ front tag name back, statements = front ++ .vector tag name :: back →
    ∃ address, output.labels[name]? = some address ∧
      (Program.chunks output.program)[front.countP Statement.addsChunk]? =
        some (.vector tag name address)
  instruction : ∀ front tag mnemonic kind modifier place name back,
    statements =
      front ++ .instruction tag mnemonic ⟨kind, modifier, some (.name place name)⟩ :: back →
    ∃ address code mode value, output.labels[name]? = some address ∧
      (Program.chunks output.program)[front.countP Statement.addsChunk]? =
        some (.op tag code (.resolved mode value) (FlatWalk.across front).cursor) ∧
      value = if modifier = .none ∧ mode = .pcRelative
        then .byte (Reference.distance (FlatWalk.across front).cursor address)
        else modifier.held address

/-- No reference of an output is to a label that is not defined. -/
theorem exists_address {good : Tag → Prop} {statements : List Statement} {output : Output}
    {s : Statement} {r : Reference} (hform : ∀ s ∈ statements, s.WellFormed good)
    (h : ofStatements statements = .ok output) (hs : s ∈ statements)
    (hr : s.reference? = some r) :
    ∃ address, (FlatWalk.across statements).labels[r.name]? = some address := by
  have hnone : Statement.firstError? statements = none := by
    apply Option.eq_none_iff_forall_ne_some.2
    intro e he
    rw [ofStatements_eq_error hform he] at h
    cases h
  have hproblem := (Option.or_eq_none_iff.1 hnone).2
  rw [if_neg (Int.not_lt.2 (Statement.size_of_firstError? hnone)),
    FlatWalk.start_firstProblem?_eq_none_iff] at hproblem
  obtain ⟨i, hi⟩ := List.mem_iff_getElem?.1 hs
  rcases Statement.exists_last_label r.name statements with
    hnowhere | ⟨before, tag, after, rfl, hlast⟩
  · exact (hproblem i _ (.undefined s r hi hr hnowhere)).elim
  · exact ⟨_, FlatWalk.across_labels_last hlast⟩

theorem bySpelling_of_ok {good : Tag → Prop} {statements : List Statement} {output : Output}
    (hform : ∀ s ∈ statements, s.WellFormed good) (h : ofStatements statements = .ok output) :
    output.BySpelling statements := by
  obtain ⟨program, hbuild, hlayout, -, hprogram⟩ := ofStatements_eq_ok h
  obtain ⟨-, hlabels⟩ := Program.layout_eq_across hform hbuild hlayout
  have hspace := (FlatWalk.across_inSpace hform hbuild).labels
  refine ⟨fun name hnowhere => ?_, fun before tag name after hstatements hlast => ?_,
    fun front tag name back hstatements => ?_,
    fun front tag mnemonic kind modifier place name back hstatements => ?_⟩
  · rw [hlabels]
    exact FlatWalk.across_labels_nowhere hnowhere
  · rw [hlabels, hstatements]
    exact FlatWalk.across_labels_last hlast
  · obtain ⟨address, haddress⟩ := exists_address hform h
      (hstatements ▸ List.mem_append_right front List.mem_cons_self) rfl
    have hinSpace := hspace name address haddress
    rw [← hlabels] at haddress
    subst hstatements
    refine ⟨address, haddress, ?_⟩
    rw [hprogram]
    exact (Program.layout_vector hform hbuild hlayout haddress hinSpace).1
  · obtain ⟨address, haddress⟩ := exists_address hform h
      (hstatements ▸ List.mem_append_right front List.mem_cons_self) rfl
    have hinSpace := hspace name address haddress
    rw [← hlabels] at haddress
    subst hstatements
    obtain ⟨code, mode, value, -, -, hchunk, hresolved, -⟩ :=
      Program.layout_instruction_resolved hform hbuild hlayout
    refine ⟨address, code, mode, value, haddress, by rw [hprogram, hchunk], ?_⟩
    split
    · next hrelative =>
        obtain ⟨rfl, rfl⟩ := hrelative
        cases Param.resolve_ofName_relative haddress hresolved
        rfl
    · next hdirect =>
        cases Param.resolve_ofName haddress hinSpace (fun hnone hmode => hdirect ⟨hnone, hmode⟩)
          hresolved
        rfl

end Output

/-- The case of letters matters in labels only.  A text in which letters in the names of directives,
in hexadecimal literals, in mnemonics and in registers have another case can still be read, and it
is assembled to the same code, labels and source map, or it fails with an error of the same sort at
the same place.  Labels are known by their exact spelling. -/
theorem case_matters_in_labels_only {unit : Int} {text : List Char} {statements : List Statement}
    (hparse : Statement.parse unit text = .ok statements) :
    (∀ other, Relation.ReflTransGen (Token.Recased unit) text other →
      (∃ read, Statement.parse unit other = .ok read) ∧
        Agree Error.Akin Output.Akin (Output.ofText unit text) (Output.ofText unit other)) ∧
    ∀ output, Output.ofText unit text = .ok output → output.BySpelling statements := by
  have htext : Output.ofText unit text = Output.ofStatements statements := by
    rw [Output.ofText, hparse]
    rfl
  constructor
  · intro other hother
    obtain ⟨read, hread, hrespelt⟩ := Statement.parse_of_recased hother hparse
    refine ⟨⟨read, hread⟩, ?_⟩
    rw [htext, Output.ofText, hread]
    exact Output.ofStatements_respelt hrespelt
  · intro output houtput
    rw [htext] at houtput
    exact Output.bySpelling_of_ok (Statement.wellFormed_of_parse hparse) houtput

/-- A mnemonic and the accumulator in capitals, between two labels that differ in case only. -/
theorem recased_between_labels :
    ∃ statements output, Statement.parse 0 "a:asl a\nA:jmp A".toList = .ok statements ∧
      Output.ofText 0 "a:asl a\nA:jmp A".toList = .ok output ∧
      Relation.ReflTransGen (Token.Recased 0) "a:asl a\nA:jmp A".toList "a:ASL A\nA:jmp A".toList ∧
      Agree Error.Akin Output.Akin (.ok output) (Output.ofText 0 "a:ASL A\nA:jmp A".toList) ∧
      output.labels["a"]? = some 0 ∧ output.labels["A"]? = some 1 ∧ output.labels["B"]? = none := by
  let mnemonic : Token := ⟨.identifier "asl", 0, 2, 1, 3⟩
  let register : Token := ⟨.identifier "a", 0, 6, 1, 7⟩
  let label : List Token := [⟨.identifier "a", 0, 0, 1, 1⟩, ⟨.colon, 0, 1, 1, 2⟩]
  let jump : List Token := [⟨.identifier "A", 0, 8, 2, 1⟩, ⟨.colon, 0, 9, 2, 2⟩,
    ⟨.identifier "jmp", 0, 10, 2, 3⟩, ⟨.identifier "A", 0, 14, 2, 7⟩]
  have hmnemonic : Token.Recased 0 "a:asl a\nA:jmp A".toList "a:ASL a\nA:jmp A".toList :=
    @Token.Recased.lexeme 0 "a:".toList "asl".toList "ASL".toList " a\nA:jmp A".toList
      mnemonic label [register] [] [jump] (by decide +kernel) rfl
      (Token.lexeme_of_scanLexeme rfl) (.word (.mnemonic (Or.inr rfl) (by simp [register]))) rfl
  have htakes : Grammar.TakesAccumulator "ASL" := by
    unfold Grammar.TakesAccumulator
    decide +kernel
  have hregister : Token.Recased 0 "a:ASL a\nA:jmp A".toList "a:ASL A\nA:jmp A".toList :=
    @Token.Recased.lexeme 0 "a:ASL ".toList "a".toList "A".toList "\nA:jmp A".toList register
      (label ++ [{ mnemonic with kind := .identifier "ASL" }]) [] [] [jump] (by decide +kernel) rfl
      (Token.lexeme_of_scanLexeme rfl)
      (.word (.accumulator rfl htakes (by decide +kernel) nofun)) rfl
  have hrecased := (Relation.ReflTransGen.single hmnemonic).tail hregister
  let first : Statement := .label (some ⟨0, 0⟩) "a"
  let shift : Statement := .instruction (some ⟨0, 2⟩) "asl" .none
  let second : Statement := .label (some ⟨0, 8⟩) "A"
  let back : Statement :=
    .instruction (some ⟨0, 10⟩) "jmp" (.plain .address (.name (some ⟨0, 14⟩) "A"))
  have hparse : Statement.parse 0 "a:asl a\nA:jmp A".toList =
      .ok [first, shift, second, back] := rfl
  obtain ⟨hsame, hlabels⟩ := case_matters_in_labels_only hparse
  have hok : (Output.ofText 0 "a:asl a\nA:jmp A".toList).isOk = true := by decide +kernel
  cases hrun : Output.ofText 0 "a:asl a\nA:jmp A".toList with
  | error e => rw [hrun] at hok; cases hok
  | ok output =>
      have hspelling := hlabels output hrun
      refine ⟨_, output, hparse, rfl, hrecased, hrun ▸ (hsame _ hrecased).2, ?_, ?_, ?_⟩
      · exact hspelling.defined [] _ "a" [shift, second, back] rfl (by simp [shift, second, back])
      · exact hspelling.defined [first, shift] _ "A" [back] rfl (by simp [back])
      · exact hspelling.undefined "B" (by simp [first, shift, second, back])

end Asm65
