import Asm65.Proofs.Tokens

/-!
# Lexemes

What a text is made of, said without a reading position.  `Lexeme` gives the spelling of each kind
of token, together with what may follow it; `Lexes` puts lexemes and the spaces between them in a
row.  The scan finds exactly these: `scanLexeme_eq_ok_iff` says it of one lexeme and
`scan_error_eq_none_iff` of a whole text.
-/

namespace Asm65

namespace Token

/-! ## Runs of characters -/

/-- A text does not go on with a character of a class. -/
def Stops (isIn : Char → Bool) (text : List Char) : Prop :=
  ∀ c ∈ text.head?, isIn c = false

@[simp] theorem stops_nil (isIn : Char → Bool) : Stops isIn [] := by
  simp [Stops]

@[simp] theorem stops_cons {isIn : Char → Bool} {c : Char} {text : List Char} :
    Stops isIn (c :: text) ↔ isIn c = false := by
  simp [Stops]

/-- The longest run of a class is the part in front of a text that does not go on with it. -/
theorem takeWhile_append_eq_iff {isIn : Char → Bool} {run rest : List Char} :
    (run ++ rest).takeWhile isIn = run ↔ (∀ c ∈ run, isIn c = true) ∧ Stops isIn rest := by
  induction run with
  | nil =>
      cases rest with
      | nil => simp
      | cons c rest => cases h : isIn c <;> simp [h]
  | cons c run ih => cases h : isIn c <;> simp [h, ih]

theorem takeWhile_of_stops {isIn : Char → Bool} {run rest : List Char}
    (hrun : ∀ c ∈ run, isIn c = true) (hstop : Stops isIn rest) :
    (run ++ rest).takeWhile isIn = run :=
  takeWhile_append_eq_iff.2 ⟨hrun, hstop⟩

/-- A longest run of a given length is what stands in front. -/
theorem takeWhile_of_length {isIn : Char → Bool} {run rest : List Char}
    (h : ((run ++ rest).takeWhile isIn).length = run.length) :
    (run ++ rest).takeWhile isIn = run := by
  have hprefix : (run ++ rest).takeWhile isIn <+: run ++ rest := List.takeWhile_prefix isIn
  exact (List.prefix_of_prefix_length_le hprefix (List.prefix_append run rest)
    (Nat.le_of_eq h)).eq_of_length h

/-! ## Classes of characters -/

/-- What holds of the first 128 characters one by one holds of an ASCII character. -/
theorem forall_ascii (holds : Char → Prop) (h : ∀ n : Fin 128, holds (Char.ofNat n)) {c : Char}
    (hascii : c.toNat < 128) : holds c := by
  have hc := h ⟨c.toNat, hascii⟩
  rwa [Char.ofNat_toNat] at hc

theorem isDigit_of_isNameStart {c : Char} (h : isNameStart c = true) : Text.isDigit c = false := by
  have hascii : c.toNat < 128 := by
    simp only [isNameStart, Bool.or_eq_true, Bool.and_eq_true, decide_eq_true_eq, beq_iff_eq,
      Char.le_def, UInt32.le_iff_toNat_le] at h
    rcases h with (⟨-, hz⟩ | ⟨-, hz⟩) | rfl
    · exact Nat.lt_of_le_of_lt hz (by decide)
    · exact Nat.lt_of_le_of_lt hz (by decide)
    · decide
  exact forall_ascii (fun c => isNameStart c = true → Text.isDigit c = false)
    (by decide +kernel) hascii h

theorem isNameStart_of_isDigit {c : Char} (h : Text.isDigit c = true) : isNameStart c = false := by
  cases hname : isNameStart c with
  | false => rfl
  | true => rw [isDigit_of_isNameStart hname] at h; cases h

/-- A letter or an underscore, then letters, digits and underscores. -/
def IsName : List Char → Prop
  | [] => False
  | c :: rest => isNameStart c = true ∧ ∀ x ∈ rest, isNameChar x = true

/-- A run of digits in front of a text that goes on neither with a digit nor with a name. -/
structure IsNumeral (run rest : List Char) : Prop where
  ne_nil : run ≠ []
  digits : ∀ c ∈ run, Text.isDigit c = true
  stops : Stops Text.isDigit rest
  noName : Stops isNameStart rest

/-- A run of digits that is a decimal number: each has a value, and there are not too many. -/
structure IsDecimal (run : List Char) : Prop where
  digits : ∀ c ∈ run, (Text.decimalValue? c).isSome = true
  short : run.length ≤ Decimal.digitLimit

/-- The value of a decimal number. -/
def decimalValue (run : List Char) : Nat :=
  Text.positional 10 (run.map fun c => (Text.decimalValue? c).getD 0)

theorem decimalOf_of_isDecimal {run : List Char} (h : IsDecimal run) :
    decimalOf run = .ok (decimalValue run) := by
  have hrun : run.takeWhile (fun c => (Text.decimalValue? c).isSome) = run := by
    have hwhole := takeWhile_of_stops h.digits (stops_nil _)
    rwa [List.append_nil] at hwhole
  have hshort : ¬ run.length > Decimal.digitLimit := Nat.not_lt.2 h.short
  simp only [decimalOf, hrun, if_neg hshort, Nat.lt_irrefl, if_false]
  rfl

/-- A run of digits that is no decimal number cannot be read. -/
theorem decimalOf_of_not_isDecimal {run : List Char} (h : ¬ IsDecimal run) :
    ∃ fault, decimalOf run = .error fault ∧ fault.kind = .badValue := by
  simp only [decimalOf]
  split
  · exact ⟨_, rfl, rfl⟩
  · next hshort =>
      split
      · exact ⟨_, rfl, rfl⟩
      · next hlong =>
          -- then all of the run has been taken, and it is a number after all
          exfalso
          apply h
          have hprefix := List.takeWhile_prefix (l := run)
            (fun c => (Text.decimalValue? c).isSome)
          have hwhole := hprefix.eq_of_length_le (Nat.not_lt.1 hlong)
          rw [hwhole] at hshort
          rw [← List.append_nil run] at hwhole
          exact ⟨(takeWhile_append_eq_iff.1 (hwhole.trans (List.append_nil run))).1,
            Nat.not_lt.1 hshort⟩

/-! ## Spellings -/

/-- The spelling of a token, in front of a text that does not go on with it. -/
inductive Lexeme (rest : List Char) : TokenKind → List Char → Prop
  | newline : Lexeme rest .newline ['\n']
  | comment {body : List Char} (hbody : ∀ c ∈ body, (c != '\n') = true)
      (hstop : Stops (· != '\n') rest) :
      Lexeme rest (.comment (String.ofList (Text.strip body))) (';' :: body)
  | identifier {name : List Char} (hname : IsName name) (hstop : Stops isNameChar rest) :
      Lexeme rest (.identifier (String.ofList name)) name
  | directive {name : List Char} (hname : IsName name) (hstop : Stops isNameChar rest) :
      Lexeme rest (.directive (String.ofList (Text.lower name))) ('.' :: name)
  | hexadecimal {digits : List Char} (hne : digits ≠ [])
      (hdigits : ∀ c ∈ digits, Text.isHexDigit c = true) (hstop : Stops Text.isHexDigit rest) :
      Lexeme rest
        (.number (.ofDigits 2 digits.length (Text.positional 16 (digits.map Text.hexValue))))
        ('$' :: digits)
  | binary {digits : List Char} (hne : digits ≠ [])
      (hdigits : ∀ c ∈ digits, Text.isBinaryDigit c = true)
      (hstop : Stops Text.isBinaryDigit rest) :
      Lexeme rest
        (.number (.ofDigits 8 digits.length (Text.positional 2 (digits.map Text.hexValue))))
        ('%' :: digits)
  | decimal {digits : List Char} (hnumeral : IsNumeral digits rest)
      (hdecimal : IsDecimal digits) :
      Lexeme rest (.number (.ofValue (decimalValue digits))) digits
  | string {text : List Char} (htext : ∀ c ∈ text, (c != '"' && c != '\n') = true) :
      Lexeme rest (.string (String.ofList text)) ('"' :: text ++ ['"'])
  | punctuation {c : Char} {kind : TokenKind} (hkind : punctuation? c = some kind) :
      Lexeme rest kind [c]

section Spelling

variable {c : Char} {body rest : List Char} {kind : TokenKind}

/-- The punctuation marks. -/
theorem mem_of_punctuation? (h : punctuation? c = some kind) :
    (c, kind) ∈ [('#', TokenKind.hash), ('<', .less), ('>', .greater), (',', .comma),
      (':', .colon), ('(', .leftParen), (')', .rightParen)] := by
  unfold punctuation? at h
  split at h <;> cases h <;> decide

theorem IsName.isNameChar {name : List Char} (h : IsName name) :
    ∀ x ∈ name, isNameChar x = true := by
  cases name with
  | nil => exact h.elim
  | cons c name =>
      refine List.forall_mem_cons.2 ⟨?_, h.2⟩
      simp [Token.isNameChar, h.1]

theorem scanDirective_eq_ok_iff :
    scanDirective (body ++ rest) = .ok (kind, body.length) ↔
      IsName body ∧ Stops isNameChar rest ∧
        kind = .directive (String.ofList (Text.lower body)) := by
  constructor
  · intro h
    unfold scanDirective at h
    split at h
    · cases h
    · next first hfirst =>
        obtain ⟨hkind, hlength⟩ := Prod.mk.inj (Except.ok.inj h)
        have hrun := takeWhile_of_length hlength
        obtain ⟨hbody, hstop⟩ := takeWhile_append_eq_iff.1 hrun
        obtain ⟨hhead, hstart⟩ := Option.filter_eq_some_iff.1 hfirst
        refine ⟨?_, hstop, by rw [← hkind, hrun]⟩
        cases body with
        | nil =>
            -- nothing was taken, although the first character starts a name
            have hchar : isNameChar first = false := hstop first hhead
            simp [Token.isNameChar, hstart] at hchar
        | cons x body =>
            cases hhead
            exact ⟨hstart, (List.forall_mem_cons.1 hbody).2⟩
  · rintro ⟨hname, hstop, rfl⟩
    have hrun := takeWhile_of_stops hname.isNameChar hstop
    cases body with
    | nil => exact hname.elim
    | cons x body =>
        have hfirst : ((x :: body ++ rest).head?.filter isNameStart) = some x := by
          simp [hname.1]
        simp only [scanDirective, hfirst, hrun]

theorem scanDigits_eq_ok_iff {isDigit : Char → Bool} {base byteDigits : Nat} :
    scanDigits isDigit base byteDigits (body ++ rest) = .ok (kind, body.length) ↔
      body ≠ [] ∧ (∀ x ∈ body, isDigit x = true) ∧ Stops isDigit rest ∧
        kind = .number (.ofDigits byteDigits body.length
          (Text.positional base (body.map Text.hexValue))) := by
  constructor
  · intro h
    simp only [scanDigits] at h
    split at h
    · cases h
    · next hne =>
        obtain ⟨hkind, hlength⟩ := Prod.mk.inj (Except.ok.inj h)
        have hrun := takeWhile_of_length hlength
        obtain ⟨hbody, hstop⟩ := takeWhile_append_eq_iff.1 hrun
        rw [hrun] at hne hkind
        exact ⟨by simpa using hne, hbody, hstop, hkind.symm⟩
  · rintro ⟨hne, hbody, hstop, rfl⟩
    have hrun := takeWhile_of_stops hbody hstop
    have hnonempty : ¬ body.isEmpty = true := by simpa using hne
    simp only [scanDigits, hrun, if_neg hnonempty]

/-- What follows a run of digits starts a name or does not. -/
theorem filter_isNameStart_eq_none_iff :
    (((body ++ rest).drop body.length).head?.filter isNameStart) = none ↔
      Stops isNameStart rest := by
  rw [List.drop_left, Option.filter_eq_none_iff]
  simp [Stops]

theorem scanDecimal_of_isNumeral (h : IsNumeral (c :: body) rest) :
    scanDecimal c (body ++ rest) =
      match decimalOf (c :: body) with
      | .ok value => .ok (.number (.ofValue value), body.length)
      | .error fault => .error (.unreadable fault) := by
  have hrun := takeWhile_of_stops (List.forall_mem_cons.1 h.digits).2 h.stops
  have hnone : ((body ++ rest).drop body.length).head?.filter isNameStart = none :=
    filter_isNameStart_eq_none_iff.2 h.noName
  cases hvalue : decimalOf (c :: body) with
  | ok value => simp only [scanDecimal, hrun, hnone, hvalue]
  | error fault => simp only [scanDecimal, hrun, hnone, hvalue]

/-- A run of digits is refused for the name behind it, or it is a numeral. -/
theorem scanDecimal_cases (hc : Text.isDigit c = true) (text : List Char) :
    (∃ next distance, scanDecimal c text = .error (.misspelt (.badDecimalDigit next) distance) ∧
        distance ≤ text.length + 1) ∨
      ∃ body rest, text = body ++ rest ∧ IsNumeral (c :: body) rest := by
  have hsplit := List.takeWhile_append_dropWhile (p := Text.isDigit) (l := text)
  generalize hbody : text.takeWhile Text.isDigit = body at hsplit
  generalize text.dropWhile Text.isDigit = rest at hsplit
  subst hsplit
  obtain ⟨hdigits, hstop⟩ := takeWhile_append_eq_iff.1 hbody
  cases hnext : ((body ++ rest).drop body.length).head?.filter isNameStart with
  | some next =>
      left
      refine ⟨next, body.length + 1, ?_, by simp⟩
      simp only [scanDecimal, hbody, hnext]
  | none =>
      right
      exact ⟨body, rest, rfl, List.cons_ne_nil c body, List.forall_mem_cons.2 ⟨hc, hdigits⟩, hstop,
        filter_isNameStart_eq_none_iff.1 hnext⟩

theorem scanString_eq_ok_iff :
    scanString (body ++ rest) = .ok (kind, body.length) ↔
      ∃ text, body = text ++ ['"'] ∧ (∀ x ∈ text, (x != '"' && x != '\n') = true) ∧
        kind = .string (String.ofList text) := by
  constructor
  · intro h
    simp only [scanString] at h
    split at h
    · next hquote =>
        obtain ⟨hkind, hlength⟩ := Prod.mk.inj (Except.ok.inj h)
        generalize htext : (body ++ rest).takeWhile (fun x => x != '"' && x != '\n') = text at *
        have hprefix : text <+: body ++ rest := htext ▸ List.takeWhile_prefix _
        obtain ⟨after, hafter⟩ := hprefix
        rw [← hafter, List.drop_left, beq_iff_eq] at hquote
        obtain ⟨tail, rfl⟩ : ∃ tail, after = '"' :: tail := by
          cases after with
          | nil => cases hquote
          | cons x tail => exact ⟨tail, by cases hquote; rfl⟩
        have hbody : body = text ++ ['"'] := by
          have hsplit : (text ++ ['"']) ++ tail = body ++ rest := by simpa using hafter
          exact (List.append_inj hsplit (by simpa using hlength)).1.symm
        refine ⟨text, hbody, ?_, hkind.symm⟩
        rw [← hafter] at htext
        exact (takeWhile_append_eq_iff.1 htext).1
    · cases h
  · rintro ⟨text, rfl, htext, rfl⟩
    have hrun : (text ++ ['"'] ++ rest).takeWhile (fun x => x != '"' && x != '\n') = text := by
      rw [List.append_assoc]
      exact takeWhile_of_stops htext (by simp)
    simp only [scanString, hrun]
    simp

theorem lexeme_of_scanLexeme (h : scanLexeme c (body ++ rest) = .ok (kind, body.length)) :
    Lexeme rest kind (c :: body) := by
  unfold scanLexeme at h
  -- one case per first character, in the order in which they are tried
  split at h
  · next hc =>
      obtain ⟨rfl, hlength⟩ := Prod.mk.inj (Except.ok.inj h)
      rw [beq_iff_eq.1 hc, List.length_eq_zero_iff.1 hlength.symm]
      exact .newline
  split at h
  · next hc =>
      obtain ⟨rfl, hlength⟩ := Prod.mk.inj (Except.ok.inj h)
      have hrun := takeWhile_of_length hlength
      obtain ⟨hbody, hstop⟩ := takeWhile_append_eq_iff.1 hrun
      rw [beq_iff_eq.1 hc, hrun]
      exact .comment hbody hstop
  split at h
  · next hc =>
      obtain ⟨rfl, hlength⟩ := Prod.mk.inj (Except.ok.inj h)
      have hrun := takeWhile_of_length hlength
      obtain ⟨hbody, hstop⟩ := takeWhile_append_eq_iff.1 hrun
      rw [hrun]
      exact .identifier ⟨hc, hbody⟩ hstop
  split at h
  · next hc =>
      obtain ⟨hname, hstop, rfl⟩ := scanDirective_eq_ok_iff.1 h
      rw [beq_iff_eq.1 hc]
      exact .directive hname hstop
  split at h
  · next hc =>
      obtain ⟨hne, hbody, hstop, rfl⟩ := scanDigits_eq_ok_iff.1 h
      rw [beq_iff_eq.1 hc]
      exact .hexadecimal hne hbody hstop
  split at h
  · next hc =>
      obtain ⟨hne, hbody, hstop, rfl⟩ := scanDigits_eq_ok_iff.1 h
      rw [beq_iff_eq.1 hc]
      exact .binary hne hbody hstop
  split at h
  · next hc =>
      rcases scanDecimal_cases hc (body ++ rest) with
        ⟨next, distance, herror, -⟩ | ⟨run, after, hsplit, hnumeral⟩
      · rw [herror] at h
        cases h
      · rw [hsplit, scanDecimal_of_isNumeral hnumeral] at h
        by_cases hdecimal : IsDecimal (c :: run)
        · rw [decimalOf_of_isDecimal hdecimal] at h
          obtain ⟨rfl, hlength⟩ := Prod.mk.inj (Except.ok.inj h)
          obtain ⟨rfl, rfl⟩ := List.append_inj hsplit hlength.symm
          exact .decimal hnumeral hdecimal
        · obtain ⟨fault, hfault, -⟩ := decimalOf_of_not_isDecimal hdecimal
          rw [hfault] at h
          cases h
  split at h
  · next hc =>
      obtain ⟨text, rfl, htext, rfl⟩ := scanString_eq_ok_iff.1 h
      rw [beq_iff_eq.1 hc]
      exact .string htext
  split at h
  · next hkind =>
      obtain ⟨rfl, hlength⟩ := Prod.mk.inj (Except.ok.inj h)
      rw [List.length_eq_zero_iff.1 hlength.symm]
      exact .punctuation hkind
  · cases h

theorem beq_false_of_class {isIn : Char → Bool} (sign : Char) (hc : isIn c = true)
    (hsign : isIn sign = false) : (c == sign) = false := by
  rw [beq_eq_false_iff_ne]
  rintro rfl
  rw [hc] at hsign
  cases hsign

theorem scanLexeme_of_isNameStart (hc : isNameStart c = true) (text : List Char) :
    scanLexeme c text =
      .ok (.identifier (String.ofList (c :: text.takeWhile isNameChar)),
        (text.takeWhile isNameChar).length) := by
  simp only [scanLexeme, hc, beq_false_of_class '\n' hc (by decide),
    beq_false_of_class ';' hc (by decide), if_true, if_false, Bool.false_eq_true]

theorem scanLexeme_of_isDigit (hc : Text.isDigit c = true) (text : List Char) :
    scanLexeme c text = scanDecimal c text := by
  simp only [scanLexeme, hc, isNameStart_of_isDigit hc, beq_false_of_class '\n' hc (by decide),
    beq_false_of_class ';' hc (by decide), beq_false_of_class '.' hc (by decide),
    beq_false_of_class '$' hc (by decide), beq_false_of_class '%' hc (by decide), if_true,
    if_false, Bool.false_eq_true]

theorem scanLexeme_of_lexeme {lexeme : List Char} (h : Lexeme rest kind lexeme)
    (hlexeme : lexeme = c :: body) : scanLexeme c (body ++ rest) = .ok (kind, body.length) := by
  cases h with
  | newline =>
      cases hlexeme
      rfl
  | comment hbody hstop =>
      cases hlexeme
      have hrun := takeWhile_of_stops hbody hstop
      simp only [scanLexeme, hrun]
      rfl
  | identifier hname hstop =>
      subst hlexeme
      have hrun := takeWhile_of_stops hname.2 hstop
      rw [scanLexeme_of_isNameStart hname.1, hrun]
  | directive hname hstop =>
      cases hlexeme
      exact scanDirective_eq_ok_iff.2 ⟨hname, hstop, rfl⟩
  | hexadecimal hne hdigits hstop =>
      cases hlexeme
      exact scanDigits_eq_ok_iff.2 ⟨hne, hdigits, hstop, rfl⟩
  | binary hne hdigits hstop =>
      cases hlexeme
      exact scanDigits_eq_ok_iff.2 ⟨hne, hdigits, hstop, rfl⟩
  | decimal hnumeral hdecimal =>
      subst hlexeme
      have hc := (List.forall_mem_cons.1 hnumeral.digits).1
      rw [scanLexeme_of_isDigit hc, scanDecimal_of_isNumeral hnumeral,
        decimalOf_of_isDecimal hdecimal]
  | string htext =>
      cases hlexeme
      exact scanString_eq_ok_iff.2 ⟨_, rfl, htext, rfl⟩
  | punctuation hkind =>
      cases hlexeme
      unfold punctuation? at hkind
      split at hkind <;> cases hkind <;> rfl

/-- One step of the scan finds the lexemes. -/
theorem scanLexeme_eq_ok_iff :
    scanLexeme c (body ++ rest) = .ok (kind, body.length) ↔ Lexeme rest kind (c :: body) :=
  ⟨lexeme_of_scanLexeme, fun h => scanLexeme_of_lexeme h rfl⟩

/-- Where no lexeme is found, the text is misspelt at a place that is not behind its end, or it
goes on with a numeral that is no decimal number. -/
theorem scanLexeme_eq_error {text : List Char} {refusal : Refusal}
    (h : scanLexeme c text = .error refusal) :
    (∃ problem distance, refusal = .misspelt problem distance ∧ problem.family = .malformed ∧
        distance ≤ text.length + 1) ∨
      ∃ fault run rest, refusal = .unreadable fault ∧ fault.kind = .badValue ∧
        c :: text = run ++ rest ∧ IsNumeral run rest ∧ ¬ IsDecimal run := by
  unfold scanLexeme at h
  split at h
  · cases h
  split at h
  · cases h
  split at h
  · cases h
  split at h
  · unfold scanDirective at h
    split at h
    · cases h
      exact Or.inl ⟨_, _, rfl, rfl, Nat.zero_le _⟩
    · cases h
  split at h
  · simp only [scanDigits] at h
    split at h
    · cases h
      exact Or.inl ⟨_, _, rfl, rfl, Nat.le_add_left _ _⟩
    · cases h
  split at h
  · simp only [scanDigits] at h
    split at h
    · cases h
      exact Or.inl ⟨_, _, rfl, rfl, Nat.le_add_left _ _⟩
    · cases h
  split at h
  · next hc =>
      rcases scanDecimal_cases hc text with
        ⟨next, distance, herror, hdistance⟩ | ⟨run, rest, rfl, hnumeral⟩
      · rw [herror] at h
        cases h
        exact Or.inl ⟨_, _, rfl, rfl, hdistance⟩
      · rw [scanDecimal_of_isNumeral hnumeral] at h
        by_cases hdecimal : IsDecimal (c :: run)
        · rw [decimalOf_of_isDecimal hdecimal] at h
          cases h
        · obtain ⟨fault, hfault, hkind⟩ := decimalOf_of_not_isDecimal hdecimal
          rw [hfault] at h
          cases h
          exact Or.inr ⟨fault, c :: run, rest, rfl, hkind, rfl, hnumeral, hdecimal⟩
  split at h
  · simp only [scanString] at h
    split at h
    · cases h
    · cases h
      exact Or.inl ⟨_, _, rfl, rfl, Nat.zero_le _⟩
  split at h
  · cases h
  · cases h
    exact Or.inl ⟨_, _, rfl, rfl, Nat.zero_le _⟩

/-- A numeral that is no decimal number cannot be read. -/
theorem scanLexeme_of_not_isDecimal (hnumeral : IsNumeral (c :: body) rest)
    (hdecimal : ¬ IsDecimal (c :: body)) :
    ∃ fault, scanLexeme c (body ++ rest) = .error (.unreadable fault) ∧
      fault.kind = .badValue := by
  have hc := (List.forall_mem_cons.1 hnumeral.digits).1
  obtain ⟨fault, hfault, hkind⟩ := decimalOf_of_not_isDecimal hdecimal
  refine ⟨fault, ?_, hkind⟩
  rw [scanLexeme_of_isDigit hc, scanDecimal_of_isNumeral hnumeral, hfault]

/-- A lexeme ends in the text. -/
theorem scanLexeme_le {text : List Char} {more : Nat} (h : scanLexeme c text = .ok (kind, more)) :
    more ≤ text.length := by
  have hrun (isIn : Char → Bool) : (text.takeWhile isIn).length ≤ text.length :=
    (List.takeWhile_prefix isIn).length_le
  unfold scanLexeme at h
  split at h
  · cases h; exact Nat.zero_le _
  split at h
  · cases h; exact hrun _
  split at h
  · cases h; exact hrun _
  split at h
  · unfold scanDirective at h
    split at h
    · cases h
    · cases h; exact hrun _
  split at h
  · simp only [scanDigits] at h
    split at h
    · cases h
    · cases h; exact hrun _
  split at h
  · simp only [scanDigits] at h
    split at h
    · cases h
    · cases h; exact hrun _
  split at h
  · simp only [scanDecimal] at h
    split at h
    · cases h
    · split at h
      · cases h; exact hrun _
      · cases h
  split at h
  · simp only [scanString] at h
    split at h
    · next hquote =>
        cases h
        -- the closing quote stands behind the run
        rw [beq_iff_eq] at hquote
        refine Nat.succ_le_of_lt (Nat.lt_of_not_le fun hle => ?_)
        rw [List.drop_of_length_le hle] at hquote
        cases hquote
    · cases h
  split at h
  · cases h; exact Nat.zero_le _
  · cases h

end Spelling

/-! ## Texts -/

/-- A text is read as tokens up to a rest: lexemes, with spaces in front of them. -/
inductive Lexes : List Char → List TokenKind → List Char → Prop
  | stop {rest : List Char} : Lexes rest [] rest
  | space {c : Char} {text rest : List Char} {kinds : List TokenKind} (hspace : isSpace c = true)
      (hnext : Lexes text kinds rest) : Lexes (c :: text) kinds rest
  | lexeme {kind : TokenKind} {lexeme text rest : List Char} {kinds : List TokenKind}
      (hlexeme : Lexeme text kind lexeme) (hnext : Lexes text kinds rest) :
      Lexes (lexeme ++ text) (kind :: kinds) rest

section Texts

variable {text rest : List Char} {kinds : List TokenKind}

theorem Lexes.trans {final : List Char} {more : List TokenKind} (h : Lexes text kinds rest)
    (hrest : Lexes rest more final) : Lexes text (kinds ++ more) final := by
  induction h with
  | stop => exact hrest
  | space hspace _ ih => exact .space hspace (ih hrest)
  | lexeme hlexeme _ ih => exact .lexeme hlexeme (ih hrest)

theorem Lexes.spaces {gap : List Char} (hgap : ∀ c ∈ gap, isSpace c = true)
    (h : Lexes text kinds rest) : Lexes (gap ++ text) kinds rest := by
  induction gap with
  | nil => exact h
  | cons c gap ih =>
      obtain ⟨hc, hgap⟩ := List.forall_mem_cons.1 hgap
      exact .space hc (ih hgap)

theorem isSpace_of_class {isIn : Char → Bool} {c : Char} (hc : isIn c = true)
    (hsigns : isIn ' ' = false ∧ isIn '\t' = false ∧ isIn '\r' = false) : isSpace c = false := by
  simp only [isSpace, beq_false_of_class ' ' hc hsigns.1, beq_false_of_class '\t' hc hsigns.2.1,
    beq_false_of_class '\r' hc hsigns.2.2, Bool.or_self]

theorem IsNumeral.exists_cons {run : List Char} (h : IsNumeral run rest) :
    ∃ c body, run = c :: body ∧ isSpace c = false := by
  cases run with
  | nil => exact (h.ne_nil rfl).elim
  | cons c body =>
      have hc := (List.forall_mem_cons.1 h.digits).1
      exact ⟨c, body, rfl, isSpace_of_class hc (by decide)⟩

/-- No lexeme is empty or starts with a space. -/
theorem Lexeme.exists_cons {kind : TokenKind} {lexeme : List Char} (h : Lexeme text kind lexeme) :
    ∃ c body, lexeme = c :: body ∧ isSpace c = false := by
  cases h with
  | newline => exact ⟨_, _, rfl, by decide⟩
  | comment => exact ⟨_, _, rfl, by decide⟩
  | identifier hname =>
      cases lexeme with
      | nil => exact hname.elim
      | cons c body => exact ⟨c, body, rfl, isSpace_of_class hname.1 (by decide)⟩
  | directive => exact ⟨_, _, rfl, by decide⟩
  | hexadecimal => exact ⟨_, _, rfl, by decide⟩
  | binary => exact ⟨_, _, rfl, by decide⟩
  | decimal hnumeral => exact hnumeral.exists_cons
  | string => exact ⟨_, _, rfl, by decide⟩
  | punctuation hkind =>
      refine ⟨_, _, rfl, ?_⟩
      unfold punctuation? at hkind
      split at hkind <;> first | rfl | cases hkind

/-- The characters that a lexeme still owes are passed over. -/
theorem scanFrom_owed (unit : Int) (position : Cursor) (found : List Token)
    (body rest : List Char) :
    scanFrom unit position body.length found (body ++ rest) =
      scanFrom unit (body.foldl Cursor.advance position) 0 found rest := by
  induction body generalizing position with
  | nil => rfl
  | cons c body ih => exact ih (position.advance c)

theorem offset_foldl_advance (position : Cursor) (body : List Char) :
    (body.foldl Cursor.advance position).offset = position.offset + body.length := by
  induction body generalizing position with
  | nil => rfl
  | cons c body ih =>
      rw [List.foldl_cons, ih, advance_offset, List.length_cons]
      omega

/-- The scan finds a lexeme that stands in front, and goes on behind it. -/
theorem scanFrom_lexeme {kind : TokenKind} {lexeme : List Char} (h : Lexeme text kind lexeme)
    (unit : Int) (position : Cursor) (found : List Token) :
    scanFrom unit position 0 found (lexeme ++ text) =
      scanFrom unit (lexeme.foldl Cursor.advance position) 0 (placed unit position kind :: found)
        text := by
  obtain ⟨c, body, rfl, hspace⟩ := h.exists_cons
  have hfound := scanLexeme_eq_ok_iff.2 h
  -- the scan takes one character and owes the others
  rw [List.foldl_cons, ← scanFrom_owed]
  simp only [List.cons_append, scanFrom, hspace, hfound, Bool.false_eq_true, if_false]

/-- The scan goes over what is read as tokens, and has found these. -/
theorem Lexes.scanFrom_eq (h : Lexes text kinds rest) (unit : Int) (position : Cursor)
    (found : List Token) :
    ∃ next more, scanFrom unit position 0 found text = scanFrom unit next 0 more rest ∧
      next.offset + rest.length = position.offset + text.length ∧
      more.map kind = kinds.reverse ++ found.map kind := by
  induction h generalizing position found with
  | stop => exact ⟨position, found, rfl, rfl, rfl⟩
  | @space c text rest kinds hspace _ ih =>
      obtain ⟨next, more, hscan, hoffset, hmore⟩ := ih (position.advance c) found
      refine ⟨next, more, ?_, ?_, hmore⟩
      · rw [← hscan]
        simp only [scanFrom, hspace, if_true]
      · rw [hoffset, advance_offset, List.length_cons]
        omega
  | @lexeme kind lexeme text rest kinds hlexeme _ ih =>
      obtain ⟨next, more, hscan, hoffset, hmore⟩ :=
        ih (lexeme.foldl Cursor.advance position) (placed unit position kind :: found)
      refine ⟨next, more, ?_, ?_, ?_⟩
      · rw [scanFrom_lexeme hlexeme, hscan]
      · rw [hoffset, offset_foldl_advance, List.length_append]
        omega
      · rw [hmore, List.reverse_cons, List.append_assoc, List.map_cons]
        rfl

/-- A text cannot be read on where it stands. -/
def Stuck (text : List Char) (refusal : Refusal) : Prop :=
  ∃ c tail, text = c :: tail ∧ isSpace c = false ∧ scanLexeme c tail = .error refusal

theorem IsNumeral.stuck {run : List Char} (h : IsNumeral run rest) (hdecimal : ¬ IsDecimal run) :
    ∃ fault, Stuck (run ++ rest) (.unreadable fault) ∧ fault.kind = .badValue := by
  obtain ⟨c, body, rfl, hspace⟩ := h.exists_cons
  obtain ⟨fault, hscan, hkind⟩ := scanLexeme_of_not_isDecimal h hdecimal
  exact ⟨fault, ⟨c, body ++ rest, rfl, hspace, hscan⟩, hkind⟩

/-- Every text is read as tokens up to its end, or up to where it is stuck. -/
theorem exists_lexes (text : List Char) :
    ∃ kinds rest, Lexes text kinds rest ∧ (rest = [] ∨ ∃ refusal, Stuck rest refusal) := by
  -- a lexeme takes away at least one character
  induction hlength : text.length using Nat.strongRecOn generalizing text with
  | ind n ih =>
      cases text with
      | nil => exact ⟨[], [], .stop, Or.inl rfl⟩
      | cons c tail =>
          subst hlength
          cases hspace : isSpace c with
          | true =>
              obtain ⟨kinds, rest, hlexes, hend⟩ := ih tail.length (by simp) tail rfl
              exact ⟨kinds, rest, .space hspace hlexes, hend⟩
          | false =>
              cases hscan : scanLexeme c tail with
              | error refusal =>
                  exact ⟨[], c :: tail, .stop, Or.inr ⟨refusal, c, tail, rfl, hspace, hscan⟩⟩
              | ok found =>
                  obtain ⟨kind, more⟩ := found
                  obtain ⟨body, behind, rfl, rfl⟩ :
                      ∃ body behind, tail = body ++ behind ∧ body.length = more :=
                    ⟨tail.take more, tail.drop more, by simp, by simp [scanLexeme_le hscan]⟩
                  have hshorter : behind.length < (c :: (body ++ behind)).length := by
                    rw [List.length_cons, List.length_append]
                    omega
                  obtain ⟨kinds, rest, hlexes, hend⟩ := ih behind.length hshorter behind rfl
                  exact ⟨kind :: kinds, rest, .lexeme (scanLexeme_eq_ok_iff.1 hscan) hlexes, hend⟩

/-- The scan of a text that is read as tokens to its end gives these. -/
theorem Lexes.scan_eq (h : Lexes text kinds []) (unit : Int) :
    (scan unit text).error = none ∧ (scan unit text).tokens.map kind = kinds ++ [.eof] := by
  obtain ⟨next, more, hscan, -, hmore⟩ := h.scanFrom_eq unit .start []
  rw [scan, hscan]
  refine ⟨rfl, ?_⟩
  simp only [scanFrom, List.reverse_cons, List.map_append, List.map_reverse, hmore]
  simp [placed]

/-- The scan of a text that is stuck ends with the refusal. -/
theorem Lexes.scan_stuck {refusal : Refusal} (h : Lexes text kinds rest)
    (hstuck : Stuck rest refusal) (unit : Int) :
    ∃ position, (scan unit text).error = some (refusal.error unit position) ∧
      position.offset + rest.length = text.length := by
  obtain ⟨next, more, hscan, hoffset, -⟩ := h.scanFrom_eq unit .start []
  obtain ⟨c, tail, rfl, hspace, hrefused⟩ := hstuck
  refine ⟨next, ?_, by simpa [Cursor.start] using hoffset⟩
  rw [scan, hscan]
  simp only [scanFrom, hspace, hrefused, Bool.false_eq_true, if_false]

/-- A text tokenizes exactly if it is read as tokens to its end. -/
theorem scan_error_eq_none_iff (unit : Int) (text : List Char) :
    (scan unit text).error = none ↔ ∃ kinds, Lexes text kinds [] := by
  constructor
  · intro hnone
    obtain ⟨kinds, rest, hlexes, rfl | ⟨refusal, hstuck⟩⟩ := exists_lexes text
    · exact ⟨kinds, hlexes⟩
    · obtain ⟨position, herror, -⟩ := hlexes.scan_stuck hstuck unit
      rw [hnone] at herror
      cases herror
  · rintro ⟨kinds, hlexes⟩
    exact (hlexes.scan_eq unit).1

theorem Lexes.unique {other : List TokenKind} (h : Lexes text kinds [])
    (h' : Lexes text other []) : kinds = other := by
  have hsame := (h.scan_eq 0).2.symm.trans (h'.scan_eq 0).2
  exact List.append_cancel_right hsame

theorem Lexes.not_stuck {other : List TokenKind} {refusal : Refusal} (h : Lexes text kinds [])
    (h' : Lexes text other rest) : ¬ Stuck rest refusal := by
  intro hstuck
  obtain ⟨position, herror, -⟩ := h'.scan_stuck hstuck 0
  rw [(h.scan_eq 0).1] at herror
  cases herror

theorem Lexeme.ne_eof {rest lexeme : List Char} {kind : TokenKind}
    (h : Lexeme rest kind lexeme) : kind ≠ .eof := by
  rintro rfl
  cases h with
  | punctuation hkind => exact absurd (mem_of_punctuation? hkind) (by simp)

theorem Lexes.ne_eof {text rest : List Char} {kinds : List TokenKind}
    (h : Lexes text kinds rest) : ∀ kind ∈ kinds, kind ≠ .eof := by
  induction h with
  | stop => exact List.forall_mem_nil _
  | space _ _ ih => exact ih
  | lexeme hlexeme _ ih => exact List.forall_mem_cons.2 ⟨hlexeme.ne_eof, ih⟩

/-- The tokens of a text end with the only token that marks the end of the text. -/
theorem scan_tokens {unit : Int} {text : List Char} {tokens : List Token}
    (h : scan unit text = ⟨tokens, none⟩) :
    ∃ body stop, tokens = body ++ [stop] ∧ (∀ t ∈ body, t.kind ≠ .eof) ∧ stop.kind = .eof := by
  obtain ⟨kinds, hlexes⟩ := (scan_error_eq_none_iff unit text).1 (by rw [h])
  have hkinds := (hlexes.scan_eq unit).2
  rw [h] at hkinds
  obtain ⟨body, last, rfl, hbody, hlast⟩ := List.map_eq_append_iff.1 hkinds
  obtain ⟨stop, rfl, hstop⟩ := List.map_eq_singleton_iff.1 hlast
  refine ⟨body, stop, rfl, fun t ht => ?_, hstop⟩
  exact hlexes.ne_eof t.kind (hbody ▸ List.mem_map_of_mem ht)

end Texts

end Token

end Asm65
