import Mathlib.Algebra.Ring.Nat
import Asm65.Proofs.Readings

/-!
# Writing statements

Every statement that the grammar knows can be written on a line of its own, and the lines are read
back as the statements.  A literal is written in hexadecimal, with as many digits as show its
width.
-/

namespace Asm65

open Grammar

/-! ## Hexadecimal digits -/

namespace Text

theorem length_digitsOnto (alphabet : List Char) (count n : Nat) (rest : List Char) :
    (digitsOnto alphabet count n rest).length = count + rest.length := by
  induction count generalizing n rest with
  | zero => simp [digitsOnto]
  | succ count ih =>
      rw [digitsOnto, ih, List.length_cons]
      omega

/-- An alphabet has a hexadecimal digit for each value, in order. -/
def IsHexAlphabet (alphabet : List Char) : Prop :=
  ∀ d, isHexDigit (alphabet.getD (d % 16) '0') = true ∧
    hexValue (alphabet.getD (d % 16) '0') = d % 16

theorem isHexAlphabet_capitalDigits : IsHexAlphabet capitalDigits := by
  have hall : ∀ k : Fin 16, isHexDigit (capitalDigits.getD k '0') = true ∧
      hexValue (capitalDigits.getD k '0') = k := by decide
  exact fun d => hall ⟨d % 16, Nat.mod_lt d (by decide)⟩

theorem isHexAlphabet_smallDigits : IsHexAlphabet smallDigits := by
  have hall : ∀ k : Fin 16, isHexDigit (smallDigits.getD k '0') = true ∧
      hexValue (smallDigits.getD k '0') = k := by decide
  exact fun d => hall ⟨d % 16, Nat.mod_lt d (by decide)⟩

/-- What holds of every sign of the alphabet holds of the digits of a number. -/
theorem forall_mem_digitsOnto {holds : Char → Prop} {alphabet : List Char} {count n : Nat}
    {rest : List Char} (halphabet : ∀ d, holds (alphabet.getD (d % 16) '0'))
    (hrest : ∀ c ∈ rest, holds c) : ∀ c ∈ digitsOnto alphabet count n rest, holds c := by
  induction count generalizing n rest with
  | zero => exact hrest
  | succ count ih => exact ih (List.forall_mem_cons.2 ⟨halphabet n, hrest⟩)

/-- The digits of a number stand for its value below a power of the base. -/
theorem foldl_hexValue_digitsOnto {alphabet : List Char} (halphabet : IsHexAlphabet alphabet)
    (count n value : Nat) (rest : List Char) :
    ((digitsOnto alphabet count n rest).map hexValue).foldl
        (fun value d => 16 * value + d) value =
      (rest.map hexValue).foldl (fun value d => 16 * value + d)
        (16 ^ count * value + n % 16 ^ count) := by
  -- the digits come lowest first, each one in front of those before it
  induction count generalizing n rest with
  | zero => simp [digitsOnto, Nat.mod_one]
  | succ count ih =>
      have hmod : n % 16 ^ (count + 1) = n % 16 + 16 * (n / 16 % 16 ^ count) := by
        rw [Nat.pow_succ, Nat.mul_comm, Nat.mod_mul]
      have hvalue : 16 * (16 ^ count * value + n / 16 % 16 ^ count) + n % 16 =
          16 ^ (count + 1) * value + n % 16 ^ (count + 1) := by
        rw [hmod, Nat.mul_add, ← Nat.mul_assoc, Nat.pow_succ, Nat.mul_comm 16 (16 ^ count)]
        omega
      rw [digitsOnto, ih, List.map_cons, List.foldl_cons, (halphabet n).2, hvalue]

theorem lt_pow_digitCount (n : Nat) : n < 16 ^ digitCount n := by
  calc n < 2 ^ (n.log2 + 1) := Nat.lt_log2_self
    _ ≤ 2 ^ (4 * digitCount n) := Nat.pow_le_pow_right (by decide) (by unfold digitCount; omega)
    _ = 16 ^ digitCount n := by rw [Nat.pow_mul]

theorem digitCount_le {n count : Nat} (hcount : 0 < count) (h : n < 16 ^ count) :
    digitCount n ≤ count := by
  have hlog : n = 0 ∨ n.log2 < 4 * count := by
    rcases Nat.eq_zero_or_pos n with hzero | hpos
    · exact Or.inl hzero
    · refine Or.inr ((Nat.log2_lt (Nat.pos_iff_ne_zero.1 hpos)).2 ?_)
      rwa [Nat.pow_mul]
  unfold digitCount
  rcases hlog with rfl | hlog
  · exact hcount
  · omega

/-- As many digits as a number has stand for the number. -/
theorem positional_digitsOnto {alphabet : List Char} (halphabet : IsHexAlphabet alphabet)
    (width n : Nat) :
    positional 16 ((digitsOnto alphabet (max width (digitCount n)) n []).map hexValue) = n := by
  have hlarge : n < 16 ^ max width (digitCount n) :=
    Nat.lt_of_lt_of_le (lt_pow_digitCount n)
      (Nat.pow_le_pow_right (by decide) (Nat.le_max_right _ _))
  rw [positional_eq_foldl, foldl_hexValue_digitsOnto halphabet]
  simpa using Nat.mod_eq_of_lt hlarge

theorem length_hex (width n : Nat) : (hex width n).toList.length = max width (digitCount n) := by
  simp [hex, length_digitsOnto]

theorem isHexDigit_of_mem_hex (width n : Nat) :
    ∀ c ∈ (hex width n).toList, isHexDigit c = true := by
  rw [hex, String.toList_ofList]
  exact forall_mem_digitsOnto (fun d => (isHexAlphabet_capitalDigits d).1) (List.forall_mem_nil _)

/-- A number in hexadecimal is read as the number. -/
theorem positional_hex (width n : Nat) :
    positional 16 ((hex width n).toList.map hexValue) = n := by
  rw [hex, String.toList_ofList, positional_digitsOnto isHexAlphabet_capitalDigits]

/-! ## Capital letters -/

theorem capital_cases (c : Char) :
    capital c = [c.toUpper] ∨ ∃ letters, (c, letters) ∈ latinCapitals ∧
      capital c = letters.toList := by
  unfold capital
  split
  · next letters h =>
      obtain ⟨front, back, hsplit, -⟩ := List.lookup_eq_some_iff.1 h
      exact Or.inr ⟨letters, by rw [hsplit]; simp, rfl⟩
  · exact Or.inl rfl

theorem capital_ne_nil (c : Char) : capital c ≠ [] := by
  have hall : ∀ p ∈ latinCapitals, p.2.toList ≠ [] := by decide
  rcases capital_cases c with h | ⟨letters, hmem, h⟩ <;> rw [h]
  · exact List.cons_ne_nil _ _
  · exact hall _ hmem

theorem eq_of_capital_eq {c : Char} (h : capital c = ['A']) : c = 'a' ∨ c = 'A' := by
  have hall : ∀ p ∈ latinCapitals, p.2.toList ≠ ['A'] := by decide
  rcases capital_cases c with hc | ⟨letters, hmem, hc⟩ <;> rw [hc] at h
  · rw [List.cons.injEq] at h
    have hupper := h.1
    unfold Char.toUpper at hupper
    split at hupper
    · left
      have hsmall : 'A'.val = 'a'.val + ('A'.val - 'a'.val) := by decide
      rw [Char.ext_iff] at hupper ⊢
      exact (UInt32.add_left_inj _).1 (hupper.trans hsmall)
    · exact Or.inr hupper
  · exact (hall _ hmem h).elim

theorem eq_of_upper_eq {name : String} (h : upper name = "A") : name = "a" ∨ name = "A" := by
  have hchars : name.toList.flatMap capital = ['A'] := by
    have hlist := congrArg String.toList h
    rwa [upper, String.toList_ofList] at hlist
  rw [← String.toList_inj, ← String.toList_inj]
  cases hname : name.toList with
  | nil =>
      rw [hname] at hchars
      cases hchars
  | cons c rest =>
      rw [hname, List.flatMap_cons] at hchars
      rcases List.append_eq_singleton_iff.1 hchars with ⟨hnil, -⟩ | ⟨hc, hrest⟩
      · exact (capital_ne_nil c hnil).elim
      -- every character has capitals of its own, so there is no second one
      · have hend : rest = [] := by
          cases rest with
          | nil => rfl
          | cons d rest =>
              rw [List.flatMap_cons, List.append_eq_nil_iff] at hrest
              exact (capital_ne_nil d hrest.1).elim
        rw [hend]
        rcases eq_of_capital_eq hc with rfl | rfl
        · exact Or.inl rfl
        · exact Or.inr rfl

end Text

/-! ## Written forms -/

/-- How many digits show a width; what is wider than a word has as many as it needs. -/
def Width.digits : Width → Nat
  | .byte => 2
  | .word => 4
  | .invalid => 0

/-- A literal as it is written. -/
def Number.print (n : Number) : List Char :=
  '$' :: (Text.hex n.width.digits n.value.toNat).toList

/-- Literals as they are written in a list. -/
def Number.printAll (values : List Number) : List Char :=
  [',', ' '].intercalate (values.map Number.print)

/-- A term as it is written. -/
def Term.print : Term → List Char
  | .number _ n => n.print
  | .name _ word => word.toList

/-- The sign of a modifier. -/
def Modifier.print : Modifier → List Char
  | .none => []
  | .lowByte => ['<']
  | .highByte => ['>']

/-- An operand as it is written behind a mnemonic. -/
def Operand.print (operand : Operand) : List Char :=
  match operand.term, operand.kind with
  | some term, .immediate => [' ', '#'] ++ operand.modifier.print ++ term.print
  | some term, .address => ' ' :: operand.modifier.print ++ term.print
  | some term, .absoluteX => ' ' :: term.print ++ [',', 'X']
  | some term, .absoluteY => ' ' :: term.print ++ [',', 'Y']
  | some term, .indirect => [' ', '('] ++ term.print ++ [')']
  | some term, .indirectX => [' ', '('] ++ term.print ++ [',', 'X', ')']
  | some term, .indirectY => [' ', '('] ++ term.print ++ [')', ',', 'Y']
  | _, _ => []

/-- A directive with its argument as it is written. -/
def Directive.print (directive : Directive) (argument : List Char) : List Char :=
  '.' :: directive.name.toList ++ ' ' :: argument

/-- A statement as it is written on a line. -/
def Statement.print : Statement → List Char
  | .comment _ => [';']
  | .label _ name => name.toList ++ [':']
  | .instruction _ mnemonic operand => mnemonic.toList ++ operand.print
  | .org _ address => Directive.org.print address.print
  | .pad _ address => Directive.pad.print address.print
  | .bytes _ values => Directive.byte.print (Number.printAll values)
  | .words _ values => Directive.word.print (Number.printAll values)
  | .vector _ target => Directive.vector.print target.toList
  | .includeFile _ path => Directive.includeFile.print ('"' :: path.toList ++ ['"'])
  | .unknown => []

/-- Statements as they are written, one on a line. -/
def Statement.printAll (statements : List Statement) : List Char :=
  statements.flatMap fun s => s.print ++ ['\n']

/-! ## What can be written -/

/-- A term that can be written. -/
def Term.Writable : Term → Prop
  | .number _ n => n.Consistent
  | .name _ word => Token.IsName word.toList

/-- An operand that can be written behind a mnemonic: a bare `a` would be the accumulator where
there is a form for it. -/
def Operand.Writable (mnemonic : String) (operand : Operand) : Prop :=
  match operand.term with
  | .none => operand.kind = .none ∧ operand.modifier = .none
  | .some term =>
      operand.kind ≠ .none ∧ term.Writable ∧
        (operand.kind.takesModifier = false → operand.modifier = .none) ∧
        (TakesAccumulator mnemonic → ∀ tag name, operand = .plain .address (.name tag name) →
          name ≠ "a" ∧ name ≠ "A")

/-- A statement that can be written. -/
def Statement.Writable : Statement → Prop
  | .comment _ => True
  | .label _ name => Token.IsName name.toList
  | .instruction _ mnemonic operand =>
      Token.IsName mnemonic.toList ∧ operand.Writable mnemonic
  | .org _ address | .pad _ address => address.Consistent
  | .bytes _ values | .words _ values => values ≠ [] ∧ ∀ n ∈ values, n.Consistent
  | .vector _ target => Token.IsName target.toList
  | .includeFile _ path => '"' ∉ path.toList ∧ '\n' ∉ path.toList
  | .unknown => False

/-! ## Reading the parts -/

namespace Token

/-- A text spells a token wherever no name goes on behind it. -/
def Spells (text : List Char) (kind : TokenKind) : Prop :=
  ∀ ⦃rest kinds⦄, Stops isNameChar rest → Lexes rest kinds [] →
    Lexes (text ++ rest) (kind :: kinds) []

theorem spells_name {name : String} (h : IsName name.toList) :
    Spells name.toList (.identifier name) := by
  intro rest kinds hstop hrest
  have hlexeme := Lexeme.identifier h hstop
  rw [String.ofList_toList] at hlexeme
  exact .lexeme hlexeme hrest

theorem Stops.mono {isIn isOut : Char → Bool} {text : List Char}
    (himp : ∀ c, isIn c = true → isOut c = true) (h : Stops isOut text) : Stops isIn text := by
  intro c hc
  have hout := h c hc
  cases hin : isIn c with
  | false => rfl
  | true => rw [himp c hin] at hout; cases hout

theorem isNameChar_of_isHexDigit {c : Char} (h : Text.isHexDigit c = true) :
    isNameChar c = true := by
  simp only [Text.isHexDigit, isNameChar, isNameStart, Bool.or_eq_true, Bool.and_eq_true,
    decide_eq_true_eq] at h ⊢
  rcases h with (hdigit | ⟨ha, hf⟩) | ⟨ha, hf⟩
  · exact Or.inr hdigit
  · exact Or.inl (Or.inl (Or.inl ⟨ha, Char.le_trans hf (by decide)⟩))
  · exact Or.inl (Or.inl (Or.inr ⟨ha, Char.le_trans hf (by decide)⟩))

/-- The digits of a literal show its width. -/
theorem ofDigits_of_consistent {n : Number} (h : n.Consistent) :
    Number.ofDigits 2 (Text.hex n.width.digits n.value.toNat).toList.length n.value.toNat = n := by
  rw [Text.length_hex]
  obtain ⟨width, value⟩ := n
  have hnonneg : 0 ≤ value := by
    cases width <;> simp only [Number.Consistent] at h <;> omega
  obtain ⟨value, rfl⟩ := Int.eq_ofNat_of_zero_le hnonneg
  cases width with
  | byte =>
      have hsmall : value ≤ 0xFF := by simp only [Number.Consistent] at h; omega
      have hcount : Text.digitCount value ≤ 2 := Text.digitCount_le (by decide) (by omega)
      simp [Number.ofDigits, Width.digits, hsmall, hcount]
  | word =>
      have hsmall : value ≤ 0xFFFF := by simp only [Number.Consistent] at h; omega
      have hwide : ¬ max 4 (Text.digitCount value) ≤ 2 := by omega
      simp [Number.ofDigits, Width.digits, hsmall, hwide]
  | invalid =>
      have hlarge : 0xFFFF < value := by simp only [Number.Consistent] at h; omega
      have hbyte : ¬ value ≤ 0xFF := by omega
      have hword : ¬ value ≤ 0xFFFF := by omega
      simp [Number.ofDigits, hbyte, hword]

theorem spells_number {n : Number} (h : n.Consistent) : Spells n.print (.number n) := by
  intro rest kinds hstop hrest
  have hne : (Text.hex n.width.digits n.value.toNat).toList ≠ [] := by
    intro hnil
    have hlength := Text.length_hex n.width.digits n.value.toNat
    rw [hnil, Text.digitCount, List.length_nil] at hlength
    omega
  have hlexeme := Lexeme.hexadecimal hne (Text.isHexDigit_of_mem_hex _ _)
    (hstop.mono fun _ => isNameChar_of_isHexDigit)
  rw [Text.positional_hex, ofDigits_of_consistent h] at hlexeme
  exact .lexeme hlexeme hrest

theorem spells_directive {directive : Directive} :
    Spells ('.' :: directive.name.toList) (.directive directive.name) := by
  intro rest kinds hstop hrest
  have hname : IsName directive.name.toList := by
    cases directive <;> exact ⟨by decide, List.all_eq_true.1 (by decide)⟩
  have hlower : String.ofList (Text.lower directive.name.toList) = directive.name := by
    cases directive <;> decide
  have hlexeme := Lexeme.directive hname hstop
  rw [hlower] at hlexeme
  exact .lexeme hlexeme hrest

theorem Spells.lexes {text : List Char} {kind : TokenKind} (h : Spells text kind) :
    Lexes text [kind] [] := by
  have hlexes := h (stops_nil _) .stop
  rwa [List.append_nil] at hlexes

/-- No name goes on with a punctuation mark. -/
theorem Spells.punctuation {text rest : List Char} {kind mark : TokenKind} {c : Char}
    {kinds : List TokenKind} (h : Spells text kind) (hmark : punctuation? c = some mark)
    (hrest : Lexes rest kinds []) : Lexes (text ++ c :: rest) (kind :: mark :: kinds) [] := by
  have hstop : Stops isNameChar (c :: rest) := by
    rw [stops_cons]
    unfold punctuation? at hmark
    split at hmark <;> first | rfl | cases hmark
  exact h hstop (lexes_punctuation hmark hrest)

theorem lexes_string {path : String} (hquote : '"' ∉ path.toList) (hline : '\n' ∉ path.toList) :
    Lexes ('"' :: path.toList ++ ['"']) [.string path] [] := by
  have hbody : ∀ c ∈ path.toList, (c != '"' && c != '\n') = true := by
    intro c hc
    rw [Bool.and_eq_true, bne_iff_ne, bne_iff_ne]
    exact ⟨fun h => hquote (h ▸ hc), fun h => hline (h ▸ hc)⟩
  have hlexeme := @Lexeme.string [] _ hbody
  rw [String.ofList_toList] at hlexeme
  have hlexes := Lexes.lexeme hlexeme .stop
  rwa [List.append_nil] at hlexes

/-- A token of a kind. -/
def bare (kind : TokenKind) : Token :=
  ⟨kind, 0, 0, 0, 0⟩

@[simp] theorem kind_bare (kind : TokenKind) : (bare kind).kind = kind :=
  rfl

end Token

open Token

section Parts

variable {mnemonic : String} {operand : Operand}

theorem Term.Writable.reads {term : Term} (h : term.Writable) :
    ∃ t read, Spells term.print t.kind ∧ IsTerm t read ∧ read.untagged = term.untagged := by
  cases term with
  | number tag n => exact ⟨bare (.number n), _, spells_number h, .number rfl, rfl⟩
  | name tag word => exact ⟨bare (.identifier word), _, spells_name h, .name rfl, rfl⟩

theorem Modifier.reads (modifier : Modifier) :
    ∃ sign, IsSign sign modifier ∧ ∀ {rest kinds}, Lexes rest kinds [] →
      Lexes (modifier.print ++ rest) (sign.map Token.kind ++ kinds) [] := by
  cases modifier with
  | none => exact ⟨[], .none, id⟩
  | lowByte => exact ⟨[bare .less], .low rfl, lexes_punctuation rfl⟩
  | highByte => exact ⟨[bare .greater], .high rfl, lexes_punctuation rfl⟩

theorem Grammar.IsTerm.eq_name {t : Token} {read term : Term} {name : String} (h : IsTerm t read)
    (hname : t.kind = .identifier name) (hsame : read.untagged = term.untagged) :
    ∃ tag, term = .name tag name := by
  cases h with
  | number hkind => rw [hname] at hkind; cases hkind
  | name hkind =>
      rw [hname] at hkind
      cases hkind
      cases term with
      | number => cases hsame
      | name tag word => cases hsame; exact ⟨tag, rfl⟩

theorem Operand.stops_print (operand : Operand) : Stops isNameChar operand.print := by
  unfold Operand.print
  split <;> simp <;> decide

/-- An operand that can be written is read back. -/
theorem Operand.Writable.reads (h : operand.Writable mnemonic) :
    ∃ tokens read, Lexes operand.print (tokens.map Token.kind) [] ∧
      IsOperand (TakesAccumulator mnemonic) tokens read ∧ read.untagged = operand.untagged := by
  obtain ⟨kind, modifier, term⟩ := operand
  cases term with
  | none =>
      obtain ⟨rfl, rfl⟩ := h
      exact ⟨[], _, .stop, .none, rfl⟩
  | some term =>
      obtain ⟨hkind, hterm, hmodifier, hlabel⟩ := h
      obtain ⟨t, read, hspells, hread, hsame⟩ := hterm.reads
      have hspace : isSpace ' ' = true := by decide
      have hx : Spells ['X'] (.identifier "X") :=
        @spells_name "X" ⟨by decide, List.forall_mem_nil _⟩
      have hy : Spells ['Y'] (.identifier "Y") :=
        @spells_name "Y" ⟨by decide, List.forall_mem_nil _⟩
      have hplain : untagged ⟨kind, modifier, some read⟩ =
          untagged ⟨kind, modifier, some term⟩ := by
        simp [untagged, hsame]
      cases kind with
      | none => exact (hkind rfl).elim
      | immediate =>
          obtain ⟨sign, hsign, hlexes⟩ := modifier.reads
          have hfield := lexes_punctuation (c := '#') rfl (hlexes hspells.lexes)
          exact ⟨bare .hash :: sign ++ [t], _, .space hspace (by simpa using hfield),
            .immediate rfl hsign hread, hplain⟩
      | address =>
          obtain ⟨sign, hsign, hlexes⟩ := modifier.reads
          have hfield := hlexes hspells.lexes
          refine ⟨sign ++ [t], _, .space hspace (by simpa using hfield),
            .address hsign hread ?_, hplain⟩
          -- an unsigned `A` behind such a mnemonic was ruled out
          rintro htakes rfl ⟨name, hname, hupper⟩
          cases hsign
          obtain ⟨tag, rfl⟩ := hread.eq_name hname hsame
          obtain ⟨hsmall, hcapital⟩ := hlabel htakes tag name rfl
          exact (Text.eq_of_upper_eq hupper).elim hsmall hcapital
      | absoluteX =>
          obtain rfl := hmodifier rfl
          exact ⟨[t, bare .comma, bare (.identifier "X")], _,
            .space hspace (hspells.punctuation rfl hx.lexes),
            .indexedX hread rfl ⟨"X", rfl, by decide⟩, hplain⟩
      | absoluteY =>
          obtain rfl := hmodifier rfl
          exact ⟨[t, bare .comma, bare (.identifier "Y")], _,
            .space hspace (hspells.punctuation rfl hy.lexes),
            .indexedY hread rfl ⟨"Y", rfl, by decide⟩, hplain⟩
      | indirect =>
          obtain rfl := hmodifier rfl
          exact ⟨[bare .leftParen, t, bare .rightParen], _,
            .space hspace (lexes_punctuation rfl (hspells.punctuation rfl .stop)),
            .indirect rfl hread rfl, hplain⟩
      | indirectX =>
          obtain rfl := hmodifier rfl
          have hindex : Lexes ['X', ')'] [.identifier "X", .rightParen] [] :=
            hx.punctuation rfl .stop
          exact ⟨[bare .leftParen, t, bare .comma, bare (.identifier "X"), bare .rightParen], _,
            .space hspace (lexes_punctuation rfl (hspells.punctuation rfl hindex)),
            .indirectX rfl hread rfl ⟨"X", rfl, by decide⟩ rfl, hplain⟩
      | indirectY =>
          obtain rfl := hmodifier rfl
          have hindex : Lexes [',', 'Y'] [.comma, .identifier "Y"] [] :=
            lexes_punctuation rfl hy.lexes
          exact ⟨[bare .leftParen, t, bare .rightParen, bare .comma, bare (.identifier "Y")], _,
            .space hspace (lexes_punctuation rfl (hspells.punctuation rfl hindex)),
            .indirectY rfl hread rfl rfl ⟨"Y", rfl, by decide⟩, hplain⟩

/-- Literals that can be written are read back. -/
theorem Number.reads_printAll {values : List Number} (hne : values ≠ [])
    (h : ∀ n ∈ values, n.Consistent) :
    ∃ tokens, Lexes (Number.printAll values) (tokens.map Token.kind) [] ∧
      IsNumbers tokens values := by
  induction values with
  | nil => exact (hne rfl).elim
  | cons n values ih =>
      obtain ⟨hn, hvalues⟩ := List.forall_mem_cons.1 h
      cases values with
      | nil =>
          refine ⟨[bare (.number n)], ?_, .one rfl⟩
          simpa [printAll] using (spells_number hn).lexes
      | cons next values =>
          obtain ⟨tokens, hlexes, hnumbers⟩ := ih (List.cons_ne_nil next values) hvalues
          have hall := (spells_number hn).punctuation (c := ',') rfl
            (.space (c := ' ') (by decide) hlexes)
          refine ⟨bare (.number n) :: bare .comma :: tokens, ?_, .more rfl rfl hnumbers⟩
          simpa [printAll, List.intercalate_cons_cons] using hall

theorem Directive.lexes_print (directive : Directive) {argument : List Char}
    {kinds : List TokenKind} (h : Lexes argument kinds []) :
    Lexes (directive.print argument) (.directive directive.name :: kinds) [] :=
  spells_directive (by simp; decide) (.space (by decide) h)

theorem isLine_of_isBody {tokens : List Token} {s : Statement} (h : IsBody tokens [s]) :
    IsLine tokens [s] := by
  simpa using IsLine.line .none h .none

/-- A statement that can be written is read back. -/
theorem Statement.Writable.reads {s : Statement} (h : s.Writable) :
    ∃ tokens read, Lexes s.print (tokens.map Token.kind) [] ∧ IsLine tokens [read] ∧
      read.untagged = s.untagged := by
  cases s with
  | comment tag =>
      have hlexeme : Lexeme [] (.comment "") [';'] := .comment (List.forall_mem_nil _) (stops_nil _)
      exact ⟨[bare (.comment "")], _, .lexeme hlexeme .stop,
        .line .none .none (.comment rfl), rfl⟩
  | label tag name =>
      exact ⟨[bare (.identifier name), bare .colon], _, (spells_name h).punctuation rfl .stop,
        .line (.label rfl rfl) .none .none, rfl⟩
  | instruction tag mnemonic operand =>
      obtain ⟨hname, hoperand⟩ := h
      obtain ⟨tokens, read, hlexes, hread, hsame⟩ := hoperand.reads
      exact ⟨bare (.identifier mnemonic) :: tokens, _,
        spells_name hname operand.stops_print hlexes,
        isLine_of_isBody (.instruction rfl hread), by simp [untagged, hsame]⟩
  | org tag address =>
      exact ⟨[bare (.directive "org"), bare (.number address)], _,
        Directive.org.lexes_print (spells_number h).lexes,
        isLine_of_isBody (.directive (.org rfl rfl)), rfl⟩
  | pad tag address =>
      exact ⟨[bare (.directive "pad"), bare (.number address)], _,
        Directive.pad.lexes_print (spells_number h).lexes,
        isLine_of_isBody (.directive (.pad rfl rfl)), rfl⟩
  | bytes tag values =>
      obtain ⟨tokens, hlexes, hnumbers⟩ := Number.reads_printAll h.1 h.2
      exact ⟨bare (.directive "byte") :: tokens, _, Directive.byte.lexes_print hlexes,
        isLine_of_isBody (.directive (.byte rfl hnumbers)), rfl⟩
  | words tag values =>
      obtain ⟨tokens, hlexes, hnumbers⟩ := Number.reads_printAll h.1 h.2
      exact ⟨bare (.directive "word") :: tokens, _, Directive.word.lexes_print hlexes,
        isLine_of_isBody (.directive (.word rfl hnumbers)), rfl⟩
  | vector tag target =>
      exact ⟨[bare (.directive "vector"), bare (.identifier target)], _,
        Directive.vector.lexes_print (spells_name h).lexes,
        isLine_of_isBody (.directive (.vector rfl rfl)), rfl⟩
  | includeFile tag path =>
      exact ⟨[bare (.directive "include"), bare (.string path)], _,
        Directive.includeFile.lexes_print (lexes_string h.1 h.2),
        isLine_of_isBody (.directive (.includeFile rfl rfl)), rfl⟩
  | unknown => exact h.elim

end Parts

/-! ## Lines -/

theorem Token.IsName.newline_not_mem {name : List Char} (h : IsName name) : '\n' ∉ name := by
  intro hmem
  have hchar := h.isNameChar '\n' hmem
  exact absurd hchar (by decide)

theorem Number.newline_not_mem_print (n : Number) : '\n' ∉ n.print := by
  rw [Number.print, List.mem_cons, not_or]
  refine ⟨by decide, fun hmem => ?_⟩
  have hdigit := Text.isHexDigit_of_mem_hex _ _ '\n' hmem
  exact absurd hdigit (by decide)

theorem Number.newline_not_mem_printAll (values : List Number) : '\n' ∉ Number.printAll values := by
  induction values with
  | nil => exact List.not_mem_nil
  | cons n values ih =>
      cases values with
      | nil => simpa [printAll] using n.newline_not_mem_print
      | cons next values =>
          simpa [printAll, List.intercalate_cons_cons, n.newline_not_mem_print] using ih

theorem Term.Writable.newline_not_mem_print {term : Term} (h : term.Writable) :
    '\n' ∉ term.print := by
  cases term with
  | number tag n => exact n.newline_not_mem_print
  | name tag word => exact Token.IsName.newline_not_mem h

theorem Operand.Writable.newline_not_mem_print {mnemonic : String} {operand : Operand}
    (h : operand.Writable mnemonic) : '\n' ∉ operand.print := by
  obtain ⟨kind, modifier, term⟩ := operand
  cases term with
  | none => exact List.not_mem_nil
  | some term =>
      have hterm := h.2.1.newline_not_mem_print
      have hsign : '\n' ∉ modifier.print := by cases modifier <;> decide
      cases kind <;> simp [Operand.print, hterm, hsign]

theorem Directive.newline_not_mem_print (directive : Directive) {argument : List Char}
    (h : '\n' ∉ argument) : '\n' ∉ directive.print argument := by
  have hname : '\n' ∉ directive.name.toList := by cases directive <;> decide
  simp [Directive.print, hname, h]

theorem Statement.Writable.newline_not_mem_print {s : Statement} (h : s.Writable) :
    '\n' ∉ s.print := by
  cases s with
  | comment tag => simp [print]
  | label tag name => simpa [print] using Token.IsName.newline_not_mem h
  | instruction tag mnemonic operand =>
      simp [print, h.1.newline_not_mem, h.2.newline_not_mem_print]
  | org tag address => exact Directive.org.newline_not_mem_print address.newline_not_mem_print
  | pad tag address => exact Directive.pad.newline_not_mem_print address.newline_not_mem_print
  | bytes tag values =>
      exact Directive.byte.newline_not_mem_print (Number.newline_not_mem_printAll values)
  | words tag values =>
      exact Directive.word.newline_not_mem_print (Number.newline_not_mem_printAll values)
  | vector tag target =>
      exact Directive.vector.newline_not_mem_print (Token.IsName.newline_not_mem h)
  | includeFile tag path =>
      exact Directive.includeFile.newline_not_mem_print (by simp [h.2])
  | unknown => exact h.elim

/-- A statement that can be written says itself. -/
theorem Statement.Writable.says {s : Statement} (h : s.Writable) : Says s.print [s.untagged] := by
  obtain ⟨tokens, read, hlexes, hline, hsame⟩ := h.reads
  rw [says_line_iff h.newline_not_mem_print, ← hsame]
  exact ⟨_, hlexes, .of_isLine hline⟩

/-- Statements that can be written, written one on a line, are read as the same statements, places
apart. -/
theorem parse_printAll (unit : Int) {statements : List Statement}
    (h : ∀ s ∈ statements, s.Writable) :
    ∃ read, Statement.parse unit (Statement.printAll statements) = .ok read ∧
      read.map Statement.untagged = statements.map Statement.untagged := by
  rw [← Statement.says_iff_parse]
  induction statements with
  | nil => exact (Statement.says_iff_parse unit).2 ⟨[], rfl, rfl⟩
  | cons s statements ih =>
      obtain ⟨hs, hrest⟩ := List.forall_mem_cons.1 h
      rw [Statement.printAll, List.flatMap_cons, List.append_assoc]
      exact Statement.says_join_iff.2 ⟨[s.untagged], _, hs.says, ih hrest, rfl⟩

/-- A loop over a table, written and read back. -/
theorem printed_loop_reads_back :
    ∃ statements,
      Statement.printAll statements =
        "loop:\nasl ($10),Y\nlda #<table\n.byte $01, $FF\n.word $000A\n.org $12345\n".toList ∧
      (∀ s ∈ statements, s.Writable) ∧
      ∃ read, Statement.parse 7 (Statement.printAll statements) = .ok read ∧
        read.map Statement.untagged = statements.map Statement.untagged := by
  have hwritable : ∀ s ∈ ([.label none "loop",
      .instruction none "asl" (.plain .indirectY (.number none ⟨.byte, 0x10⟩)),
      .instruction none "lda" ⟨.immediate, .lowByte, some (.name none "table")⟩,
      .bytes none [⟨.byte, 1⟩, ⟨.byte, 0xFF⟩], .words none [⟨.word, 10⟩],
      .org none ⟨.invalid, 0x12345⟩] : List Statement), s.Writable := by
    simp [Statement.Writable, Operand.Writable, Operand.plain, Term.Writable, Token.IsName,
      Number.Consistent, OperandKind.takesModifier]
    decide
  exact ⟨_, rfl, hwritable, parse_printAll 7 hwritable⟩

end Asm65
