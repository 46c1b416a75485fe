import Mathlib.Data.Nat.Digits.Defs
import Asm65.Proofs.Assembly
import Asm65.Proofs.Derivations
import Asm65.Proofs.Selection

/-!
# Literals are exact

The value of a literal is the positional value of the digits that stand in the text, however many
there are, and its width says how many bytes it takes.  No byte of it is lost on the way into an
image: read with the lowest byte first, the bytes of an operand, of a byte constant and of a word
constant have the value of the literal they come from.
-/

namespace Asm65

/-- How wide a literal is, where it is known what counts as a byte. -/
structure Number.Measured (byte : Prop) (n : Number) : Prop where
  byte_iff : n.width = .byte ↔ byte
  word_iff : n.width = .word ↔ ¬ byte ∧ n.value ≤ 0xFFFF
  invalid_iff : n.width = .invalid ↔ ¬ byte ∧ 0xFFFF < n.value

/-! ## Digits -/

/-- The ways to write a literal. -/
inductive Radix
  | hexadecimal
  | binary
  | decimal
deriving DecidableEq, Repr

namespace Radix

/-- The mark in front of the digits. -/
def mark : Radix → List Char
  | hexadecimal => ['$']
  | binary => ['%']
  | decimal => []

def base : Radix → Nat
  | hexadecimal => 16
  | binary => 2
  | decimal => 10

/-- The value of a digit.  Decimal digits are those of any script. -/
def digit? : Radix → Char → Option Nat
  | hexadecimal, c => "0123456789abcdef".toList.idxOf? c.toLower
  | binary, c => "01".toList.idxOf? c
  | decimal, c => Text.decimalValue? c

/-- The positional value of a row of digits. -/
def value (radix : Radix) (digits : List Char) : Nat :=
  Nat.ofDigits radix.base (digits.reverse.map fun c => (radix.digit? c).getD 0)

/-- Whether a literal of some digits and some value is a byte. -/
def IsByte (digits : Nat) (value : Nat) : Radix → Prop
  | hexadecimal => digits ≤ 2
  | binary => digits ≤ 8
  | decimal => value ≤ 0xFF

/-- The digits, up to where they end, that a literal is written with. -/
structure Spells (radix : Radix) (digits rest : List Char) (n : Number) : Prop where
  ne_nil : digits ≠ []
  isDigit : ∀ c ∈ digits, (radix.digit? c).isSome = true
  stops : ∀ c ∈ rest.head?, radix.digit? c = none
  value_eq : n.value = radix.value digits
  measured : n.Measured (radix.IsByte digits.length (radix.value digits))

theorem digit?_hexadecimal (c : Char) :
    digit? hexadecimal c = if Text.isHexDigit c then some (Text.hexValue c) else none := by
  by_cases hascii : c.toNat < 128
  · exact Token.forall_ascii
      (fun c => digit? hexadecimal c =
        if Text.isHexDigit c then some (Text.hexValue c) else none) (by decide +kernel) hascii
  · -- no character behind the ASCII ones is a digit, in either reading
    have hbehind (d : Char) (hd : d.toNat < 128) : ¬ c ≤ d := fun hle =>
      hascii (Nat.lt_of_le_of_lt hle hd)
    have hnone : Text.isHexDigit c = false := by
      simp [Text.isHexDigit, hbehind '9' (by decide), hbehind 'f' (by decide),
        hbehind 'F' (by decide)]
    have hlower : c.toLower = c := by
      unfold Char.toLower
      rw [dif_neg fun hcapital => hbehind 'Z' (by decide) hcapital.2]
    have hrow : "0123456789abcdef".toList.all (fun d => d.toNat < 128) = true := by decide
    rw [hnone, digit?, hlower]
    apply List.idxOf?_eq_none_iff.2
    intro hmem
    exact hascii (of_decide_eq_true (List.all_eq_true.1 hrow c hmem))

theorem digit?_binary (c : Char) :
    digit? binary c = if Text.isBinaryDigit c then some (Text.hexValue c) else none := by
  by_cases hzero : c = '0'
  · subst hzero
    decide
  · by_cases hone : c = '1'
    · subst hone
      decide
    · simp [digit?, Text.isBinaryDigit, hzero, hone]

/-- A digit is smaller than the base. -/
theorem lt_base {radix : Radix} {c : Char} {d : Nat} (h : radix.digit? c = some d) :
    d < radix.base := by
  cases radix with
  | hexadecimal =>
      obtain ⟨hlength, -⟩ := List.idxOf?_eq_some_iff.1 h
      exact hlength
  | binary =>
      obtain ⟨hlength, -⟩ := List.idxOf?_eq_some_iff.1 h
      exact hlength
  | decimal =>
      simp only [digit?, Text.decimalValue?, Option.map_eq_some_iff] at h
      obtain ⟨first, hfind, rfl⟩ := h
      have hnear := List.find?_some hfind
      simp only [Bool.and_eq_true, decide_eq_true_eq] at hnear
      show c.toNat - first < 10
      omega

theorem value_lt (radix : Radix) (digits : List Char) :
    radix.value digits < radix.base ^ digits.length := by
  have hbase : 1 < radix.base := by cases radix <;> decide
  have hsmall : ∀ d ∈ digits.reverse.map fun c => (radix.digit? c).getD 0, d < radix.base := by
    intro d hd
    obtain ⟨c, -, rfl⟩ := List.mem_map.1 hd
    cases hc : radix.digit? c with
    | none => exact Nat.lt_of_succ_lt hbase
    | some d => exact lt_base hc
  have hlt := Nat.ofDigits_lt_base_pow_length hbase hsmall
  rwa [List.length_map, List.length_reverse] at hlt

theorem positional_eq_value {radix : Radix} {digits : List Char} {digit : Char → Nat}
    (h : ∀ c ∈ digits, (radix.digit? c).getD 0 = digit c) :
    Text.positional radix.base (digits.map digit) = radix.value digits := by
  have hdigits : digits.map digit = digits.map fun c => (radix.digit? c).getD 0 :=
    List.map_congr_left fun c hc => (h c hc).symm
  rw [hdigits, Text.positional, Text.valueByPairs_eq_foldr, value, Nat.ofDigits_eq_foldr,
    List.map_reverse]
  rfl

end Radix

/-! ## Spellings -/

namespace Number

/-- The literal of a value, with the width that the value allows unless it is a byte. -/
def graded (byte : Prop) [Decidable byte] (value : Nat) : Number :=
  if byte then ⟨.byte, value⟩ else if value ≤ 0xFFFF then ⟨.word, value⟩ else ⟨.invalid, value⟩

theorem value_graded (byte : Prop) [Decidable byte] (value : Nat) :
    (graded byte value).value = value := by
  unfold graded
  split
  · rfl
  · split <;> rfl

theorem measured_graded (byte : Prop) [Decidable byte] (value : Nat) :
    (graded byte value).Measured byte := by
  by_cases hbyte : byte
  · exact ⟨by simp [graded, hbyte], by simp [graded, hbyte], by simp [graded, hbyte]⟩
  · by_cases hword : value ≤ 0xFFFF
    · have hsmall : (value : Int) ≤ 0xFFFF := by omega
      exact ⟨by simp [graded, hbyte, hword], by simp [graded, hbyte, hword, hsmall],
        by simp [graded, hbyte, hword]⟩
    · have hlarge : ¬ (value : Int) ≤ 0xFFFF := by omega
      exact ⟨by simp [graded, hbyte, hword], by simp [graded, hbyte, hword, hlarge],
        by simp [graded, hbyte, hword, Int.not_le.1 hlarge]⟩

/-- Where few digits make a byte, no other test is needed. -/
theorem ofDigits_eq_graded {byteDigits count value : Nat}
    (h : count ≤ byteDigits → value ≤ 0xFF) :
    ofDigits byteDigits count value = graded (count ≤ byteDigits) value := by
  simp only [ofDigits, graded, and_iff_left_of_imp h]

theorem ofValue_eq_graded (value : Nat) : ofValue value = graded (value ≤ 0xFF) value := by
  have hbyte : 0 ≤ (value : Int) ∧ (value : Int) ≤ 0xFF ↔ value ≤ 0xFF := by omega
  have hword : 0 ≤ (value : Int) ∧ (value : Int) ≤ 0xFFFF ↔ value ≤ 0xFFFF := by omega
  simp only [ofValue, graded, hbyte, hword]

end Number

/-- Digits of a fixed count of bits spell the literal of their value. -/
theorem Radix.spells_ofDigits {radix : Radix} {isIn : Char → Bool} {byteDigits : Nat}
    {digits rest : List Char}
    (hdigit : ∀ c, radix.digit? c = if isIn c then some (Text.hexValue c) else none)
    (hbase : radix.base ^ byteDigits = 0x100)
    (hbyte : radix.IsByte digits.length (radix.value digits) = (digits.length ≤ byteDigits))
    (hne : digits ≠ []) (hdigits : ∀ c ∈ digits, isIn c = true) (hstop : Token.Stops isIn rest) :
    radix.Spells digits rest
      (.ofDigits byteDigits digits.length
        (Text.positional radix.base (digits.map Text.hexValue))) := by
  have hsome (c : Char) (hc : c ∈ digits) : radix.digit? c = some (Text.hexValue c) := by
    rw [hdigit, if_pos (hdigits c hc)]
  have hvalue : Text.positional radix.base (digits.map Text.hexValue) = radix.value digits := by
    apply positional_eq_value
    intro c hc
    rw [hsome c hc, Option.getD_some]
  have hfits : digits.length ≤ byteDigits → radix.value digits ≤ 0xFF := by
    intro hfew
    have hpow : radix.base ^ digits.length ≤ radix.base ^ byteDigits :=
      Nat.pow_le_pow_right (by cases radix <;> decide) hfew
    have hlt := radix.value_lt digits
    omega
  rw [hvalue, Number.ofDigits_eq_graded hfits]
  refine ⟨hne, ?_, ?_, Number.value_graded _ _, ?_⟩
  · intro c hc
    rw [hsome c hc, Option.isSome_some]
  · intro c hc
    rw [hdigit, hstop c hc]
    rfl
  · rw [hbyte]
    exact Number.measured_graded _ _

/-- Decimal digits spell the literal of their value. -/
theorem Radix.spells_ofValue {digits rest : List Char} (hnumeral : Token.IsNumeral digits rest)
    (hdecimal : Token.IsDecimal digits) :
    Radix.decimal.Spells digits rest (.ofValue (Token.decimalValue digits)) := by
  have hvalue : Token.decimalValue digits = Radix.decimal.value digits :=
    @positional_eq_value .decimal digits _ fun _ _ => rfl
  rw [hvalue, Number.ofValue_eq_graded]
  refine ⟨hnumeral.ne_nil, hdecimal.digits, ?_, Number.value_graded _ _, ?_⟩
  · intro c hc
    have hstop := hnumeral.stops c hc
    simp only [Text.isDigit, Bool.or_eq_false_iff, Option.isSome_eq_false_iff] at hstop
    exact Option.isNone_iff_eq_none.1 hstop.1
  · show Number.Measured (Radix.decimal.value digits ≤ 0xFF) _
    exact Number.measured_graded _ _

namespace Token

/-- The lexeme of a literal is the mark of its notation and the digits that spell it. -/
theorem Lexeme.exists_spells {rest lexeme : List Char} {n : Number}
    (h : Lexeme rest (.number n) lexeme) :
    ∃ radix : Radix, ∃ digits, lexeme = radix.mark ++ digits ∧ radix.Spells digits rest n := by
  generalize hkind : TokenKind.number n = kind at h
  cases h with
  | hexadecimal hne hdigits hstop =>
      cases hkind
      exact ⟨.hexadecimal, _, rfl, Radix.spells_ofDigits Radix.digit?_hexadecimal (by decide) rfl
        hne hdigits hstop⟩
  | binary hne hdigits hstop =>
      cases hkind
      exact ⟨.binary, _, rfl, Radix.spells_ofDigits Radix.digit?_binary (by decide) rfl
        hne hdigits hstop⟩
  | decimal hnumeral hdecimal =>
      cases hkind
      exact ⟨.decimal, _, rfl, Radix.spells_ofValue hnumeral hdecimal⟩
  | punctuation hmark =>
      subst hkind
      have hmem := mem_of_punctuation? hmark
      simp at hmem
  | _ => cases hkind

/-- A token stands in a text where its lexeme does; the end of a text has no lexeme. -/
def StandsIn (text : List Char) (t : Token) : Prop :=
  t.kind = .eof ∨ ∃ lexeme rest, text.drop t.offset = lexeme ++ rest ∧ Lexeme rest t.kind lexeme

/-- The tokens found so far and those of the rest of the text stand in the text. -/
theorem scanFrom_standsIn {unit : Int} {whole text : List Char} {position : Cursor} {owed : Nat}
    {found : List Token} (hfound : ∀ t ∈ found, t.StandsIn whole)
    (hplace : whole.drop position.offset = text) :
    ∀ t ∈ (scanFrom unit position owed found text).tokens, t.StandsIn whole := by
  -- what is left of the text is what stands behind the reading position
  induction text generalizing position owed found with
  | nil =>
      intro t ht
      simp only [scanFrom, List.mem_reverse, List.mem_cons] at ht
      rcases ht with rfl | ht
      · exact Or.inl rfl
      · exact hfound t ht
  | cons c rest ih =>
      have hnext : whole.drop (position.advance c).offset = rest := by
        rw [advance_offset, ← List.drop_drop, hplace, List.drop_succ_cons, List.drop_zero]
      unfold scanFrom
      split
      · exact ih hfound hnext
      · split
        · exact ih hfound hnext
        · split
          · next kind more hlexeme =>
              refine ih (List.forall_mem_cons.2 ⟨Or.inr ?_, hfound⟩) hnext
              refine ⟨c :: rest.take more, rest.drop more, ?_, ?_⟩
              · show whole.drop position.offset = _
                rw [hplace, List.cons_append, List.take_append_drop]
              · apply scanLexeme_eq_ok_iff.1
                rwa [List.take_append_drop, List.length_take_of_le (scanLexeme_le hlexeme)]
          · intro t ht
            exact hfound t (List.mem_reverse.1 ht)

/-- The digits of a literal stand in the text where its token does. -/
theorem scan_spells {unit : Int} {text : List Char} {t : Token} {n : Number}
    (ht : t ∈ (scan unit text).tokens) (hkind : t.kind = .number n) :
    ∃ radix : Radix, ∃ digits rest, text.drop t.offset = radix.mark ++ digits ++ rest ∧
      radix.Spells digits rest n := by
  have hstands := scanFrom_standsIn (List.forall_mem_nil _) (List.drop_zero) t ht
  rw [StandsIn, hkind] at hstands
  rcases hstands with ⟨⟨⟩⟩ | ⟨lexeme, rest, hplace, hlexeme⟩
  obtain ⟨radix, digits, rfl, hspells⟩ := hlexeme.exists_spells
  exact ⟨radix, digits, rest, hplace, hspells⟩

end Token

/-! ## Literals of statements -/

def Term.literals : Term → List Number
  | .number _ n => [n]
  | .name _ _ => []

/-- The literals that a statement is written with. -/
def Statement.literals : Statement → List Number
  | .instruction _ _ operand => (operand.term.map Term.literals).getD []
  | .org _ n | .pad _ n => [n]
  | .bytes _ values | .words _ values => values
  | _ => []

namespace Grammar

variable {tokens : List Token} {n : Number}

theorem IsTerm.kind_of_literal {t : Token} {term : Term} (h : IsTerm t term)
    (hn : n ∈ term.literals) : t.kind = .number n := by
  cases h with
  | number hkind =>
      cases List.mem_singleton.1 hn
      exact hkind
  | name hkind => cases hn

/-- The literal of an operand is one of its tokens. -/
theorem IsOperand.exists_token {takes : Prop} {operand : Operand}
    (h : IsOperand takes tokens operand) (hn : n ∈ (operand.term.map Term.literals).getD []) :
    ∃ t ∈ tokens, t.kind = .number n := by
  cases h with
  | none => cases hn
  | accumulator htakes ha => cases hn
  | immediate hhash hsign hterm => exact ⟨_, by simp, hterm.kind_of_literal hn⟩
  | address hsign hterm hlabel => exact ⟨_, by simp, hterm.kind_of_literal hn⟩
  | indexedX hterm hcomma hx => exact ⟨_, by simp, hterm.kind_of_literal hn⟩
  | indexedY hterm hcomma hy => exact ⟨_, by simp, hterm.kind_of_literal hn⟩
  | indirect hleft hterm hright => exact ⟨_, by simp, hterm.kind_of_literal hn⟩
  | indirectX hleft hterm hcomma hx hright => exact ⟨_, by simp, hterm.kind_of_literal hn⟩
  | indirectY hleft hterm hright hcomma hy => exact ⟨_, by simp, hterm.kind_of_literal hn⟩

theorem IsNumbers.exists_token {values : List Number} (h : IsNumbers tokens values)
    (hn : n ∈ values) : ∃ t ∈ tokens, t.kind = .number n := by
  induction h with
  | one hkind =>
      cases List.mem_singleton.1 hn
      exact ⟨_, List.mem_singleton_self _, hkind⟩
  | more hkind hcomma _ ih =>
      rcases List.mem_cons.1 hn with rfl | hn
      · exact ⟨_, List.mem_cons_self, hkind⟩
      · obtain ⟨t, ht, hkind⟩ := ih hn
        exact ⟨t, List.mem_cons_of_mem _ (List.mem_cons_of_mem _ ht), hkind⟩

theorem IsDirective.exists_token {s : Statement} (h : IsDirective tokens s)
    (hn : n ∈ s.literals) : ∃ t ∈ tokens, t.kind = .number n := by
  cases h with
  | @org d t m hname hkind =>
      cases List.mem_singleton.1 hn
      exact ⟨t, by simp, hkind⟩
  | @pad d t m hname hkind =>
      cases List.mem_singleton.1 hn
      exact ⟨t, by simp, hkind⟩
  | byte hname hvalues =>
      obtain ⟨t, ht, hkind⟩ := hvalues.exists_token hn
      exact ⟨t, List.mem_cons_of_mem _ ht, hkind⟩
  | word hname hvalues =>
      obtain ⟨t, ht, hkind⟩ := hvalues.exists_token hn
      exact ⟨t, List.mem_cons_of_mem _ ht, hkind⟩
  | vector hname hkind => cases hn
  | includeFile hname hkind => cases hn

theorem IsBody.exists_token {read : List Statement} {s : Statement} (h : IsBody tokens read)
    (hs : s ∈ read) (hn : n ∈ s.literals) : ∃ t ∈ tokens, t.kind = .number n := by
  cases h with
  | none => cases hs
  | instruction hkind hoperand =>
      cases List.mem_singleton.1 hs
      obtain ⟨t, ht, hkind⟩ := hoperand.exists_token hn
      exact ⟨t, List.mem_cons_of_mem _ ht, hkind⟩
  | directive hdirective =>
      cases List.mem_singleton.1 hs
      exact hdirective.exists_token hn

/-- The literals of a line are among its tokens; a label and a comment have none. -/
theorem IsLine.exists_token {read : List Statement} {s : Statement} (h : IsLine tokens read)
    (hs : s ∈ read) (hn : n ∈ s.literals) : ∃ t ∈ tokens, t.kind = .number n := by
  obtain @⟨_, _, _, _, bodies, _, hlabel, hbody, hcomment⟩ := h
  have hbodies : s ∈ bodies := by
    split at hs
    · cases hcomment with
      | none => cases hs
      | comment hkind =>
          cases List.mem_singleton.1 hs
          cases hn
    · rcases List.mem_append.1 hs with hs | hs
      · cases hlabel with
        | none => cases hs
        | label hkind hcolon =>
            cases List.mem_singleton.1 hs
            cases hn
      · exact hs
  obtain ⟨t, ht, hkind⟩ := hbody.exists_token hbodies hn
  exact ⟨t, by simp [ht], hkind⟩

end Grammar

/-- The literals of the statements of a text are among its tokens. -/
theorem Statement.exists_token_of_parse {unit : Int} {text : List Char}
    {statements : List Statement} {s : Statement} {n : Number}
    (h : parse unit text = .ok statements) (hs : s ∈ statements) (hn : n ∈ s.literals) :
    ∃ t ∈ (Token.scan unit text).tokens, t.kind = .number n := by
  obtain ⟨line, part, hline, hpart, htokens⟩ := exists_line_of_parse h hs
  obtain ⟨t, ht, hkind⟩ := hline.exists_token hpart hn
  exact ⟨t, htokens t ht, hkind⟩

/-! ## Bytes -/

namespace Bytes

/-- The number that bytes stand for, lowest byte first. -/
def value (bytes : Bytes) : Nat :=
  Nat.ofDigits 256 (bytes.map UInt8.toNat)

theorem value_cons (b : UInt8) (bytes : Bytes) :
    value (b :: bytes) = b.toNat + 256 * value bytes := by
  simp only [value, List.map_cons, Nat.ofDigits_cons]

/-- A number that fits is read back from its bytes. -/
theorem value_littleEndian {width n : Nat} (h : n < 256 ^ width) :
    value (littleEndian width n) = n := by
  induction width generalizing n with
  | zero =>
      rw [Nat.lt_one_iff.1 h]
      rfl
  | succ width ih =>
      have hquotient : n / 256 < 256 ^ width := by
        rw [Nat.div_lt_iff_lt_mul (by decide), ← Nat.pow_succ]
        exact h
      rw [littleEndian, value_cons, ih hquotient, UInt8.toNat_ofNat']
      exact Nat.mod_add_div n 256

end Bytes

/-- A literal in a number of bytes, with nothing of its value lost. -/
structure Number.Held (n : Number) (size : Nat) (cell : Bytes) : Prop where
  length_eq : cell.length = size
  value_eq : (cell.value : Int) = n.value

theorem Number.held_littleEndian {n : Number} {size : Nat} (hlow : 0 ≤ n.value)
    (hhigh : n.value < 256 ^ size) : n.Held size (Bytes.littleEndian size n.value.toNat) where
  length_eq := Bytes.littleEndian_length _ _
  value_eq := by
    have hlt : n.value.toNat < 256 ^ size := by
      have hcast : ((256 ^ size : Nat) : Int) = 256 ^ size := by simp
      omega
    rw [Bytes.value_littleEndian hlt]
    omega

theorem Number.held_of_single {n : Number} {cell : Bytes} (h : Bytes.single n.value = .ok cell) :
    n.Held 1 cell := by
  unfold Bytes.single at h
  split at h
  · next hrange =>
      cases h
      exact held_littleEndian hrange.1 hrange.2
  · cases h

theorem Number.held_of_ofInt {n : Number} {width : Int} {cell : Bytes}
    (h : Bytes.ofInt width n.value = .ok cell) : n.Held width.toNat cell := by
  unfold Bytes.ofInt at h
  split at h
  · cases h
  · split at h
    · next hrange =>
        cases h
        have hlt := (Bytes.fits_iff_lt _ _).1 hrange.2
        have hcast : ((256 ^ width.toNat : Nat) : Int) = 256 ^ width.toNat := by simp
        exact held_littleEndian hrange.1 (by omega)
    · cases h

/-- Bytes that hold constants one after the other. -/
def Bytes.HoldAll (size : Nat) (values : List Number) (data : Bytes) : Prop :=
  ∃ cells, data = cells.flatten ∧ List.Forall₂ (fun n cell => n.Held size cell) values cells

theorem Bytes.HoldAll.cons {size : Nat} {values : List Number} {data cell : Bytes} {n : Number}
    (hcell : n.Held size cell) (h : data.HoldAll size values) :
    Bytes.HoldAll size (n :: values) (cell ++ data) := by
  obtain ⟨cells, rfl, hcells⟩ := h
  exact ⟨cell :: cells, rfl, .cons hcell hcells⟩

namespace Chunk

variable {tag : Option Tag} {values : List Number} {read data : Bytes}

/-- The bytes read so far stay in front. -/
theorem byteData_holdAll (h : byteData tag read values = .ok data) :
    ∃ added : Bytes, data = read.reverse ++ added ∧ added.HoldAll 1 values := by
  induction values generalizing read with
  | nil =>
      cases h
      exact ⟨[], (List.append_nil _).symm, [], rfl, .nil⟩
  | cons n rest ih =>
      simp only [byteData] at h
      split at h
      · split at h
        · next cell hcell =>
            obtain ⟨added, rfl, hadded⟩ := ih h
            exact ⟨cell ++ added, by simp, hadded.cons (Number.held_of_single hcell)⟩
        · cases h
      · cases h

theorem wordData_holdAll (h : wordData tag read values = .ok data) :
    ∃ added : Bytes, data = read.reverse ++ added ∧ added.HoldAll 2 values := by
  induction values generalizing read with
  | nil =>
      cases h
      exact ⟨[], (List.append_nil _).symm, [], rfl, .nil⟩
  | cons n rest ih =>
      simp only [wordData] at h
      split at h
      · cases h
      · split at h
        · next cell hcell =>
            obtain ⟨added, rfl, hadded⟩ := ih h
            exact ⟨cell ++ added, by simp, hadded.cons (Number.held_of_ofInt hcell)⟩
        · cases h

end Chunk

/-- What the bytes of an operand show of a literal: all of it, or the half of it that the modifier
asks for. -/
inductive Number.Shows (n : Number) : Modifier → Bytes → Prop
  | byte {b : UInt8} (hwidth : n.width = .byte) (hheld : n.Held 1 [b]) : Shows n .none [b]
  | word {low high : UInt8} (hwidth : n.width = .word) (hheld : n.Held 2 [low, high]) :
      Shows n .none [low, high]
  | lowByte {low high : UInt8} (hwidth : n.width = .word) (hheld : n.Held 2 [low, high]) :
      Shows n .lowByte [low]
  | highByte {low high : UInt8} (hwidth : n.width = .word) (hheld : n.Held 2 [low, high]) :
      Shows n .highByte [high]

namespace Number

variable {n : Number}

theorem Consistent.shows_byte (h : n.Consistent) (hwidth : n.width = .byte) :
    n.Shows .none (Bytes.littleEndian 1 n.value.toNat) := by
  simp only [Consistent, hwidth] at h
  exact .byte hwidth (held_littleEndian h.1 (Int.lt_add_one_of_le h.2))

theorem Consistent.shows_word (h : n.Consistent) (hwidth : n.width = .word) (modifier : Modifier) :
    n.Shows modifier (modifier.written n.value) := by
  have hspace : InSpace n.value := Statement.inSpace_of_word h hwidth _ rfl
  have hheld := @held_littleEndian n 2 hspace.1 hspace.2
  have hbytes : Bytes.littleEndian 2 n.value.toNat = Modifier.none.written n.value :=
    Modifier.littleEndian_held hspace .none
  rw [hbytes] at hheld
  cases modifier with
  | none => exact .word hwidth hheld
  | lowByte => exact .lowByte hwidth hheld
  | highByte => exact .highByte hwidth hheld

/-- The two halves of a word make up the word again. -/
theorem Shows.held_append {low high : Bytes} (hlow : n.Shows .lowByte low)
    (hhigh : n.Shows .highByte high) : n.Held 2 (low ++ high) := by
  have hpair (a b : UInt8) : Bytes.value [a, b] = a.toNat + 256 * b.toNat := by
    rw [Bytes.value_cons, Bytes.value_cons]
    rfl
  cases hlow with
  | @lowByte low other hwidth hheld =>
      cases hhigh with
      | @highByte another high hwidth hheld' =>
          -- both rest on the same value, and a value has one low and one high byte
          have hvalue := hheld.value_eq
          have hvalue' := hheld'.value_eq
          have hsmall := low.toNat_lt
          have hsmall' := another.toNat_lt
          rw [hpair] at hvalue hvalue'
          refine ⟨rfl, ?_⟩
          show (Bytes.value [low, high] : Int) = n.value
          rw [hpair]
          omega

end Number

namespace Param

variable {place : Option Tag} {n : Number} {modifier : Modifier} {mode : Mode} {param : Param}

theorem ofNumber_word (hwidth : n.width = .word) (hspace : InSpace n.value) :
    ofNumber place n modifier mode = .ok (.resolved mode (modifier.held n.value)) := by
  obtain ⟨hlow, hhigh⟩ := hspace
  have hmask : n.value % 0x10000 = n.value := Int.emod_eq_of_lt hlow hhigh
  have hhalf : n.value / 0x100 % 0x100 = n.value / 0x100 :=
    Int.emod_eq_of_lt (by omega) (by omega)
  simp only [ofNumber, hwidth]
  cases modifier with
  | none => simp only [OperandValue.word, Modifier.held, hmask]
  | lowByte =>
      simp only [OperandValue.word, OperandValue.byte, OperandValue.low, Modifier.held, hmask,
        Int.emod_emod]
  | highByte =>
      simp only [OperandValue.word, OperandValue.byte, OperandValue.high, Modifier.held, hmask,
        hhalf]

/-- No bit of a literal is masked away. -/
theorem ofNumber_shows (hn : n.Consistent) (h : ofNumber place n modifier mode = .ok param) :
    ∃ filled value, param = .resolved filled value ∧
      n.Shows modifier (Bytes.littleEndian value.width.toNat value.value.toNat) := by
  cases hwidth : n.width with
  | byte =>
      have hshows := hn.shows_byte hwidth
      simp only [Number.Consistent, hwidth] at hn
      have hmask : n.value % 0x100 = n.value := by omega
      simp only [ofNumber, hwidth] at h
      split at h
      · cases h
        refine ⟨_, _, rfl, ?_⟩
        rw [OperandValue.byte, hmask]
        exact hshows
      · cases h
  | word =>
      have hspace : InSpace n.value := Statement.inSpace_of_word hn hwidth _ rfl
      rw [ofNumber_word hwidth hspace] at h
      cases h
      refine ⟨_, _, rfl, ?_⟩
      rw [Modifier.littleEndian_held hspace]
      exact hn.shows_word hwidth modifier
  | invalid =>
      simp only [ofNumber, hwidth] at h
      cases h

end Param

/-! ## Bytes of statements -/

/-- The bytes of a statement in an image: as many as it asks for, behind those of the statements in
front of it. -/
def Output.bytesOf (output : Output) (front : List Statement) (s : Statement) : Bytes :=
  (output.code.drop (ImageWalk.across output.origin front).size).take s.size.toNat

/-- The bytes of an instruction behind its opcode. -/
def Output.operandOf (output : Output) (front : List Statement) (s : Statement) : Bytes :=
  (output.bytesOf front s).tail

namespace Program

variable {good : Tag → Prop} {front back : List Statement} {program : Program} {labels : Labels}
  {tag : Option Tag} {code : Bytes}

/-- The bytes of an instruction with a literal are its opcode and what the literal shows. -/
theorem image_literal {mnemonic : String} {kind : OperandKind} {modifier : Modifier}
    {place : Option Tag} {n : Number} {s : Statement}
    (hs : s = .instruction tag mnemonic ⟨kind, modifier, some (.number place n)⟩)
    (hform : ∀ u ∈ front ++ s :: back, u.WellFormed good)
    (hbuild : ofStatements (front ++ s :: back) = .ok program)
    (hlayout : (layout program).labels = .ok labels)
    (himage : image (layout program).program = .ok code) :
    ∃ opcode operand, n.Shows modifier operand ∧
      (code.drop (ImageWalk.across (origin (layout program).program) front).size).take
        s.size.toNat = opcode :: operand := by
  subst hs
  obtain ⟨-, hwritten⟩ := hform _ (List.mem_append_right front List.mem_cons_self)
  obtain ⟨opcode, param, mode, value, hmade, hresolved, hstarts, -⟩ :=
    image_instruction hform hbuild hlayout himage
  obtain ⟨operation, written, _, _, -, hoperand, hparam, hcode, hwidth, hop⟩ :=
    Chunk.ofInstruction_eq_ok hmade
  cases hop
  rw [Param.ofOperand_eq_ofTerm hwritten] at hoperand
  obtain ⟨filled, held, rfl, hshows⟩ := Param.ofNumber_shows hwritten.2.1.2 hoperand
  -- a branch gives the literal another mode, and the layout changes neither
  obtain ⟨settled, rfl⟩ : ∃ settled, param = .resolved settled held := by
    rw [hparam]
    split
    · exact ⟨.pcRelative, rfl⟩
    · exact ⟨filled, rfl⟩
  cases hresolved
  refine ⟨UInt8.ofNat opcode.value.toNat, _, hshows, ?_⟩
  have hlength : (Opcode.bytes opcode value).length = opcode.length.toNat := by
    have hpos := (Opcode.lookup?_inSet hcode).length_pos
    have hheld : value.width = opcode.length - 1 := hwidth
    rw [Opcode.bytes, List.length_cons, Bytes.littleEndian_length]
    omega
  have hsize : (Statement.instruction tag mnemonic
      ⟨kind, modifier, some (.number place n)⟩).size = opcode.length := by
    simp only [Statement.size, hmade]
  rw [hsize, ← hlength]
  exact (List.prefix_iff_eq_take.1 hstarts).symm

/-- The bytes of a statement with constants are the bytes of its chunk. -/
theorem image_data {s : Statement} {data : Bytes}
    (hform : ∀ u ∈ front ++ s :: back, u.WellFormed good)
    (hbuild : ofStatements (front ++ s :: back) = .ok program)
    (hlayout : (layout program).labels = .ok labels)
    (himage : image (layout program).program = .ok code)
    (hpiece : s.piece = .ok (some (.chunk (.bytes data)))) :
    (code.drop (ImageWalk.across (origin (layout program).program) front).size).take
      s.size.toNat = data := by
  obtain ⟨hstarts, -⟩ := image_statement hform hbuild hlayout himage hpiece
  rw [← origin_layout hform hbuild hlayout] at hstarts
  have hlength : data.length = s.size.toNat := by
    rw [← Statement.size_of_piece hpiece]
    exact (Int.toNat_natCast data.length).symm
  rw [← hlength]
  exact (List.prefix_iff_eq_take.1 hstarts).symm

end Program

namespace Session

variable {session : Session} {output : Output} {front : List Statement} {s : Statement}

/-- What a session that can be assembled has at a statement. -/
theorem Reachable.assemble_split (hreach : session.Reachable)
    (hdone : session.assemble.2 = .ok output) (hfront : front ++ [s] <+: output.statements) :
    ∃ back program, (∀ u ∈ front ++ s :: back, u.WellFormed session.units.Covers) ∧
      Program.ofStatements (front ++ s :: back) = .ok program ∧
      (Program.layout program).labels = .ok output.labels ∧
      Program.image (Program.layout program).program = .ok output.code ∧
      output.origin = Program.origin (Program.layout program).program := by
  obtain ⟨program, hbuild, hlayout, himage, hstatements, hprogram⟩ := assemble_ok hdone
  obtain ⟨back, hsplit⟩ := hfront
  rw [List.append_assoc, List.singleton_append, hstatements] at hsplit
  refine ⟨back, program, ?_, ?_, hlayout, himage, ?_⟩
  · rw [hsplit]
    exact hreach.covered
  · rw [hsplit]
    exact hbuild
  · rw [Output.origin, hprogram]

/-- The operand of an instruction shows its literal. -/
theorem Reachable.operandOf_shows {tag place : Option Tag} {mnemonic : String}
    {kind : OperandKind} {modifier : Modifier} {n : Number} (hreach : session.Reachable)
    (hdone : session.assemble.2 = .ok output)
    (hs : s = .instruction tag mnemonic ⟨kind, modifier, some (.number place n)⟩)
    (hfront : front ++ [s] <+: output.statements) :
    n.Shows modifier (output.operandOf front s) := by
  obtain ⟨back, program, hform, hbuild, hlayout, himage, horigin⟩ :=
    hreach.assemble_split hdone hfront
  obtain ⟨opcode, operand, hshows, hbytes⟩ := Program.image_literal hs hform hbuild hlayout himage
  rw [Output.operandOf, Output.bytesOf, horigin, hbytes]
  exact hshows

/-- The bytes of a statement that adds constants hold them, as its data do. -/
theorem Reachable.bytesOf_data {kept : Bytes → Prop} (hreach : session.Reachable)
    (hdone : session.assemble.2 = .ok output) (hfront : front ++ [s] <+: output.statements)
    (hdata : ∀ added, s.piece = .ok added →
      ∃ data, added = some (.chunk (.bytes data)) ∧ kept data) :
    kept (output.bytesOf front s) := by
  obtain ⟨back, program, hform, hbuild, hlayout, himage, horigin⟩ :=
    hreach.assemble_split hdone hfront
  obtain ⟨-, hall⟩ := Program.ofStatements_ok hbuild
  obtain ⟨added, hpiece⟩ := hall s (List.mem_append_right front List.mem_cons_self)
  obtain ⟨data, rfl, hkept⟩ := hdata added hpiece
  rw [Output.bytesOf, horigin, Program.image_data hform hbuild hlayout himage hpiece]
  exact hkept

end Session

/-- No literal loses a bit on its way into an image.  The operand of an instruction shows its
literal, the two halves of a literal make it up again, and constants are held as they are
written. -/
structure Output.KeepsLiterals (output : Output) : Prop where
  operand {front : List Statement} {tag place : Option Tag} {mnemonic : String}
    {kind : OperandKind} {modifier : Modifier} {n : Number} {s : Statement}
    (hs : s = .instruction tag mnemonic ⟨kind, modifier, some (.number place n)⟩)
    (hfront : front ++ [s] <+: output.statements) : n.Shows modifier (output.operandOf front s)
  halves {front front' : List Statement} {tag tag' place place' : Option Tag}
    {mnemonic mnemonic' : String} {kind kind' : OperandKind} {n : Number} {s s' : Statement}
    (hlow : s = .instruction tag mnemonic ⟨kind, .lowByte, some (.number place n)⟩)
    (hhigh : s' = .instruction tag' mnemonic' ⟨kind', .highByte, some (.number place' n)⟩)
    (hfront : front ++ [s] <+: output.statements)
    (hfront' : front' ++ [s'] <+: output.statements) :
    n.Held 2 (output.operandOf front s ++ output.operandOf front' s')
  bytes {front : List Statement} {tag : Option Tag} {values : List Number}
    (hfront : front ++ [.bytes tag values] <+: output.statements) :
    (output.bytesOf front (.bytes tag values)).HoldAll 1 values
  words {front : List Statement} {tag : Option Tag} {values : List Number}
    (hfront : front ++ [.words tag values] <+: output.statements) :
    (output.bytesOf front (.words tag values)).HoldAll 2 values

theorem Session.Reachable.keepsLiterals {session : Session} {output : Output}
    (hreach : session.Reachable) (hdone : session.assemble.2 = .ok output) :
    output.KeepsLiterals where
  operand hs hfront := hreach.operandOf_shows hdone hs hfront
  halves hlow hhigh hfront hfront' :=
    (hreach.operandOf_shows hdone hlow hfront).held_append
      (hreach.operandOf_shows hdone hhigh hfront')
  bytes hfront := by
    refine hreach.bytesOf_data hdone hfront fun added hpiece => ?_
    obtain ⟨data, hdata, hadded⟩ := bind_ok_inv hpiece
    obtain ⟨_, rfl, hheld⟩ := Chunk.byteData_holdAll hdata
    exact ⟨_, (Except.ok.inj hadded).symm, hheld⟩
  words hfront := by
    refine hreach.bytesOf_data hdone hfront fun added hpiece => ?_
    obtain ⟨data, hdata, hadded⟩ := bind_ok_inv hpiece
    obtain ⟨_, rfl, hheld⟩ := Chunk.wordData_holdAll hdata
    exact ⟨_, (Except.ok.inj hadded).symm, hheld⟩

/-- Literals are read exactly and never truncated.  At each literal of a text stand a mark and the
longest row of digits, which have its value and decide its width; the literals of the statements of
a text are those; and in an assembly that succeeds no byte of a literal is lost. -/
theorem literals_are_exact (unit : Int) (text : List Char) (session : Session) (output : Output) :
    (∀ t ∈ (Token.scan unit text).tokens, ∀ n, t.kind = .number n →
      ∃ radix : Radix, ∃ digits rest, text.drop t.offset = radix.mark ++ digits ++ rest ∧
        radix.Spells digits rest n) ∧
    (∀ statements, Statement.parse unit text = .ok statements →
      ∀ s ∈ statements, ∀ n ∈ s.literals,
        ∃ t ∈ (Token.scan unit text).tokens, t.kind = .number n) ∧
    (session.Reachable → session.assemble.2 = .ok output → output.KeepsLiterals) := by
  refine ⟨?_, ?_, ?_⟩
  · intro t ht n hkind
    exact Token.scan_spells ht hkind
  · intro statements hparse s hs n hn
    exact Statement.exists_token_of_parse hparse hs hn
  · intro hreach hdone
    exact hreach.keepsLiterals hdone

/-- Literals of both widths in all notations, and a word with leading zeros. -/
theorem literals_of_short_program_are_exact :
    ∃ session output,
      session = Session.ofText "lda #$2A\nsta $0200\nldx #<4660\nldy #>$1234\n.word %1, $C0DE" ∧
      session.Reachable ∧ session.assemble.2 = .ok output ∧
      output.code = [0xA9, 0x2A, 0x8D, 0x00, 0x02, 0xA2, 0x34, 0xA0, 0x12, 0x01, 0x00, 0xDE,
        0xC0] ∧ output.KeepsLiterals ∧
      ∃ radix : Radix, ∃ digits rest, "$00FF".toList = radix.mark ++ digits ++ rest ∧
        radix.Spells digits rest ⟨.word, 255⟩ := by
  let session := Session.ofText
    "lda #$2A\nsta $0200\nldx #<4660\nldy #>$1234\n.word %1, $C0DE"
  have hreach : session.Reachable := .addText _ _ _ (.start [])
  have hrun : session.assemble.2.toOption.map (fun output => output.code) =
      some [0xA9, 0x2A, 0x8D, 0x00, 0x02, 0xA2, 0x34, 0xA0, 0x12, 0x01, 0x00, 0xDE, 0xC0] := by
    decide +kernel
  cases hdone : session.assemble.2 with
  | error failure =>
      rw [hdone] at hrun
      cases hrun
  | ok output =>
      rw [hdone] at hrun
      obtain ⟨hspelled, -, hkept⟩ := literals_are_exact 0 "$00FF".toList session output
      exact ⟨session, output, rfl, hreach, hdone, Option.some.inj hrun, hkept hreach hdone,
        hspelled ⟨.number ⟨.word, 255⟩, 0, 0, 1, 1⟩ (by decide +kernel) _ rfl⟩

end Asm65
