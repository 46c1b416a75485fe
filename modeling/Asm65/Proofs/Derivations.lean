import Asm65.Proofs.Grammar
import Asm65.Proofs.SyntaxErrors

/-!
# Lines are read as they are derived

Productions and grammar meet one by one: what is read up to the end of a field can be derived, and
what can be derived is read so in front of the end of a field.  Hence a line is read exactly if it
can be derived, and it is read as the statements that the derivation gives; so no line can be
derived in two ways.  A text is read exactly if each of its lines can be derived.
-/

namespace Asm65

open Grammar

theorem ok_bind {failure α β : Type} (value : α) (next : α → Except failure β) :
    (Except.ok value >>= next) = next value :=
  rfl

namespace Reader

variable {last : Token} {tokens rest : List Token} {t : Token} {term : Term}

/-! ## Single tokens

The last token ends every field, so that none of these takes it. -/

theorem expect_eq_ok_iff {α : Type} {pick : Token → Option α} {problem : Problem} {value : α}
    (hlast : pick last = none) :
    expect pick problem last tokens = .ok (value, rest) ↔
      ∃ t, pick t = some value ∧ tokens = t :: rest := by
  constructor
  · intro h
    unfold expect at h
    split at h
    · next hpick =>
        cases h
        cases tokens with
        | nil => rw [current_nil, hlast] at hpick; cases hpick
        | cons t tail => exact ⟨t, hpick, rfl⟩
    · cases h
  · rintro ⟨t, hpick, rfl⟩
    simp only [expect, current_cons, hpick, List.tail_cons]

theorem number?_eq_some_iff {kind : TokenKind} {n : Number} :
    kind.number? = some n ↔ kind = .number n := by
  cases kind <;> simp [TokenKind.number?]

theorem word?_eq_some_iff {kind : TokenKind} {name : String} :
    kind.word? = some name ↔ kind = .identifier name := by
  cases kind <;> simp [TokenKind.word?]

theorem quoted?_eq_some_iff {kind : TokenKind} {text : String} :
    kind.quoted? = some text ↔ kind = .string text := by
  cases kind <;> simp [TokenKind.quoted?]

theorem term?_eq_some_iff : term? t = some term ↔ IsTerm t term := by
  constructor
  · intro h
    unfold term? at h
    split at h
    · next hkind => cases h; exact .number hkind
    · next hkind => cases h; exact .name hkind
    · cases h
  · rintro (hkind | hkind)
    · simp only [term?, hkind]
    · simp only [term?, hkind]

theorem closing?_eq_some_iff {found : Unit} :
    closing? t = some found ↔ t.kind = .rightParen := by
  unfold closing?
  split
  · next hkind => simp [hkind]
  · next hkind => simpa using hkind

theorem register?_eq_some_iff {name : String} {register : Register} :
    register? name = some register ↔ Text.upper name = register.letter := by
  unfold register?
  cases register with
  | x =>
      by_cases hx : Text.upper name = "X"
      · simp [hx, Register.letter]
      · by_cases hy : Text.upper name = "Y" <;> simp [hx, hy, Register.letter]
  | y =>
      by_cases hx : Text.upper name = "X"
      · simp [hx, Register.letter]
      · by_cases hy : Text.upper name = "Y" <;> simp [hx, hy, Register.letter]

theorem index?_eq_some_iff {register : Register} :
    index? t = some register ↔ IsWord register.letter t := by
  simp only [index?, Option.bind_eq_some_iff, word?_eq_some_iff, register?_eq_some_iff, IsWord]

section Single

variable (hlast : last.kind.endsField = true)

include hlast

theorem readTerm_eq_ok_iff :
    readTerm last tokens = .ok (term, rest) ↔ ∃ t, IsTerm t term ∧ tokens = t :: rest := by
  simp only [readTerm, expect_eq_ok_iff (term?_of_endsField hlast), term?_eq_some_iff]

theorem readClosing_eq_ok_iff {found : Unit} :
    readClosing last tokens = .ok (found, rest) ↔
      ∃ right, right.kind = .rightParen ∧ tokens = right :: rest := by
  simp only [readClosing, expect_eq_ok_iff (closing?_of_endsField hlast), closing?_eq_some_iff]

theorem readIndex_eq_ok_iff {register : Register} :
    readIndex last tokens = .ok (register, rest) ↔
      ∃ t, IsWord register.letter t ∧ tokens = t :: rest := by
  have hnone : index? last = none := by
    rw [index?, (payload_of_endsField hlast).2.1, Option.bind_none]
  simp only [readIndex, expect_eq_ok_iff hnone, index?_eq_some_iff]

theorem readRegister_eq_ok_iff {register found : Register} :
    readRegister register last tokens = .ok (found, rest) ↔
      found = register ∧ ∃ t, IsWord register.letter t ∧ tokens = t :: rest := by
  have hnone : (index? last).filter (· == register) = none := by
    rw [index?, (payload_of_endsField hlast).2.1, Option.bind_none, Option.filter_none]
  have hpick (t : Token) : (index? t).filter (· == register) = some found ↔
      found = register ∧ IsWord register.letter t := by
    simp only [Option.filter_eq_some_iff, index?_eq_some_iff, beq_iff_eq]
    constructor
    · rintro ⟨hword, rfl⟩
      exact ⟨rfl, hword⟩
    · rintro ⟨rfl, hword⟩
      exact ⟨hword, rfl⟩
  rw [readRegister, expect_eq_ok_iff]
  · simp only [hpick, and_assoc, exists_and_left]
  · exact hnone

theorem readNumber_eq_ok_iff {n : Number} :
    readNumber last tokens = .ok (n, rest) ↔ ∃ t, t.kind = .number n ∧ tokens = t :: rest := by
  rw [readNumber, expect_eq_ok_iff]
  · simp only [number?_eq_some_iff]
  · exact (payload_of_endsField hlast).1

theorem readLabelName_eq_ok_iff {name : String} :
    readLabelName last tokens = .ok (name, rest) ↔
      ∃ t, t.kind = .identifier name ∧ tokens = t :: rest := by
  rw [readLabelName, expect_eq_ok_iff]
  · simp only [word?_eq_some_iff]
  · exact (payload_of_endsField hlast).2.1

theorem readFileName_eq_ok_iff {path : String} :
    readFileName last tokens = .ok (path, rest) ↔
      ∃ t, t.kind = .string path ∧ tokens = t :: rest := by
  rw [readFileName, expect_eq_ok_iff]
  · simp only [quoted?_eq_some_iff]
  · exact (payload_of_endsField hlast).2.2

theorem afterComma?_eq_some_iff :
    afterComma? last tokens = some rest ↔
      ∃ comma, comma.kind = .comma ∧ tokens = comma :: rest := by
  cases tokens with
  | nil =>
      rw [afterComma?_of_atEndOfField (atEndOfField_nil hlast)]
      simp
  | cons t tail =>
      simp only [afterComma?, current_cons, List.tail_cons]
      split
      · next hkind => simp [hkind]
      · next hkind =>
          constructor
          · rintro ⟨⟩
          · rintro ⟨comma, hcomma, ⟨⟩⟩
            exact (hkind hcomma).elim

theorem readModifier_split (tokens : List Token) :
    ∃ sign, tokens = sign ++ (readModifier last tokens).2 ∧
      IsSign sign (readModifier last tokens).1 := by
  cases tokens with
  | nil =>
      rw [readModifier_of_atEndOfField (atEndOfField_nil hlast)]
      exact ⟨[], rfl, .none⟩
  | cons t tail =>
      simp only [readModifier, current_cons, List.tail_cons]
      split
      · next hkind => exact ⟨[t], rfl, .low hkind⟩
      · next hkind => exact ⟨[t], rfl, .high hkind⟩
      · exact ⟨[], rfl, .none⟩

end Single

theorem readModifier_of_isSign {sign : List Token} {modifier : Modifier}
    (hsign : IsSign sign modifier) (hterm : IsTerm t term) :
    readModifier last (sign ++ t :: rest) = (modifier, t :: rest) := by
  cases hsign with
  | none => cases hterm with
    | number hkind => simp only [List.nil_append, readModifier, current_cons, hkind]
    | name hkind => simp only [List.nil_append, readModifier, current_cons, hkind]
  | low hkind => simp [readModifier, hkind]
  | high hkind => simp [readModifier, hkind]

/-! ## Operands -/

section Operands

variable {accumulator : Bool} {operand : Operand} (hlast : last.kind.endsField = true)

theorem atEndOfField_cons_of_isTerm (hterm : IsTerm t term) :
    atEndOfField last (t :: rest) = false := by
  cases hterm with
  | number hkind => rw [atEndOfField, current_cons, hkind]; rfl
  | name hkind => rw [atEndOfField, current_cons, hkind]; rfl

/-- A bare term is not taken for the accumulator unless it is a bare `A`. -/
theorem afterAccumulator?_of_isTerm (hterm : IsTerm t term)
    (hlabel : atEndOfField last rest = true → ¬ IsWord "A" t) :
    afterAccumulator? last (t :: rest) = none := by
  rw [afterAccumulator?_cons]
  cases hterm with
  | number hkind => rw [hkind]
  | @name name hkind =>
      rw [hkind]
      refine if_neg ?_
      simp only [Bool.and_eq_true, beq_iff_eq, not_and]
      intro hname hend
      exact hlabel hend ⟨name, hkind, hname⟩

/-- An address, indexed or not, is read as an address. -/
theorem readOperand_of_isTerm (hterm : IsTerm t term)
    (hlabel : accumulator = true → atEndOfField last rest = true → ¬ IsWord "A" t) :
    readOperand accumulator last (t :: rest) = readAddress last (t :: rest) := by
  have hnone :
      (if accumulator = true then afterAccumulator? last (t :: rest) else none) = none := by
    split
    · next htakes => exact afterAccumulator?_of_isTerm hterm (hlabel htakes)
    · rfl
  simp only [readOperand, atEndOfField_cons_of_isTerm hterm, hnone, current_cons]
  cases hterm with
  | number hkind => simp only [hkind, Bool.false_eq_true, if_false]
  | name hkind => simp only [hkind, Bool.false_eq_true, if_false]

theorem readOperand_of_hash {hash : Token} (hhash : hash.kind = .hash) :
    readOperand accumulator last (hash :: tokens) = readImmediate last tokens := by
  simp [readOperand, atEndOfField, TokenKind.endsField, afterAccumulator?, hhash]

theorem readOperand_of_leftParen {left : Token} (hleft : left.kind = .leftParen) :
    readOperand accumulator last (left :: tokens) = readIndirect last tokens := by
  simp [readOperand, atEndOfField, TokenKind.endsField, afterAccumulator?, hleft]

/-- The operand shape of an address with an index register. -/
def indexed : Register → OperandKind
  | .x => .absoluteX
  | .y => .absoluteY

include hlast

theorem readIndirect_ok {left : Token} (hleft : left.kind = .leftParen)
    (h : readIndirect last tokens = .ok (operand, rest)) :
    ∃ used, left :: tokens = used ++ rest ∧ IsOperand (accumulator = true) used operand := by
  obtain ⟨⟨term, afterTerm⟩, hread, hnext⟩ := bind_ok_inv h
  obtain ⟨t, hterm, rfl⟩ := (readTerm_eq_ok_iff hlast).1 hread
  simp only at hnext
  split at hnext
  · next afterX hsome =>
      obtain ⟨comma, hcomma, rfl⟩ := (afterComma?_eq_some_iff hlast).1 hsome
      obtain ⟨⟨_, afterRegister⟩, hregister, hlater⟩ := bind_ok_inv hnext
      obtain ⟨-, x, hx, rfl⟩ := (readRegister_eq_ok_iff hlast).1 hregister
      obtain ⟨⟨_, afterClosing⟩, hclosing, hdone⟩ := bind_ok_inv hlater
      obtain ⟨right, hright, rfl⟩ := (readClosing_eq_ok_iff hlast).1 hclosing
      cases hdone
      exact ⟨[left, t, comma, x, right], rfl, .indirectX hleft hterm hcomma hx hright⟩
  · obtain ⟨⟨_, afterClosing⟩, hclosing, hlater⟩ := bind_ok_inv hnext
    obtain ⟨right, hright, rfl⟩ := (readClosing_eq_ok_iff hlast).1 hclosing
    simp only at hlater
    split at hlater
    · next afterY hsome =>
        obtain ⟨comma, hcomma, rfl⟩ := (afterComma?_eq_some_iff hlast).1 hsome
        obtain ⟨⟨_, afterRegister⟩, hregister, hdone⟩ := bind_ok_inv hlater
        obtain ⟨-, y, hy, rfl⟩ := (readRegister_eq_ok_iff hlast).1 hregister
        cases hdone
        exact ⟨[left, t, right, comma, y], rfl, .indirectY hleft hterm hright hcomma hy⟩
    · cases hlater
      exact ⟨[left, t, right], rfl, .indirect hleft hterm hright⟩

theorem readImmediate_ok {hash : Token} (hhash : hash.kind = .hash)
    (h : readImmediate last tokens = .ok (operand, rest)) :
    ∃ used, hash :: tokens = used ++ rest ∧ IsOperand (accumulator = true) used operand := by
  obtain ⟨sign, hsplit, hsign⟩ := readModifier_split hlast tokens
  unfold readImmediate at h
  generalize readModifier last tokens = read at h hsplit hsign
  obtain ⟨⟨term, afterTerm⟩, hread, h⟩ := bind_ok_inv h
  obtain ⟨t, hterm, hrest⟩ := (readTerm_eq_ok_iff hlast).1 hread
  cases h
  refine ⟨hash :: sign ++ [t], ?_, .immediate hhash hsign hterm⟩
  rw [hsplit, hrest]
  simp

/-- An `A` at the end of the field is the accumulator where there is a form for it. -/
theorem readAddress_ok (hend : atEndOfField last rest = true)
    (hlabel : accumulator = true → afterAccumulator? last tokens = none)
    (h : readAddress last tokens = .ok (operand, rest)) :
    ∃ used, tokens = used ++ rest ∧ IsOperand (accumulator = true) used operand := by
  obtain ⟨sign, hsplit, hsign⟩ := readModifier_split hlast tokens
  unfold readAddress at h
  generalize readModifier last tokens = read at h hsplit hsign
  obtain ⟨⟨term, afterTerm⟩, hread, h⟩ := bind_ok_inv h
  obtain ⟨t, hterm, hrest⟩ := (readTerm_eq_ok_iff hlast).1 hread
  rw [hrest] at hsplit
  subst hsplit
  simp only at h
  split at h
  · cases h
    refine ⟨sign ++ [t], by simp, .address hsign hterm fun htakes hbare => ?_⟩
    -- a bare `A` up to the end of the field has been taken for the accumulator before
    rintro ⟨name, hkind, hname⟩
    have hnone := hlabel htakes
    subst hbare
    simp [afterAccumulator?, hkind, hname, hend] at hnone
  · next afterSign hsome =>
      obtain ⟨comma, hcomma, rfl⟩ := (afterComma?_eq_some_iff hlast).1 hsome
      split at h
      · next hnone =>
          rw [hnone] at hsign
          cases hsign
          obtain ⟨⟨register, afterIndex⟩, hindex, h⟩ := bind_ok_inv h
          obtain ⟨r, hr, rfl⟩ := (readIndex_eq_ok_iff hlast).1 hindex
          cases register with
          | x =>
              cases h
              exact ⟨[t, comma, r], rfl, .indexedX hterm hcomma hr⟩
          | y =>
              cases h
              exact ⟨[t, comma, r], rfl, .indexedY hterm hcomma hr⟩
      · cases h

theorem afterAccumulator?_ok (h : afterAccumulator? last tokens = some rest) :
    ∃ a, IsWord "A" a ∧ tokens = a :: rest := by
  cases tokens with
  | nil =>
      rw [afterAccumulator?_of_atEndOfField (atEndOfField_nil hlast)] at h
      cases h
  | cons a tail =>
      rw [afterAccumulator?_cons] at h
      split at h
      · next name hkind =>
          split at h
          · next hname =>
              cases h
              simp only [Bool.and_eq_true, beq_iff_eq] at hname
              exact ⟨a, ⟨name, hkind, hname.1⟩, rfl⟩
          · cases h
      · cases h

/-- An operand that is read up to the end of its field can be derived. -/
theorem readOperand_ok (hend : atEndOfField last rest = true)
    (h : readOperand accumulator last tokens = .ok (operand, rest)) :
    ∃ used, tokens = used ++ rest ∧ IsOperand (accumulator = true) used operand := by
  unfold readOperand at h
  split at h
  · cases h
    exact ⟨[], rfl, .none⟩
  · next hmore =>
      split at h
      · next afterA haccumulator =>
          cases h
          split at haccumulator
          · next htakes =>
              obtain ⟨a, ha, rfl⟩ := afterAccumulator?_ok hlast haccumulator
              exact ⟨[a], rfl, .accumulator htakes ha⟩
          · cases haccumulator
      · next hlabel =>
          cases tokens with
          | nil => exact (hmore hlast).elim
          | cons t tail =>
              simp only [current_cons, List.tail_cons] at h
              split at h
              · next hkind => exact readImmediate_ok hlast hkind h
              · next hkind => exact readIndirect_ok hlast hkind h
              · refine readAddress_ok hlast hend (fun htakes => ?_) h
                rwa [if_pos htakes] at hlabel

theorem readTerm_of_isTerm (hterm : IsTerm t term) :
    readTerm last (t :: rest) = .ok (term, rest) :=
  (readTerm_eq_ok_iff hlast).2 ⟨t, hterm, rfl⟩

theorem readAddress_of_isSign {sign : List Token} {modifier : Modifier}
    (hsign : IsSign sign modifier) (hterm : IsTerm t term) (hnone : afterComma? last rest = none) :
    readAddress last (sign ++ t :: rest) = .ok (⟨.address, modifier, some term⟩, rest) := by
  simp only [readAddress, readModifier_of_isSign hsign hterm, readTerm_of_isTerm hlast hterm,
    ok_bind, hnone]
  rfl

theorem readAddress_of_comma {comma r : Token} {register : Register} (hterm : IsTerm t term)
    (hcomma : comma.kind = .comma) (hr : IsWord register.letter r) :
    readAddress last (t :: comma :: r :: rest) = .ok (.plain (indexed register) term, rest) := by
  have hsign := @readModifier_of_isSign last (comma :: r :: rest) t term [] .none .none hterm
  have hindex := (@readIndex_eq_ok_iff last (r :: rest) rest hlast register).2 ⟨r, hr, rfl⟩
  have hafter : afterComma? last (comma :: r :: rest) = some (r :: rest) :=
    (afterComma?_eq_some_iff hlast).2 ⟨comma, hcomma, rfl⟩
  rw [List.nil_append] at hsign
  simp only [readAddress, hsign, readTerm_of_isTerm hlast hterm, ok_bind, hafter, hindex, if_true]
  cases register <;> rfl

/-- What can be derived as an operand is read so, in front of the end of the field. -/
theorem readOperand_of_isOperand (hend : atEndOfField last rest = true)
    (h : IsOperand (accumulator = true) tokens operand) :
    readOperand accumulator last (tokens ++ rest) = .ok (operand, rest) := by
  have hnone := afterComma?_of_atEndOfField hend
  cases h with
  | none => simp only [List.nil_append, readOperand, hend, if_true]
  | @accumulator a htakes ha =>
      obtain ⟨name, hkind, hname⟩ := ha
      have hmore : atEndOfField last (a :: rest) = false := by
        rw [atEndOfField, current_cons, hkind]; rfl
      have hafter : afterAccumulator? last (a :: rest) = some rest := by
        simp [afterAccumulator?, hkind, hname, hend]
      simp [readOperand, hmore, hafter, htakes]
  | immediate hhash hsign hterm =>
      rw [List.cons_append, List.cons_append, List.append_assoc, readOperand_of_hash hhash]
      simp only [readImmediate, List.cons_append, List.nil_append,
        readModifier_of_isSign hsign hterm, readTerm_of_isTerm hlast hterm, ok_bind]
      rfl
  | @address t _ _ _ hsign hterm hlabel =>
      rw [List.append_assoc, List.cons_append, List.nil_append,
        ← readAddress_of_isSign hlast hsign hterm hnone]
      cases hsign with
      | none => exact readOperand_of_isTerm hterm fun htakes _ => hlabel htakes rfl
      | low hkind =>
          simp [readOperand, atEndOfField, TokenKind.endsField, afterAccumulator?, hkind]
      | high hkind =>
          simp [readOperand, atEndOfField, TokenKind.endsField, afterAccumulator?, hkind]
  | @indexedX t comma x _ hterm hcomma hx =>
      have hmore : atEndOfField last (comma :: x :: rest) = false := by
        rw [atEndOfField, current_cons, hcomma]; rfl
      simp only [List.cons_append, List.nil_append]
      rw [readOperand_of_isTerm hterm (by simp [hmore]),
        @readAddress_of_comma _ _ _ _ hlast _ _ .x hterm hcomma hx]
      rfl
  | @indexedY t comma y _ hterm hcomma hy =>
      have hmore : atEndOfField last (comma :: y :: rest) = false := by
        rw [atEndOfField, current_cons, hcomma]; rfl
      simp only [List.cons_append, List.nil_append]
      rw [readOperand_of_isTerm hterm (by simp [hmore]),
        @readAddress_of_comma _ _ _ _ hlast _ _ .y hterm hcomma hy]
      rfl
  | @indirect _ t right _ hleft hterm hright =>
      have hopen : afterComma? last (right :: rest) = none := by
        simp only [afterComma?, current_cons, hright]
      have hclosing : readClosing last (right :: rest) = .ok ((), rest) :=
        (readClosing_eq_ok_iff hlast).2 ⟨right, hright, rfl⟩
      simp only [List.cons_append, List.nil_append, readOperand_of_leftParen hleft, readIndirect,
        readTerm_of_isTerm hlast hterm, ok_bind, hopen, hclosing, hnone]
      rfl
  | @indirectX _ t comma x right _ hleft hterm hcomma hx hright =>
      have hafter : afterComma? last (comma :: x :: right :: rest) = some (x :: right :: rest) :=
        (afterComma?_eq_some_iff hlast).2 ⟨comma, hcomma, rfl⟩
      have hregister : readRegister .x last (x :: right :: rest) = .ok (.x, right :: rest) :=
        (readRegister_eq_ok_iff hlast).2 ⟨rfl, x, hx, rfl⟩
      have hclosing : readClosing last (right :: rest) = .ok ((), rest) :=
        (readClosing_eq_ok_iff hlast).2 ⟨right, hright, rfl⟩
      simp only [List.cons_append, List.nil_append, readOperand_of_leftParen hleft, readIndirect,
        readTerm_of_isTerm hlast hterm, ok_bind, hafter, hregister, hclosing]
      rfl
  | @indirectY _ t right comma y _ hleft hterm hright hcomma hy =>
      have hopen : afterComma? last (right :: comma :: y :: rest) = none := by
        simp only [afterComma?, current_cons, hright]
      have hclosing : readClosing last (right :: comma :: y :: rest) =
          .ok ((), comma :: y :: rest) :=
        (readClosing_eq_ok_iff hlast).2 ⟨right, hright, rfl⟩
      have hafter : afterComma? last (comma :: y :: rest) = some (y :: rest) :=
        (afterComma?_eq_some_iff hlast).2 ⟨comma, hcomma, rfl⟩
      have hregister : readRegister .y last (y :: rest) = .ok (.y, rest) :=
        (readRegister_eq_ok_iff hlast).2 ⟨rfl, y, hy, rfl⟩
      simp only [List.cons_append, List.nil_append, readOperand_of_leftParen hleft, readIndirect,
        readTerm_of_isTerm hlast hterm, ok_bind, hopen, hclosing, hafter, hregister]
      rfl

end Operands

/-! ## Directives -/

section Directives

variable {n : Number} {values read : List Number} {s : Statement}
  (hlast : last.kind.endsField = true)

/-- The numbers that are read behind a first one continue a list of numbers. -/
theorem readMoreNumbers_ok (h : readMoreNumbers last read tokens = .ok (values, rest)) :
    ∃ used more, tokens = used ++ rest ∧ values = read.reverse ++ more ∧
      ∀ t n, t.kind = .number n → IsNumbers (t :: used) (n :: more) := by
  fun_induction readMoreNumbers last read tokens with
  | case1 read =>
      cases h
      exact ⟨[], [], rfl, by simp, fun _ _ hkind => .one hkind⟩
  | case2 read t => cases h
  | case3 read t =>
      cases h
      exact ⟨[], [], rfl, by simp, fun _ _ hkind => .one hkind⟩
  | case4 read comma u tail hcomma n hn ih =>
      obtain ⟨used, more, rfl, rfl, hnumbers⟩ := ih h
      refine ⟨comma :: u :: used, n :: more, rfl, by simp, fun t m hkind => ?_⟩
      exact .more hkind hcomma (hnumbers u n (number?_eq_some_iff.1 hn))
  | case5 read t u tail => cases h
  | case6 read t u tail =>
      cases h
      exact ⟨[], [], rfl, by simp, fun _ _ hkind => .one hkind⟩

theorem readMoreNumbers_of_isNumbers (hnone : afterComma? last rest = none)
    (h : IsNumbers tokens values) :
    ∀ t used n more, tokens = t :: used → values = n :: more → ∀ read,
      readMoreNumbers last read (used ++ rest) = .ok (read.reverse ++ more, rest) := by
  induction h with
  | one hkind =>
      rintro t used n more ⟨⟩ ⟨⟩ read
      rw [List.nil_append, readMoreNumbers_of_no_comma read hnone, List.append_nil]
  | @more t comma n tail values hkind hcomma hrest ih =>
      rintro t used n more ⟨⟩ ⟨⟩ read
      cases hrest with
      | @one u m hu =>
          have hmore := ih u [] m [] rfl rfl (m :: read)
          simp only [List.cons_append, List.nil_append, readMoreNumbers, hcomma,
            number?_eq_some_iff.2 hu] at hmore ⊢
          rw [hmore]
          simp
      | @more u comma' m tail values hu hcomma' hrest =>
          have hmore := ih u _ m _ rfl rfl (m :: read)
          simp only [List.cons_append, readMoreNumbers, hcomma, number?_eq_some_iff.2 hu]
            at hmore ⊢
          rw [hmore]
          simp

theorem ofName?_eq_some_iff {name : String} {directive : Directive} :
    Directive.ofName? name = some directive ↔ directive.name = name := by
  constructor
  · intro h
    simpa using List.find?_some h
  · rintro rfl
    cases directive <;> rfl

theorem readDirective_of_name (tag : Tag) (directive : Directive) :
    readDirective tag directive.name last tokens = readArgument tag directive last tokens := by
  simp only [readDirective, ofName?_eq_some_iff.2 rfl]

include hlast

theorem readNumbers_ok (h : readNumbers last tokens = .ok (values, rest)) :
    ∃ used, tokens = used ++ rest ∧ IsNumbers used values := by
  obtain ⟨⟨first, left⟩, hfirst, hmore⟩ := bind_ok_inv h
  obtain ⟨t, hkind, rfl⟩ := (readNumber_eq_ok_iff hlast).1 hfirst
  obtain ⟨used, more, rfl, rfl, hnumbers⟩ := readMoreNumbers_ok hmore
  exact ⟨t :: used, rfl, hnumbers t first hkind⟩

theorem readNumbers_of_isNumbers (hnone : afterComma? last rest = none)
    (h : IsNumbers tokens values) : readNumbers last (tokens ++ rest) = .ok (values, rest) := by
  have hmore := @readMoreNumbers_of_isNumbers last tokens rest values hnone h
  cases h with
  | @one t n hkind =>
      have hfirst := (@readNumber_eq_ok_iff last (t :: rest) rest hlast n).2 ⟨t, hkind, rfl⟩
      have hothers := hmore t [] n [] rfl rfl [n]
      simp only [readNumbers, List.cons_append, List.nil_append, hfirst, ok_bind] at hothers ⊢
      rw [hothers]
      rfl
  | @more t comma n tail values hkind hcomma hrest =>
      have hfirst := (@readNumber_eq_ok_iff last (t :: comma :: (tail ++ rest)) _ hlast n).2
        ⟨t, hkind, rfl⟩
      have hothers := hmore t _ n _ rfl rfl [n]
      simp only [readNumbers, List.cons_append, hfirst, ok_bind] at hothers ⊢
      rw [hothers]
      rfl

theorem readDirective_ok {d : Token} {name : String} (hname : d.kind = .directive name)
    (h : readDirective d.tag name last tokens = .ok (s, rest)) :
    ∃ used, tokens = used ++ rest ∧ IsDirective (d :: used) s := by
  unfold readDirective at h
  split at h
  · next directive hdirective =>
      obtain rfl := ofName?_eq_some_iff.1 hdirective
      cases directive with
      | org =>
          obtain ⟨⟨address, left⟩, hread, hdone⟩ := bind_ok_inv h
          cases hdone
          obtain ⟨t, hkind, rfl⟩ := (readNumber_eq_ok_iff hlast).1 hread
          exact ⟨[t], rfl, .org hname hkind⟩
      | pad =>
          obtain ⟨⟨address, left⟩, hread, hdone⟩ := bind_ok_inv h
          cases hdone
          obtain ⟨t, hkind, rfl⟩ := (readNumber_eq_ok_iff hlast).1 hread
          exact ⟨[t], rfl, .pad hname hkind⟩
      | byte =>
          obtain ⟨⟨values, left⟩, hread, hdone⟩ := bind_ok_inv h
          cases hdone
          obtain ⟨used, rfl, hvalues⟩ := readNumbers_ok hlast hread
          exact ⟨used, rfl, .byte hname hvalues⟩
      | word =>
          obtain ⟨⟨values, left⟩, hread, hdone⟩ := bind_ok_inv h
          cases hdone
          obtain ⟨used, rfl, hvalues⟩ := readNumbers_ok hlast hread
          exact ⟨used, rfl, .word hname hvalues⟩
      | vector =>
          obtain ⟨⟨label, left⟩, hread, hdone⟩ := bind_ok_inv h
          cases hdone
          obtain ⟨t, hkind, rfl⟩ := (readLabelName_eq_ok_iff hlast).1 hread
          exact ⟨[t], rfl, .vector hname hkind⟩
      | includeFile =>
          obtain ⟨⟨path, left⟩, hread, hdone⟩ := bind_ok_inv h
          cases hdone
          obtain ⟨t, hkind, rfl⟩ := (readFileName_eq_ok_iff hlast).1 hread
          exact ⟨[t], rfl, .includeFile hname hkind⟩
  · cases h

/-- What can be derived as a directive is read so. -/
theorem readDirective_of_isDirective (hnone : afterComma? last rest = none)
    (h : IsDirective tokens s) :
    ∃ d used name, tokens = d :: used ∧ d.kind = .directive name ∧
      readDirective d.tag name last (used ++ rest) = .ok (s, rest) := by
  cases h with
  | @org d t n hname hkind =>
      have hread := (@readNumber_eq_ok_iff last (t :: rest) rest hlast n).2 ⟨t, hkind, rfl⟩
      refine ⟨d, [t], _, rfl, hname, ?_⟩
      rw [List.cons_append, List.nil_append]
      refine (readDirective_of_name d.tag .org).trans ?_
      simp only [readArgument, hread, ok_bind]
      rfl
  | @pad d t n hname hkind =>
      have hread := (@readNumber_eq_ok_iff last (t :: rest) rest hlast n).2 ⟨t, hkind, rfl⟩
      refine ⟨d, [t], _, rfl, hname, ?_⟩
      rw [List.cons_append, List.nil_append]
      refine (readDirective_of_name d.tag .pad).trans ?_
      simp only [readArgument, hread, ok_bind]
      rfl
  | @byte d used values hname hvalues =>
      refine ⟨d, used, _, rfl, hname, ?_⟩
      refine (readDirective_of_name d.tag .byte).trans ?_
      simp only [readArgument, readNumbers_of_isNumbers hlast hnone hvalues, ok_bind]
      rfl
  | @word d used values hname hvalues =>
      refine ⟨d, used, _, rfl, hname, ?_⟩
      refine (readDirective_of_name d.tag .word).trans ?_
      simp only [readArgument, readNumbers_of_isNumbers hlast hnone hvalues, ok_bind]
      rfl
  | @vector d t label hname hkind =>
      have hread := (@readLabelName_eq_ok_iff last (t :: rest) rest hlast label).2 ⟨t, hkind, rfl⟩
      refine ⟨d, [t], _, rfl, hname, ?_⟩
      rw [List.cons_append, List.nil_append]
      refine (readDirective_of_name d.tag .vector).trans ?_
      simp only [readArgument, hread, ok_bind]
      rfl
  | @includeFile d t path hname hkind =>
      have hread := (@readFileName_eq_ok_iff last (t :: rest) rest hlast path).2 ⟨t, hkind, rfl⟩
      refine ⟨d, [t], _, rfl, hname, ?_⟩
      rw [List.cons_append, List.nil_append]
      refine (readDirective_of_name d.tag .includeFile).trans ?_
      simp only [readArgument, hread, ok_bind]
      rfl

end Directives

/-! ## Lines -/

section Lines

variable {labels bodies comments statements : List Statement}

theorem mnemonic_of_hasAccumulatorForm {op : Op} (h : op.hasAccumulatorForm = true) :
    op.mnemonic ∈ ["ASL", "LSR", "ROL", "ROR"] := by
  cases op <;> first | decide | cases h

/-- The instructions with a form for the accumulator are the four that the grammar names. -/
theorem takesAccumulator_iff {mnemonic : String} :
    takesAccumulator mnemonic = true ↔ TakesAccumulator mnemonic := by
  unfold takesAccumulator TakesAccumulator Op.ofMnemonic?
  generalize Text.upper mnemonic = word
  constructor
  · intro h
    split at h
    · next op hop =>
        have hword : op.mnemonic = word := by simpa using List.find?_some hop
        rw [← hword]
        exact mnemonic_of_hasAccumulatorForm h
    · cases h
  · intro h
    simp only [List.mem_cons, List.not_mem_nil, or_false] at h
    rcases h with rfl | rfl | rfl | rfl <;> decide

theorem readLabel_split (hlast : last.kind.endsField = true) (tokens : List Token) :
    ∃ label, tokens = label ++ (readLabel last tokens).2 ∧
      IsLabel label (readLabel last tokens).1.toList := by
  match tokens with
  | [] =>
      rw [readLabel_of_atEndOfField (atEndOfField_nil hlast)]
      exact ⟨[], rfl, .none⟩
  | [t] =>
      rw [readLabel_cons_of_atEndOfField (atEndOfField_nil hlast)]
      exact ⟨[], rfl, .none⟩
  | t :: colon :: rest =>
      simp only [readLabel, current_cons, List.tail_cons]
      split
      · next hkind hcolon => exact ⟨[t, colon], rfl, .label hkind hcolon⟩
      · exact ⟨[], rfl, .none⟩

theorem readBody_ok (hlast : last.kind.endsField = true) {body : Option Statement}
    (hend : atEndOfField last rest = true) (h : readBody last tokens = .ok (body, rest)) :
    ∃ used, tokens = used ++ rest ∧ IsBody used body.toList := by
  cases tokens with
  | nil =>
      rw [readBody_of_atEndOfField (atEndOfField_nil hlast)] at h
      cases h
      exact ⟨[], rfl, .none⟩
  | cons m tail =>
      simp only [readBody, current_cons, List.tail_cons] at h
      split at h
      · next mnemonic hkind =>
          obtain ⟨⟨operand, left⟩, hread, hdone⟩ := bind_ok_inv h
          cases hdone
          obtain ⟨used, rfl, hoperand⟩ := readOperand_ok hlast hend hread
          rw [takesAccumulator_iff] at hoperand
          exact ⟨m :: used, rfl, .instruction hkind hoperand⟩
      · next name hkind =>
          obtain ⟨⟨s, left⟩, hread, hdone⟩ := bind_ok_inv h
          cases hdone
          obtain ⟨used, rfl, hdirective⟩ := readDirective_ok hlast hkind hread
          exact ⟨m :: used, rfl, .directive hdirective⟩
      · cases h
        exact ⟨[], rfl, .none⟩

theorem atEndOfField_of_isComment (hlast : last.kind.endsField = true)
    (h : IsComment tokens comments) : atEndOfField last tokens = true := by
  cases h with
  | none => exact hlast
  | comment hkind => rw [atEndOfField, current_cons, hkind]; rfl

/-- The statements of a line reach up to the end of its last field. -/
theorem atEndOfField_of_readLineFrom {read : List Statement} (hlast : last.kind.endsField = true)
    (h : readLineFrom read last tokens = .ok (statements, rest)) :
    atEndOfField last tokens = true := by
  cases tokens with
  | nil => exact hlast
  | cons t tail =>
      cases hfield : t.kind.endsField with
      | true => exact hfield
      | false =>
          rw [readLineFrom_of_field read hfield] at h
          cases h

/-- A comment counts only where it stands alone. -/
theorem append_comment (read : List Statement) (s : Statement) :
    read ++ (if read.isEmpty then some s else none).toList =
      if read.isEmpty then [s] else read := by
  cases read with
  | nil => rfl
  | cons first others => exact List.append_nil _

/-- Behind the statements of a line there is one comment or nothing. -/
theorem readLineFrom_eq_ok_iff {read : List Statement} (hstop : last.kind.endsLine = true)
    (hinner : ∀ t ∈ tokens, t.kind.endsLine = false) :
    readLineFrom read last tokens = .ok (statements, rest) ↔
      rest = [] ∧ ∃ comments, IsComment tokens comments ∧
        statements = if read.isEmpty then comments else read := by
  constructor
  · intro h
    unfold readLineFrom at h
    cases tokens with
    | nil =>
        simp only [readComment_nil _ hstop, readEndOfLine_nil hstop] at h
        cases h
        exact ⟨rfl, [], .none, by cases read <;> simp⟩
    | cons t tail =>
        simp only [readComment, current_cons, List.tail_cons] at h
        split at h
        · next hkind =>
            cases tail with
            | nil =>
                rw [readEndOfLine_nil hstop] at h
                cases h
                exact ⟨rfl, _, .comment hkind, append_comment read _⟩
            | cons u tail =>
                rw [readEndOfLine_inner (hinner u (by simp))] at h
                cases h
        · rw [readEndOfLine_inner (hinner t List.mem_cons_self)] at h
          cases h
  · rintro ⟨rfl, comments, hcomment, rfl⟩
    cases hcomment with
    | none =>
        simp only [readLineFrom, readComment_nil _ hstop, readEndOfLine_nil hstop, ok_bind]
        cases read <;> simp [pure, Except.pure]
    | comment hkind =>
        simp only [readLineFrom, readComment, current_cons, hkind, List.tail_cons,
          readEndOfLine_nil hstop, ok_bind, append_comment]
        rfl

/-- A line that is read can be derived. -/
theorem isLine_of_statements {line : Line} (hline : line.Proper)
    (h : line.statements = .ok statements) : IsLine line.tokens statements := by
  obtain ⟨tokens, stop⟩ := line
  obtain ⟨hinner, hstop⟩ := hline
  simp only at hinner hstop
  have hlast := TokenKind.endsField_of_endsLine hstop
  obtain ⟨label, hlabelled, hlabel⟩ := readLabel_split hlast tokens
  unfold Line.statements at h
  cases hread : readLine stop tokens with
  | error e =>
      rw [hread] at h
      cases h
  | ok read =>
      rw [hread] at h
      cases h
      unfold readLine at hread
      generalize readLabel stop tokens = labelled at hread hlabelled hlabel
      obtain ⟨⟨body, afterBody⟩, hread, hnext⟩ := bind_ok_inv hread
      -- the body was read up to the end of its field
      have hend := atEndOfField_of_readLineFrom hlast hnext
      obtain ⟨used, hbodied, hbody⟩ := readBody_ok hlast hend hread
      rw [hlabelled, hbodied] at hinner ⊢
      have hafter : ∀ t ∈ afterBody, t.kind.endsLine = false := fun t ht =>
        hinner t (List.mem_append_right _ (List.mem_append_right _ ht))
      obtain ⟨-, comments, hcomment, hstatements⟩ := (readLineFrom_eq_ok_iff hstop hafter).1 hnext
      rw [hstatements, ← List.append_assoc]
      exact .line hlabel hbody hcomment

theorem readLabel_of_not_colon (hlast : last.kind.endsField = true)
    (h : ∀ t next tail name, tokens = t :: next :: tail → t.kind = .identifier name →
      next.kind ≠ .colon) : readLabel last tokens = (none, tokens) := by
  match tokens with
  | [] => exact readLabel_of_atEndOfField (atEndOfField_nil hlast)
  | [t] => exact readLabel_cons_of_atEndOfField (atEndOfField_nil hlast) t
  | t :: next :: tail =>
      simp only [readLabel, current_cons, List.tail_cons]
      split
      · next name hkind hcolon => exact (h t next tail name rfl hkind hcolon).elim
      · rfl

/-- No operand field starts with a colon. -/
theorem ne_colon_of_isOperand {takes : Prop} {operand : Operand} {next : Token} {tail : List Token}
    (h : IsOperand takes tokens operand) (hcomment : IsComment rest comments)
    (htokens : tokens ++ rest = next :: tail) : next.kind ≠ .colon := by
  intro hcolon
  cases tokens with
  | nil =>
      cases hcomment with
      | none => cases htokens
      | comment hkind =>
          cases htokens
          rw [hcolon] at hkind
          cases hkind
  | cons t tokens =>
      cases htokens
      have hargument := h.isArgument next List.mem_cons_self
      rw [hcolon] at hargument
      cases hargument

theorem exists_directive_of_isDirective {s : Statement} (h : IsDirective tokens s) :
    ∃ d used name, tokens = d :: used ∧ d.kind = .directive name := by
  cases h with
  | org hname => exact ⟨_, _, _, rfl, hname⟩
  | pad hname => exact ⟨_, _, _, rfl, hname⟩
  | byte hname => exact ⟨_, _, _, rfl, hname⟩
  | word hname => exact ⟨_, _, _, rfl, hname⟩
  | vector hname => exact ⟨_, _, _, rfl, hname⟩
  | includeFile hname => exact ⟨_, _, _, rfl, hname⟩

theorem readLabel_of_isLabel {label body comment : List Token}
    (hlast : last.kind.endsField = true) (hlabel : IsLabel label labels)
    (hbody : IsBody body bodies) (hcomment : IsComment comment comments) :
    readLabel last (label ++ (body ++ comment)) = (labels.head?, body ++ comment) := by
  cases hlabel with
  | label hkind hcolon => simp [readLabel, hkind, hcolon]
  | none =>
      refine readLabel_of_not_colon hlast fun t next tail name htokens hname => ?_
      rw [List.nil_append] at htokens
      cases hbody with
      | none =>
          cases hcomment with
          | none => cases htokens
          | comment hkind => cases htokens
      | instruction hkind hoperand =>
          obtain ⟨rfl, hrest⟩ := List.cons.inj htokens
          exact ne_colon_of_isOperand hoperand hcomment hrest
      | directive hdirective =>
          obtain ⟨d, used, word, rfl, hword⟩ := exists_directive_of_isDirective hdirective
          obtain ⟨rfl, -⟩ := List.cons.inj htokens
          rw [hname] at hword
          cases hword

theorem readBody_of_isBody {body : List Token} (hlast : last.kind.endsField = true)
    (hbody : IsBody body bodies) (hcomment : IsComment rest comments) :
    readBody last (body ++ rest) = .ok (bodies.head?, rest) := by
  have hend := atEndOfField_of_isComment hlast hcomment
  cases hbody with
  | none => exact readBody_of_atEndOfField hend
  | instruction hkind hoperand =>
      rw [← takesAccumulator_iff] at hoperand
      simp only [List.cons_append, readBody, current_cons, hkind, List.tail_cons,
        readOperand_of_isOperand hlast hend hoperand, ok_bind]
      rfl
  | directive hdirective =>
      obtain ⟨d, used, name, rfl, hname, hread⟩ :=
        readDirective_of_isDirective hlast (afterComma?_of_atEndOfField hend) hdirective
      simp only [List.cons_append, readBody, current_cons, hname, List.tail_cons, hread, ok_bind]
      rfl

theorem toList_head?_of_isLabel (h : IsLabel tokens labels) : labels.head?.toList = labels := by
  cases h <;> rfl

theorem toList_head?_of_isBody (h : IsBody tokens bodies) : bodies.head?.toList = bodies := by
  cases h <;> rfl

/-- A line that can be derived is read as the derivation says. -/
theorem statements_of_isLine {line : Line} (hstop : line.stop.kind.endsLine = true)
    (h : IsLine line.tokens statements) : line.statements = .ok statements := by
  obtain ⟨tokens, stop⟩ := line
  simp only at h hstop
  have hlast := TokenKind.endsField_of_endsLine hstop
  cases h with
  | @line label body comment labels bodies comments hlabel hbody hcomment =>
      have hend : readLineFrom (labels ++ bodies) stop comment =
          .ok (if (labels ++ bodies).isEmpty then comments else labels ++ bodies, []) :=
        (readLineFrom_eq_ok_iff hstop hcomment.inner).2 ⟨rfl, comments, hcomment, rfl⟩
      rw [List.append_assoc]
      simp only [Line.statements, readLine, readLabel_of_isLabel hlast hlabel hbody hcomment,
        readBody_of_isBody hlast hbody hcomment, ok_bind, toList_head?_of_isLabel hlabel,
        toList_head?_of_isBody hbody, hend]
      rfl

end Lines

end Reader

open Reader

namespace Line

variable {statements : List Statement}

theorem statements_eq_ok_iff {line : Line} (hline : line.Proper) :
    line.statements = .ok statements ↔ IsLine line.tokens statements :=
  ⟨isLine_of_statements hline, statements_of_isLine hline.ends⟩

theorem allFrom_eq_ok_iff {read : List Statement} {lines : List Line}
    (hlines : ∀ line ∈ lines, line.Proper) :
    allFrom read lines = .ok statements ↔
      ∃ parts, List.Forall₂ IsLine (lines.map Line.tokens) parts ∧
        statements = read.reverse ++ parts.flatten := by
  induction lines generalizing read with
  | nil =>
      simp only [allFrom, List.map_nil, List.forall₂_nil_left_iff]
      constructor
      · rintro ⟨⟩
        exact ⟨[], rfl, by simp⟩
      · rintro ⟨parts, rfl, rfl⟩
        simp
  | cons line lines ih =>
      obtain ⟨hline, hlines⟩ := List.forall_mem_cons.1 hlines
      simp only [allFrom, List.map_cons]
      constructor
      · intro h
        split at h
        · next more hmore =>
            obtain ⟨parts, hparts, rfl⟩ := (ih hlines).1 h
            exact ⟨more :: parts, .cons ((statements_eq_ok_iff hline).1 hmore) hparts, by simp⟩
        · cases h
      · rintro ⟨parts, hparts, rfl⟩
        cases hparts with
        | cons hfirst hothers =>
            simp only [(statements_eq_ok_iff hline).2 hfirst]
            exact (ih hlines).2 ⟨_, hothers, by simp⟩

end Line

/-! ## Texts -/

/-- What stands between separators is all but the separators. -/
theorem flatten_splitOnP {α : Type} (p : α → Bool) (xs : List α) :
    (xs.splitOnP p).flatten = xs.filter fun x => !p x := by
  induction xs with
  | nil => simp
  | cons x xs ih =>
      rw [List.splitOnP_cons_eq_if_modifyHead]
      cases hx : p x with
      | true => simp [hx, ih]
      | false =>
          obtain ⟨first, rest, hsplit⟩ := List.exists_cons_of_ne_nil (List.splitOnP_ne_nil p xs)
          rw [hsplit] at ih ⊢
          simpa [hx] using ih

/-- The first part stands in front, and each of the others somewhere behind it. -/
theorem infix_of_splitOnP {α : Type} {p : α → Bool} {xs first : List α} {rest : List (List α)}
    (h : xs.splitOnP p = first :: rest) : first <+: xs ∧ ∀ part ∈ rest, part <:+: xs := by
  induction xs generalizing first rest with
  | nil =>
      rw [List.splitOnP_nil] at h
      cases h
      exact ⟨List.prefix_rfl, List.forall_mem_nil _⟩
  | cons x xs ih =>
      obtain ⟨head, tail, hsplit⟩ := List.exists_cons_of_ne_nil (List.splitOnP_ne_nil p xs)
      obtain ⟨hhead, htail⟩ := ih hsplit
      have hbehind : xs <:+: x :: xs := (List.suffix_cons x xs).isInfix
      rw [List.splitOnP_cons_eq_if_modifyHead, hsplit] at h
      split at h
      · cases h
        exact ⟨List.nil_prefix, List.forall_mem_cons.2 ⟨hhead.isInfix.trans hbehind,
          fun part hpart => (htail part hpart).trans hbehind⟩⟩
      · cases h
        exact ⟨(List.prefix_cons_inj x).2 hhead,
          fun part hpart => (htail part hpart).trans hbehind⟩

/-- The lines of tokens: what stands between newlines, up to the end of the text. -/
def Token.lines (tokens : List Token) : List (List Token) :=
  (tokens.takeWhile fun t => t.kind != .eof).splitOnP fun t => t.kind == .newline

theorem Line.map_tokens_splitFrom {front body : List Token} {stop : Token}
    (hfront : ∀ t ∈ front, (t.kind == .newline) = false) (hbody : ∀ t ∈ body, t.kind ≠ .eof)
    (hstop : stop.kind = .eof) :
    (splitFrom front (body ++ [stop])).map Line.tokens =
      (front.reverse ++ body).splitOnP fun t => t.kind == .newline := by
  have hsingle : front.reverse.splitOnP (fun t => t.kind == .newline) = [front.reverse] :=
    List.splitOnP_eq_singleton fun t ht => hfront t (List.mem_reverse.1 ht)
  -- on the tokens that are left; `front` has the line so far, which has no newline in it
  induction body generalizing front with
  | nil =>
      rw [List.nil_append, splitFrom, hstop, List.append_nil, hsingle]
      rfl
  | cons t body ih =>
      obtain ⟨ht, hrest⟩ := List.forall_mem_cons.1 hbody
      rw [List.cons_append, splitFrom]
      by_cases hnewline : t.kind = .newline
      · rw [if_pos (by rw [hnewline]; rfl), List.map_cons,
          ih (List.forall_mem_nil _) hrest (by simp),
          List.splitOnP_append_cons _ _ (by simp [hnewline]), hsingle]
        rfl
      · have hlonger : ∀ u ∈ t :: front, (u.kind == .newline) = false :=
          List.forall_mem_cons.2 ⟨by simpa using hnewline, hfront⟩
        have hinner : ¬ t.kind.endsLine = true := fun hends =>
          (TokenKind.eq_of_endsLine hends).elim hnewline ht
        rw [if_neg hinner, ih hlonger hrest]
        · simp
        · exact List.splitOnP_eq_singleton fun u hu => hlonger u (List.mem_reverse.1 hu)

/-- The end of a text ends its last line. -/
theorem Token.lines_concat {body : List Token} {stop : Token} (hbody : ∀ t ∈ body, t.kind ≠ .eof)
    (hstop : stop.kind = .eof) :
    lines (body ++ [stop]) = body.splitOnP fun t => t.kind == .newline := by
  rw [lines, List.takeWhile_append_of_pos (by simpa using hbody)]
  simp [hstop]

theorem Statement.ofTokens_eq_ok_iff {unit : Int} {text : List Char} {tokens : List Token}
    {statements : List Statement} (h : Token.scan unit text = ⟨tokens, none⟩) :
    ofTokens tokens = .ok statements ↔
      ∃ parts, List.Forall₂ IsLine (Token.lines tokens) parts ∧ statements = parts.flatten := by
  obtain ⟨body, stop, rfl, hbody, hstop⟩ := Token.scan_tokens h
  have hlines := @Line.map_tokens_splitFrom [] body stop (List.forall_mem_nil _) hbody hstop
  rw [ofTokens_eq_all_split hbody hstop, Line.all, Line.allFrom_eq_ok_iff Line.proper_of_mem_split,
    Line.split, hlines, Token.lines_concat hbody hstop]
  rfl

/-- The statements of a text are those its lines denote. -/
theorem Statement.parse_eq_ok_iff {unit : Int} {text : List Char} {statements : List Statement} :
    parse unit text = .ok statements ↔
      ∃ tokens parts, Token.scan unit text = ⟨tokens, none⟩ ∧
        List.Forall₂ IsLine (Token.lines tokens) parts ∧ statements = parts.flatten := by
  constructor
  · intro h
    simp only [parse] at h
    split at h
    · cases h
    · next hnone =>
        have hscan : Token.scan unit text = ⟨(Token.scan unit text).tokens, none⟩ := by
          rw [← hnone]
        obtain ⟨parts, hparts, rfl⟩ := (ofTokens_eq_ok_iff hscan).1 h
        exact ⟨_, parts, hscan, hparts, rfl⟩
  · rintro ⟨tokens, parts, hscan, hparts, rfl⟩
    simp only [parse, hscan]
    exact (ofTokens_eq_ok_iff hscan).2 ⟨parts, hparts, rfl⟩

/-- A statement of a text stands in one of its lines. -/
theorem Statement.exists_line_of_parse {unit : Int} {text : List Char}
    {statements : List Statement} {s : Statement} (h : parse unit text = .ok statements)
    (hs : s ∈ statements) :
    ∃ line part, IsLine line part ∧ s ∈ part ∧ ∀ t ∈ line, t ∈ (Token.scan unit text).tokens := by
  obtain ⟨tokens, parts, hscan, hparts, rfl⟩ := parse_eq_ok_iff.1 h
  obtain ⟨part, hpart, hs⟩ := List.mem_flatten.1 hs
  obtain ⟨i, hi, rfl⟩ := List.getElem_of_mem hpart
  have hlt : i < (Token.lines tokens).length := by
    rw [hparts.length_eq]
    exact hi
  refine ⟨_, _, hparts.get hlt hi, hs, fun t ht => ?_⟩
  have hmem : t ∈ (Token.lines tokens).flatten :=
    List.mem_flatten.2 ⟨_, List.getElem_mem hlt, ht⟩
  rw [Token.lines, flatten_splitOnP] at hmem
  rw [hscan]
  exact (List.takeWhile_sublist _).subset (List.mem_of_mem_filter hmem)

/-- The statements of a text are well formed, and their places lie in the text. -/
theorem Statement.parse_wellFormed {unit : Int} {text : List Char} {statements : List Statement}
    (h : parse unit text = .ok statements) :
    ∀ s ∈ statements, s.WellFormed (Tag.Within unit text.length) := by
  intro s hs
  obtain ⟨line, part, hline, hpart, hmem⟩ := exists_line_of_parse h hs
  exact hline.wellFormed (fun t ht => Token.scan_sound unit text t (hmem t ht)) s hpart

theorem exists_forall₂ {α β : Type} {related : α → β → Prop} {xs : List α} :
    (∃ ys, List.Forall₂ related xs ys) ↔ ∀ x ∈ xs, ∃ y, related x y := by
  induction xs with
  | nil => simp
  | cons x xs ih =>
      rw [List.forall_mem_cons, ← ih]
      constructor
      · rintro ⟨ys, hys⟩
        cases hys with
        | cons hx hxs => exact ⟨⟨_, hx⟩, _, hxs⟩
      · rintro ⟨⟨y, hx⟩, ys, hxs⟩
        exact ⟨y :: ys, .cons hx hxs⟩

/-- The tokens of a text are read exactly if each of its lines can be derived, and the result is
then what the lines denote one after the other, which no line does in two ways; otherwise reading
fails with a syntax error at one of the tokens. -/
theorem parser_accepts_exactly_grammar {unit : Int} {text : List Char} {tokens : List Token}
    (hscan : Token.scan unit text = ⟨tokens, none⟩) :
    ((∃ statements, Statement.ofTokens tokens = .ok statements) ↔
      ∀ line ∈ Token.lines tokens, ∃ statements, IsLine line statements) ∧
    (∀ statements, Statement.ofTokens tokens = .ok statements ↔
      ∃ parts, List.Forall₂ IsLine (Token.lines tokens) parts ∧ statements = parts.flatten) ∧
    (∀ line statements others, IsLine line statements → IsLine line others →
      statements = others) ∧
    ∀ e, Statement.ofTokens tokens = .error e →
      ∃ problem, ∃ t ∈ tokens, e = .located problem t.tag ∧ problem.family = .malformed := by
  refine ⟨?_, fun _ => Statement.ofTokens_eq_ok_iff hscan, ?_, ?_⟩
  · simp only [Statement.ofTokens_eq_ok_iff hscan, ← exists_forall₂]
    constructor
    · rintro ⟨statements, parts, hparts, -⟩
      exact ⟨parts, hparts⟩
    · rintro ⟨parts, hparts⟩
      exact ⟨parts.flatten, parts, hparts, rfl⟩
  · intro line statements others h h'
    have hread := @statements_of_isLine statements ⟨line, Token.placed 0 .start .eof⟩ rfl h
    have hother := @statements_of_isLine others ⟨line, Token.placed 0 .start .eof⟩ rfl h'
    exact Except.ok.inj (hread.symm.trans hother)
  · intro e he
    obtain ⟨body, stop, rfl, -, hstop⟩ := Token.scan_tokens hscan
    obtain ⟨problem, tag, rfl, hfamily, t, ht, rfl⟩ := Statement.ofTokens_fails hstop e he
    exact ⟨problem, t, ht, rfl, hfamily⟩

/-- An `a` is the accumulator in one line and a label in the next. -/
theorem accumulator_and_label_derivable :
    ∃ tokens parts, Token.scan 0 "asl a\nlda a".toList = ⟨tokens, none⟩ ∧
      List.Forall₂ IsLine (Token.lines tokens) parts ∧
      parts.flatten = [.instruction (some ⟨0, 0⟩) "asl" .none,
        .instruction (some ⟨0, 6⟩) "lda" (.plain .address (.name (some ⟨0, 10⟩) "a"))] := by
  have hscan : Token.scan 0 "asl a\nlda a".toList =
      ⟨(Token.scan 0 "asl a\nlda a".toList).tokens, none⟩ := rfl
  obtain ⟨parts, hparts, hflatten⟩ :=
    ((parser_accepts_exactly_grammar hscan).2.1 [.instruction (some ⟨0, 0⟩) "asl" .none,
      .instruction (some ⟨0, 6⟩) "lda" (.plain .address (.name (some ⟨0, 10⟩) "a"))]).1 rfl
  exact ⟨_, parts, hscan, hparts, hflatten.symm⟩

end Asm65
