import Mathlib.Data.List.Forall2
import Asm65.Proofs.Statements
import Asm65.Statement.Parse

/-!
# What the productions depend on

A production looks at the kinds of tokens, and not behind the first token that ends the field.  So
on two lists of tokens that fit up to there, of the same kinds and at places that correspond, it
comes to the same: it reads the same apart from places and leaves lists that fit again, or it fails
with the same problem at places that correspond.  Each production has one lemma that says so, and a
production that calls another uses the lemma of the other.

A `Comparison` is what the lemmas leave open: how places correspond, and what the two lists have in
common where the field ends.  A list compared with itself gives the places of errors; a text
compared with its first line shows that lines are read one by one; and if any two places correspond,
only the kinds of tokens matter.
-/

namespace Asm65

/-! ## Results and errors that correspond -/

/-- Outcomes that agree: related results, or errors of which much is the same. -/
inductive Agree {α β : Type} (same : Error → Error → Prop) (related : α → β → Prop) :
    Except Error α → Except Error β → Prop
  | ok {a : α} {b : β} (h : related a b) : Agree same related (.ok a) (.ok b)
  | error {e e' : Error} (h : same e e') : Agree same related (.error e) (.error e')

/-- Steps that agree one after the other agree together. -/
theorem Agree.bind {α β γ δ : Type} {same : Error → Error → Prop} {related : α → β → Prop}
    {related' : γ → δ → Prop} {first : Except Error α} {other : Except Error β}
    {next : α → Except Error γ} {next' : β → Except Error δ} (h : Agree same related first other)
    (hnext : ∀ a b, related a b → Agree same related' (next a) (next' b)) :
    Agree same related' (first >>= next) (other >>= next') := by
  cases h with
  | ok h => exact hnext _ _ h
  | error h => exact .error h

/-- The same syntax error, at places that correspond. -/
inductive Error.Matches (places : Tag → Tag → Prop) : Error → Error → Prop
  | located {problem : Problem} {tag tag' : Tag} (hfamily : problem.family = .malformed)
      (h : places tag tag') : Matches places (.problem problem tag) (.problem problem tag')

/-- Tokens of the same kind at places that correspond. -/
structure Token.Matches (places : Tag → Tag → Prop) (t u : Token) : Prop where
  kind_eq : u.kind = t.kind
  place : places t.tag u.tag

/-- The same term at places that correspond. -/
inductive Term.Matches (places : Tag → Tag → Prop) : Term → Term → Prop
  | number {tag tag' : Tag} {n : Number} (h : places tag tag') :
      Matches places (.number tag n) (.number tag' n)
  | name {tag tag' : Tag} {name : String} (h : places tag tag') :
      Matches places (.name tag name) (.name tag' name)

/-- The same operand, with terms at places that correspond. -/
structure Operand.Matches (places : Tag → Tag → Prop) (operand other : Operand) : Prop where
  kind_eq : other.kind = operand.kind
  modifier_eq : other.modifier = operand.modifier
  term : Option.Rel (Term.Matches places) operand.term other.term

/-- The same statement at places that correspond. -/
inductive Statement.Matches (places : Tag → Tag → Prop) : Statement → Statement → Prop
  | comment {tag tag' : Tag} (h : places tag tag') : Matches places (.comment tag) (.comment tag')
  | label {tag tag' : Tag} {name : String} (h : places tag tag') :
      Matches places (.label tag name) (.label tag' name)
  | instruction {tag tag' : Tag} {mnemonic : String} {operand other : Operand}
      (h : places tag tag') (hoperand : operand.Matches places other) :
      Matches places (.instruction tag mnemonic operand) (.instruction tag' mnemonic other)
  | org {tag tag' : Tag} {address : Number} (h : places tag tag') :
      Matches places (.org tag address) (.org tag' address)
  | pad {tag tag' : Tag} {address : Number} (h : places tag tag') :
      Matches places (.pad tag address) (.pad tag' address)
  | bytes {tag tag' : Tag} {values : List Number} (h : places tag tag') :
      Matches places (.bytes tag values) (.bytes tag' values)
  | words {tag tag' : Tag} {values : List Number} (h : places tag tag') :
      Matches places (.words tag values) (.words tag' values)
  | vector {tag tag' : Tag} {label : String} (h : places tag tag') :
      Matches places (.vector tag label) (.vector tag' label)
  | includeFile {tag tag' : Tag} {path : String} (h : places tag tag') :
      Matches places (.includeFile tag path) (.includeFile tag' path)

section Equal

/-! ### Places that are equal -/

theorem Error.Matches.eq {e e' : Error} (h : e.Matches Eq e') : e' = e := by
  cases h with
  | located hfamily h => rw [h]

theorem Term.Matches.eq {term other : Term} (h : term.Matches Eq other) : other = term := by
  cases h with
  | number h => rw [h]
  | name h => rw [h]

theorem Operand.Matches.eq {operand other : Operand} (h : operand.Matches Eq other) :
    other = operand := by
  obtain ⟨kind, modifier, term⟩ := operand
  obtain ⟨kind', modifier', term'⟩ := other
  obtain ⟨rfl, rfl, hterm⟩ := h
  cases hterm with
  | some hterm => rw [hterm.eq]
  | none => rfl

theorem Statement.Matches.eq {s s' : Statement} (h : s.Matches Eq s') : s' = s := by
  cases h with
  | instruction h hoperand => rw [h, hoperand.eq]
  | comment h => rw [h]
  | label h => rw [h]
  | org h => rw [h]
  | pad h => rw [h]
  | bytes h => rw [h]
  | words h => rw [h]
  | vector h => rw [h]
  | includeFile h => rw [h]

end Equal

namespace Reader

/-! ## The end of a field -/

@[simp] theorem current_cons (last t : Token) (tokens : List Token) :
    current last (t :: tokens) = t :=
  rfl

@[simp] theorem current_nil (last : Token) : current last [] = last :=
  rfl

theorem afterAccumulator?_cons (last t : Token) (rest : List Token) :
    afterAccumulator? last (t :: rest) =
      match t.kind with
      | .identifier name =>
          if Text.upper name == "A" && atEndOfField last rest then some rest else none
      | _ => none :=
  rfl

section EndOfField

variable {last : Token} {tokens : List Token}

theorem payload_of_endsField {kind : TokenKind} (h : kind.endsField = true) :
    kind.number? = none ∧ kind.word? = none ∧ kind.quoted? = none := by
  cases kind with
  | newline => exact ⟨rfl, rfl, rfl⟩
  | comment text => exact ⟨rfl, rfl, rfl⟩
  | eof => exact ⟨rfl, rfl, rfl⟩
  | _ => cases h

theorem term?_of_endsField {t : Token} (h : t.kind.endsField = true) : term? t = none := by
  unfold term?
  split
  · next hkind => rw [hkind] at h; cases h
  · next hkind => rw [hkind] at h; cases h
  · rfl

theorem closing?_of_endsField {t : Token} (h : t.kind.endsField = true) : closing? t = none := by
  unfold closing?
  split
  · next hkind => rw [hkind] at h; cases h
  · rfl

theorem atEndOfField_nil (h : last.kind.endsField = true) : atEndOfField last [] = true :=
  h

variable (hend : atEndOfField last tokens = true)

include hend

theorem kind_ne_of_atEndOfField {kind : TokenKind} (hkind : kind.endsField = false) :
    (current last tokens).kind ≠ kind := by
  rintro rfl
  rw [atEndOfField, hkind] at hend
  cases hend

theorem afterComma?_of_atEndOfField : afterComma? last tokens = none := by
  unfold afterComma?
  split
  · next hkind => exact (kind_ne_of_atEndOfField hend rfl hkind).elim
  · rfl

theorem readModifier_of_atEndOfField : readModifier last tokens = (.none, tokens) := by
  unfold readModifier
  split
  · next hkind => exact (kind_ne_of_atEndOfField hend rfl hkind).elim
  · next hkind => exact (kind_ne_of_atEndOfField hend rfl hkind).elim
  · rfl

theorem afterAccumulator?_of_atEndOfField : afterAccumulator? last tokens = none := by
  unfold afterAccumulator?
  split
  · next hkind => exact (kind_ne_of_atEndOfField hend rfl hkind).elim
  · rfl

theorem readBody_of_atEndOfField : readBody last tokens = .ok (none, tokens) := by
  unfold readBody
  simp only
  split
  · next hkind => exact (kind_ne_of_atEndOfField hend rfl hkind).elim
  · next hkind => exact (kind_ne_of_atEndOfField hend rfl hkind).elim
  · rfl

theorem readLabel_of_atEndOfField : readLabel last tokens = (none, tokens) := by
  unfold readLabel
  simp only
  split
  · next hkind _ => exact (kind_ne_of_atEndOfField hend rfl hkind).elim
  · rfl

/-- One token alone is no label. -/
theorem readLabel_cons_of_atEndOfField (t : Token) :
    readLabel last (t :: tokens) = (none, t :: tokens) := by
  simp only [readLabel, List.tail_cons]
  split
  · next hcolon => exact (kind_ne_of_atEndOfField hend rfl hcolon).elim
  · rfl

end EndOfField

theorem readMoreNumbers_of_no_comma {last : Token} {tokens : List Token} (read : List Number)
    (hnone : afterComma? last tokens = none) :
    readMoreNumbers last read tokens = .ok (read.reverse, tokens) := by
  have hcomma : ∀ t rest, tokens = t :: rest → t.kind ≠ .comma := by
    rintro t rest rfl hkind
    simp [afterComma?, hkind] at hnone
  fun_cases readMoreNumbers last read tokens with
  | case1 => rfl
  | case2 t hkind => exact (hcomma t [] rfl hkind).elim
  | case3 t hkind => rfl
  | case4 t u rest hkind => exact (hcomma t _ rfl hkind).elim
  | case5 t u rest hkind => exact (hcomma t _ rfl hkind).elim
  | case6 t u rest hkind => rfl

/-- A comma at the end of the field lacks its number. -/
theorem readMoreNumbers_of_comma {last comma : Token} {tokens : List Token} (read : List Number)
    (hcomma : comma.kind = .comma) (hend : atEndOfField last tokens = true) :
    readMoreNumbers last read (comma :: tokens) = problemAt .numberExpected last tokens := by
  cases tokens with
  | nil => simp only [readMoreNumbers, hcomma]
  | cons t rest =>
      have hnone : t.kind.number? = none := (payload_of_endsField hend).1
      simp only [readMoreNumbers, hcomma, hnone]

/-! ## Two readings -/

/-- Two readings side by side: which places correspond, the last tokens, and what the tokens have in
common from the end of a field on. -/
structure Comparison where
  places : Tag → Tag → Prop
  last : Token
  last' : Token
  ends : List Token → List Token → Prop

namespace Comparison

/-- Tokens that match up to the end of the field. -/
inductive Fits (c : Comparison) : List Token → List Token → Prop
  | stop {tokens others : List Token} (h : c.ends tokens others)
      (hend : atEndOfField c.last tokens = true) (hend' : atEndOfField c.last' others = true)
      (hplace : c.places (current c.last tokens).tag (current c.last' others).tag) :
      Fits c tokens others
  | cons {t u : Token} {tokens others : List Token} (h : t.Matches c.places u)
      (hfield : t.kind.endsField = false) (hrest : Fits c tokens others) :
      Fits c (t :: tokens) (u :: others)

/-- Readings of what is related, which leave tokens that fit. -/
abbrev Reads {α : Type} (c : Comparison) (related : α → α → Prop) :
    Except Error (Read α) → Except Error (Read α) → Prop :=
  Agree (Error.Matches c.places) fun a b => related a.1 b.1 ∧ c.Fits a.2 b.2

end Comparison

section Productions

variable {c : Comparison} {tokens others : List Token}

theorem Comparison.Fits.place (h : c.Fits tokens others) :
    c.places (current c.last tokens).tag (current c.last' others).tag := by
  cases h with
  | stop _ _ _ hplace => exact hplace
  | cons h => exact h.place

theorem Comparison.Fits.atEndOfField_eq (h : c.Fits tokens others) :
    atEndOfField c.last' others = atEndOfField c.last tokens := by
  cases h with
  | stop _ hend hend' => rw [hend, hend']
  | cons h => simp only [atEndOfField, current_cons, h.kind_eq]

theorem problemAt_fits {α : Type} {related : α → α → Prop} {problem : Problem}
    (hfamily : problem.family = .malformed) (h : c.Fits tokens others) :
    Agree (Error.Matches c.places) related (problemAt problem c.last tokens)
      (problemAt problem c.last' others) :=
  .error (.located hfamily h.place)

theorem expect_fits {α : Type} {pick : Token → Option α} {related : α → α → Prop}
    {problem : Problem} (hfamily : problem.family = .malformed)
    (hends : ∀ t, t.kind.endsField = true → pick t = none)
    (hpick : ∀ t u, t.Matches c.places u → Option.Rel related (pick t) (pick u))
    (h : c.Fits tokens others) :
    c.Reads related (expect pick problem c.last tokens) (expect pick problem c.last' others) := by
  have hfails {β : Type} {related : β → β → Prop} :=
    @problemAt_fits c tokens others β related problem hfamily h
  cases h with
  | stop _ hend hend' =>
      simp only [expect, hends _ hend, hends _ hend']
      exact hfails
  | @cons t u tokens others h hfield hrest =>
      have hrel := hpick t u h
      simp only [expect, current_cons, List.tail_cons]
      generalize pick t = picked at hrel
      generalize pick u = picked' at hrel
      cases hrel with
      | some hvalue => exact .ok ⟨hvalue, hrest⟩
      | none => exact hfails

/-- A production that takes one token, by its kind alone. -/
theorem expect_kind_fits {α : Type} {pick : TokenKind → Option α} {problem : Problem}
    (hfamily : problem.family = .malformed)
    (hends : ∀ kind, kind.endsField = true → pick kind = none) (h : c.Fits tokens others) :
    c.Reads Eq (expect (fun t => pick t.kind) problem c.last tokens)
      (expect (fun t => pick t.kind) problem c.last' others) := by
  refine expect_fits hfamily (fun t => hends t.kind) (fun t u hmatch => ?_) h
  rw [hmatch.kind_eq]
  cases pick t.kind with
  | some value => exact .some rfl
  | none => exact .none

/-! ### Operands -/

theorem readTerm_fits (h : c.Fits tokens others) :
    c.Reads (Term.Matches c.places) (readTerm c.last tokens) (readTerm c.last' others) := by
  refine expect_fits rfl (fun t => term?_of_endsField) (fun t u hmatch => ?_) h
  simp only [term?, hmatch.kind_eq]
  split
  · exact .some (.number hmatch.place)
  · exact .some (.name hmatch.place)
  · exact .none

theorem readModifier_fits (h : c.Fits tokens others) :
    (readModifier c.last' others).1 = (readModifier c.last tokens).1 ∧
      c.Fits (readModifier c.last tokens).2 (readModifier c.last' others).2 := by
  cases h with
  | stop hends hend hend' hplace =>
      rw [readModifier_of_atEndOfField hend, readModifier_of_atEndOfField hend']
      exact ⟨rfl, .stop hends hend hend' hplace⟩
  | cons h hfield hrest =>
      simp only [readModifier, current_cons, h.kind_eq, List.tail_cons]
      split
      · exact ⟨rfl, hrest⟩
      · exact ⟨rfl, hrest⟩
      · exact ⟨rfl, .cons h hfield hrest⟩

theorem afterComma?_fits (h : c.Fits tokens others) :
    Option.Rel c.Fits (afterComma? c.last tokens) (afterComma? c.last' others) := by
  cases h with
  | stop _ hend hend' =>
      rw [afterComma?_of_atEndOfField hend, afterComma?_of_atEndOfField hend']
      exact .none
  | cons h hfield hrest =>
      simp only [afterComma?, current_cons, h.kind_eq, List.tail_cons]
      split
      · exact .some hrest
      · exact .none

theorem readClosing_fits (h : c.Fits tokens others) :
    c.Reads Eq (readClosing c.last tokens) (readClosing c.last' others) := by
  refine expect_fits rfl (fun t => closing?_of_endsField) (fun t u hmatch => ?_) h
  simp only [closing?, hmatch.kind_eq]
  split
  · exact .some rfl
  · exact .none

theorem readRegister_fits (register : Register) (h : c.Fits tokens others) :
    c.Reads Eq (readRegister register c.last tokens) (readRegister register c.last' others) := by
  refine @expect_kind_fits c tokens others _
    (fun kind => (kind.word?.bind register?).filter (· == register)) _ rfl (fun kind hends => ?_) h
  simp [(payload_of_endsField hends).2.1]

theorem readIndex_fits (h : c.Fits tokens others) :
    c.Reads Eq (readIndex c.last tokens) (readIndex c.last' others) := by
  refine @expect_kind_fits c tokens others _ (fun kind => kind.word?.bind register?) _ rfl
    (fun kind hends => ?_) h
  simp [(payload_of_endsField hends).2.1]

theorem matches_plain {term term' : Term} (h : term.Matches c.places term') (kind : OperandKind) :
    (Operand.plain kind term).Matches c.places (Operand.plain kind term') :=
  ⟨rfl, rfl, .some h⟩

theorem readIndirect_fits (h : c.Fits tokens others) :
    c.Reads (Operand.Matches c.places) (readIndirect c.last tokens)
      (readIndirect c.last' others) := by
  refine (readTerm_fits h).bind ?_
  rintro ⟨term, rest⟩ ⟨term', rest'⟩ ⟨hterm, hrest⟩
  have hcomma := afterComma?_fits hrest
  simp only
  generalize afterComma? c.last rest = comma at hcomma
  generalize afterComma? c.last' rest' = comma' at hcomma
  cases hcomma with
  | some hrest =>
      refine (readRegister_fits .x hrest).bind fun _ _ hx => ?_
      refine (readClosing_fits hx.2).bind fun _ _ hright => ?_
      exact .ok ⟨matches_plain hterm _, hright.2⟩
  | none =>
      refine (readClosing_fits hrest).bind ?_
      rintro ⟨_, rest⟩ ⟨_, rest'⟩ ⟨-, hrest⟩
      have hcomma := afterComma?_fits hrest
      simp only
      generalize afterComma? c.last rest = comma at hcomma
      generalize afterComma? c.last' rest' = comma' at hcomma
      cases hcomma with
      | some hrest =>
          refine (readRegister_fits .y hrest).bind fun _ _ hy => ?_
          exact .ok ⟨matches_plain hterm _, hy.2⟩
      | none => exact .ok ⟨matches_plain hterm _, hrest⟩

theorem readImmediate_fits (h : c.Fits tokens others) :
    c.Reads (Operand.Matches c.places) (readImmediate c.last tokens)
      (readImmediate c.last' others) := by
  obtain ⟨hmodifier, hrest⟩ := readModifier_fits h
  unfold readImmediate
  generalize readModifier c.last tokens = modified at hmodifier hrest ⊢
  generalize readModifier c.last' others = modified' at hmodifier hrest ⊢
  refine (readTerm_fits hrest).bind ?_
  rintro ⟨term, rest⟩ ⟨term', rest'⟩ ⟨hterm, hrest⟩
  exact .ok ⟨⟨rfl, hmodifier, .some hterm⟩, hrest⟩

theorem readAddress_fits (h : c.Fits tokens others) :
    c.Reads (Operand.Matches c.places) (readAddress c.last tokens)
      (readAddress c.last' others) := by
  obtain ⟨hmodifier, hrest⟩ := readModifier_fits h
  unfold readAddress
  generalize readModifier c.last tokens = modified at hmodifier hrest ⊢
  generalize readModifier c.last' others = modified' at hmodifier hrest ⊢
  refine (readTerm_fits hrest).bind ?_
  rintro ⟨term, rest⟩ ⟨term', rest'⟩ ⟨hterm, hrest⟩
  have hcomma := afterComma?_fits hrest
  simp only [hmodifier]
  generalize afterComma? c.last rest = comma at hcomma
  generalize afterComma? c.last' rest' = comma' at hcomma
  cases hcomma with
  | none => exact .ok ⟨⟨rfl, rfl, .some hterm⟩, hrest⟩
  | some hrest =>
      simp only
      split
      · refine (readIndex_fits hrest).bind ?_
        rintro ⟨register, rest⟩ ⟨register', rest'⟩ ⟨hregister, hrest⟩
        obtain rfl : register = register' := hregister
        cases register with
        | x => exact .ok ⟨matches_plain hterm _, hrest⟩
        | y => exact .ok ⟨matches_plain hterm _, hrest⟩
      · -- this error stands at the term
        cases hterm with
        | number hplace => exact .error (.located rfl hplace)
        | name hplace => exact .error (.located rfl hplace)

theorem afterAccumulator?_fits (h : c.Fits tokens others) :
    Option.Rel c.Fits (afterAccumulator? c.last tokens) (afterAccumulator? c.last' others) := by
  cases h with
  | stop _ hend hend' =>
      rw [afterAccumulator?_of_atEndOfField hend, afterAccumulator?_of_atEndOfField hend']
      exact .none
  | cons h hfield hrest =>
      rw [afterAccumulator?_cons, afterAccumulator?_cons, h.kind_eq, hrest.atEndOfField_eq]
      split
      · split
        · exact .some hrest
        · exact .none
      · exact .none

theorem readOperand_fits (accumulator : Bool) (h : c.Fits tokens others) :
    c.Reads (Operand.Matches c.places) (readOperand accumulator c.last tokens)
      (readOperand accumulator c.last' others) := by
  have haccumulator : Option.Rel c.Fits
      (if accumulator then afterAccumulator? c.last tokens else none)
      (if accumulator then afterAccumulator? c.last' others else none) := by
    split
    · exact afterAccumulator?_fits h
    · exact .none
  unfold readOperand
  rw [h.atEndOfField_eq]
  split
  · exact .ok ⟨⟨rfl, rfl, .none⟩, h⟩
  next hmore =>
  generalize (if accumulator then afterAccumulator? c.last tokens else none) = after
    at haccumulator
  generalize (if accumulator then afterAccumulator? c.last' others else none) = after'
    at haccumulator
  cases haccumulator with
  | some hrest => exact .ok ⟨⟨rfl, rfl, .none⟩, hrest⟩
  | none =>
      cases h with
      | stop _ hend => exact (hmore hend).elim
      | cons h hfield hrest =>
          simp only [current_cons, h.kind_eq, List.tail_cons]
          split
          · exact readImmediate_fits hrest
          · exact readIndirect_fits hrest
          · exact readAddress_fits (.cons h hfield hrest)

/-! ### Directives -/

theorem readNumber_fits (h : c.Fits tokens others) :
    c.Reads Eq (readNumber c.last tokens) (readNumber c.last' others) :=
  expect_kind_fits rfl (fun _ hends => (payload_of_endsField hends).1) h

theorem readLabelName_fits (h : c.Fits tokens others) :
    c.Reads Eq (readLabelName c.last tokens) (readLabelName c.last' others) :=
  expect_kind_fits rfl (fun _ hends => (payload_of_endsField hends).2.1) h

theorem readFileName_fits (h : c.Fits tokens others) :
    c.Reads Eq (readFileName c.last tokens) (readFileName c.last' others) :=
  expect_kind_fits rfl (fun _ hends => (payload_of_endsField hends).2.2) h

/-- Two tokens at a time, a comma and a number. -/
theorem readMoreNumbers_fits {tokens others : List Token} (read : List Number) :
    c.Fits tokens others →
      c.Reads Eq (readMoreNumbers c.last read tokens) (readMoreNumbers c.last' read others)
  | .stop hends hend hend' hplace => by
      rw [readMoreNumbers_of_no_comma read (afterComma?_of_atEndOfField hend),
        readMoreNumbers_of_no_comma read (afterComma?_of_atEndOfField hend')]
      exact .ok ⟨rfl, .stop hends hend hend' hplace⟩
  | .cons (t := t) h hfield (.stop hends hend hend' hplace) => by
      by_cases hcomma : t.kind = .comma
      · rw [readMoreNumbers_of_comma read hcomma hend,
          readMoreNumbers_of_comma read (h.kind_eq.trans hcomma) hend']
        exact problemAt_fits rfl (.stop hends hend hend' hplace)
      · rw [readMoreNumbers_of_no_comma, readMoreNumbers_of_no_comma]
        · exact .ok ⟨rfl, .cons h hfield (.stop hends hend hend' hplace)⟩
        · simp only [afterComma?, current_cons, h.kind_eq]
        · simp only [afterComma?, current_cons]
  | .cons h hfield (.cons h' hfield' hrest) => by
      simp only [readMoreNumbers, h.kind_eq, h'.kind_eq]
      split
      · split
        · exact readMoreNumbers_fits _ hrest
        · exact problemAt_fits rfl (.cons h' hfield' hrest)
      · exact .ok ⟨rfl, .cons h hfield (.cons h' hfield' hrest)⟩

theorem readNumbers_fits (h : c.Fits tokens others) :
    c.Reads Eq (readNumbers c.last tokens) (readNumbers c.last' others) := by
  refine (readNumber_fits h).bind ?_
  rintro ⟨first, rest⟩ ⟨first', rest'⟩ ⟨hfirst, hrest⟩
  obtain rfl : first = first' := hfirst
  exact readMoreNumbers_fits [first] hrest

/-- An argument that is read alike makes statements that match. -/
theorem Comparison.Reads.statement {α : Type} {first other : Except Error (Read α)}
    (h : c.Reads Eq first other) (make make' : α → Statement)
    (hmake : ∀ a, (make a).Matches c.places (make' a)) :
    c.Reads (Statement.Matches c.places) (first >>= fun r => .ok (make r.1, r.2))
      (other >>= fun r => .ok (make' r.1, r.2)) := by
  refine Agree.bind h ?_
  rintro ⟨a, rest⟩ ⟨b, rest'⟩ ⟨hsame, hrest⟩
  obtain rfl : a = b := hsame
  exact .ok ⟨hmake a, hrest⟩

theorem readArgument_fits {tag tag' : Tag} (htag : c.places tag tag') (directive : Directive)
    (h : c.Fits tokens others) :
    c.Reads (Statement.Matches c.places) (readArgument tag directive c.last tokens)
      (readArgument tag' directive c.last' others) := by
  cases directive with
  | org => exact (readNumber_fits h).statement (.org tag) (.org tag') fun _ => .org htag
  | pad => exact (readNumber_fits h).statement (.pad tag) (.pad tag') fun _ => .pad htag
  | byte => exact (readNumbers_fits h).statement (.bytes tag) (.bytes tag') fun _ => .bytes htag
  | word => exact (readNumbers_fits h).statement (.words tag) (.words tag') fun _ => .words htag
  | vector =>
      exact (readLabelName_fits h).statement (.vector tag) (.vector tag') fun _ => .vector htag
  | includeFile =>
      exact (readFileName_fits h).statement (.includeFile tag) (.includeFile tag')
        fun _ => .includeFile htag

theorem readDirective_fits {tag tag' : Tag} (htag : c.places tag tag') (name : String)
    (h : c.Fits tokens others) :
    c.Reads (Statement.Matches c.places) (readDirective tag name c.last tokens)
      (readDirective tag' name c.last' others) := by
  unfold readDirective
  split
  · exact readArgument_fits htag _ h
  · exact .error (.located rfl htag)

/-! ### Lines -/

theorem readBody_fits (h : c.Fits tokens others) :
    c.Reads (Option.Rel (Statement.Matches c.places)) (readBody c.last tokens)
      (readBody c.last' others) := by
  cases h with
  | stop hends hend hend' hplace =>
      rw [readBody_of_atEndOfField hend, readBody_of_atEndOfField hend']
      exact .ok ⟨.none, .stop hends hend hend' hplace⟩
  | cons h hfield hrest =>
      simp only [readBody, current_cons, h.kind_eq, List.tail_cons]
      split
      · refine (readOperand_fits _ hrest).bind ?_
        rintro ⟨operand, rest⟩ ⟨operand', rest'⟩ ⟨hoperand, hrest⟩
        exact .ok ⟨.some (.instruction h.place hoperand), hrest⟩
      · refine (readDirective_fits h.place _ hrest).bind ?_
        rintro ⟨s, rest⟩ ⟨s', rest'⟩ ⟨hs, hrest⟩
        exact .ok ⟨.some hs, hrest⟩
      · exact .ok ⟨.none, .cons h hfield hrest⟩

theorem readLabel_fits (h : c.Fits tokens others) :
    Option.Rel (Statement.Matches c.places) (readLabel c.last tokens).1
        (readLabel c.last' others).1 ∧
      c.Fits (readLabel c.last tokens).2 (readLabel c.last' others).2 := by
  cases h with
  | stop hends hend hend' hplace =>
      rw [readLabel_of_atEndOfField hend, readLabel_of_atEndOfField hend']
      exact ⟨.none, .stop hends hend hend' hplace⟩
  | cons h hfield hrest =>
      cases hrest with
      | stop hends hend hend' hplace =>
          rw [readLabel_cons_of_atEndOfField hend, readLabel_cons_of_atEndOfField hend']
          exact ⟨.none, .cons h hfield (.stop hends hend hend' hplace)⟩
      | cons h' hfield' hrest =>
          simp only [readLabel, current_cons, h.kind_eq, List.tail_cons, h'.kind_eq]
          split
          · exact ⟨.some (.label h.place), hrest⟩
          · exact ⟨.none, .cons h hfield (.cons h' hfield' hrest)⟩

theorem forall₂_toList {α : Type} {related : α → α → Prop} {o o' : Option α}
    (h : Option.Rel related o o') : List.Forall₂ related o.toList o'.toList := by
  cases h with
  | some h => exact .cons h .nil
  | none => exact .nil

/-- What follows the statements of a line is no token that does not end the field. -/
theorem readLineFrom_of_field {last t : Token} {rest : List Token} (read : List Statement)
    (hfield : t.kind.endsField = false) :
    readLineFrom read last (t :: rest) = problemAt .endOfLineExpected last (t :: rest) := by
  have hcomment : readComment read.isEmpty last (t :: rest) = (none, t :: rest) := by
    simp only [readComment, current_cons]
    split
    · next hkind => rw [hkind] at hfield; cases hfield
    · rfl
  simp only [readLineFrom, hcomment, readEndOfLine, current_cons]
  split
  · next hkind => rw [hkind] at hfield; cases hfield
  · next hkind => rw [hkind] at hfield; cases hfield
  · rfl

/-- A line comes to the same, if what follows its last field does. -/
theorem readLine_fits {related : Read (List Statement) → Read (List Statement) → Prop}
    (h : c.Fits tokens others)
    (hends : ∀ tokens others, c.ends tokens others → c.Fits tokens others →
      ∀ read read', List.Forall₂ (Statement.Matches c.places) read read' →
        Agree (Error.Matches c.places) related (readLineFrom read c.last tokens)
          (readLineFrom read' c.last' others)) :
    Agree (Error.Matches c.places) related (readLine c.last tokens) (readLine c.last' others) := by
  obtain ⟨hlabel, hrest⟩ := readLabel_fits h
  unfold readLine
  generalize readLabel c.last tokens = labelled at hlabel hrest ⊢
  generalize readLabel c.last' others = labelled' at hlabel hrest ⊢
  refine (readBody_fits hrest).bind ?_
  rintro ⟨body, rest⟩ ⟨body', rest'⟩ ⟨hbody, hrest⟩
  have hread := List.rel_append (forall₂_toList hlabel) (forall₂_toList hbody)
  cases hrest with
  | stop h hend hend' hplace => exact hends _ _ h (.stop h hend hend' hplace) _ _ hread
  | cons h hfield hrest =>
      simp only
      rw [readLineFrom_of_field _ hfield, readLineFrom_of_field _ (h.kind_eq ▸ hfield)]
      exact .error (.located rfl h.place)

end Productions

end Reader

end Asm65
