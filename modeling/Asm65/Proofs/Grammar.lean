import Asm65.Proofs.Lines

/-!
# The grammar of lines

    line        := [IDENT ':'] [instruction | directive] [COMMENT]
    instruction := IDENT [operand]
    operand     := '#' ['<' | '>'] term | ['<' | '>'] term | term ',' ('X' | 'Y')
                 | '(' term ')' | '(' term ',' 'X' ')' | '(' term ')' ',' 'Y' | 'A'
    term        := NUMBER | IDENT
    directive   := '.org' NUMBER | '.pad' NUMBER | '.byte' numbers | '.word' numbers
                 | '.vector' IDENT | '.include' STRING
    numbers     := NUMBER {',' NUMBER}

Each production is a relation between tokens and what they denote.  What can be derived has no end
of a line in it, and the statements it denotes are well formed.
-/

namespace Asm65

/-- Whether tokens of a kind stand in operands. -/
def TokenKind.isArgument : TokenKind → Bool
  | .identifier _ | .number _ | .hash | .less | .greater | .comma | .leftParen | .rightParen => true
  | _ => false

theorem TokenKind.endsLine_of_isArgument {kind : TokenKind} (h : kind.isArgument = true) :
    kind.endsLine = false := by
  cases kind with
  | newline => cases h
  | eof => cases h
  | _ => rfl

namespace Grammar

/-- `term := NUMBER | IDENT` -/
inductive IsTerm : Token → Term → Prop
  | number {t : Token} {n : Number} (hkind : t.kind = .number n) : IsTerm t (.number t.tag n)
  | name {t : Token} {name : String} (hkind : t.kind = .identifier name) :
      IsTerm t (.name t.tag name)

/-- `['<' | '>']` -/
inductive IsSign : List Token → Modifier → Prop
  | none : IsSign [] .none
  | low {t : Token} (hkind : t.kind = .less) : IsSign [t] .lowByte
  | high {t : Token} (hkind : t.kind = .greater) : IsSign [t] .highByte

/-- A word of capitals, written in any case. -/
def IsWord (word : String) (t : Token) : Prop :=
  ∃ name, t.kind = .identifier name ∧ Text.upper name = word

/-- The operand field of an instruction.  A bare `A` is the accumulator where there is a form of
the instruction for it, and a label elsewhere. -/
inductive IsOperand (accumulator : Prop) : List Token → Operand → Prop
  | none : IsOperand accumulator [] .none
  | accumulator {a : Token} (htakes : accumulator) (ha : IsWord "A" a) :
      IsOperand accumulator [a] .none
  | immediate {hash t : Token} {sign : List Token} {modifier : Modifier} {term : Term}
      (hhash : hash.kind = .hash) (hsign : IsSign sign modifier) (hterm : IsTerm t term) :
      IsOperand accumulator (hash :: sign ++ [t]) ⟨.immediate, modifier, some term⟩
  | address {t : Token} {sign : List Token} {modifier : Modifier} {term : Term}
      (hsign : IsSign sign modifier) (hterm : IsTerm t term)
      (hlabel : accumulator → sign = [] → ¬ IsWord "A" t) :
      IsOperand accumulator (sign ++ [t]) ⟨.address, modifier, some term⟩
  | indexedX {t comma x : Token} {term : Term} (hterm : IsTerm t term)
      (hcomma : comma.kind = .comma) (hx : IsWord "X" x) :
      IsOperand accumulator [t, comma, x] (.plain .absoluteX term)
  | indexedY {t comma y : Token} {term : Term} (hterm : IsTerm t term)
      (hcomma : comma.kind = .comma) (hy : IsWord "Y" y) :
      IsOperand accumulator [t, comma, y] (.plain .absoluteY term)
  | indirect {left t right : Token} {term : Term} (hleft : left.kind = .leftParen)
      (hterm : IsTerm t term) (hright : right.kind = .rightParen) :
      IsOperand accumulator [left, t, right] (.plain .indirect term)
  | indirectX {left t comma x right : Token} {term : Term} (hleft : left.kind = .leftParen)
      (hterm : IsTerm t term) (hcomma : comma.kind = .comma) (hx : IsWord "X" x)
      (hright : right.kind = .rightParen) :
      IsOperand accumulator [left, t, comma, x, right] (.plain .indirectX term)
  | indirectY {left t right comma y : Token} {term : Term} (hleft : left.kind = .leftParen)
      (hterm : IsTerm t term) (hright : right.kind = .rightParen) (hcomma : comma.kind = .comma)
      (hy : IsWord "Y" y) :
      IsOperand accumulator [left, t, right, comma, y] (.plain .indirectY term)

/-- The mnemonics of the instructions that have a form for the accumulator, in any case. -/
def TakesAccumulator (mnemonic : String) : Prop :=
  Text.upper mnemonic ∈ ["ASL", "LSR", "ROL", "ROR"]

/-- `numbers := NUMBER {',' NUMBER}` -/
inductive IsNumbers : List Token → List Number → Prop
  | one {t : Token} {n : Number} (hkind : t.kind = .number n) : IsNumbers [t] [n]
  | more {t comma : Token} {n : Number} {rest : List Token} {values : List Number}
      (hkind : t.kind = .number n) (hcomma : comma.kind = .comma)
      (hrest : IsNumbers rest values) : IsNumbers (t :: comma :: rest) (n :: values)

/-- The directives with their arguments. -/
inductive IsDirective : List Token → Statement → Prop
  | org {d t : Token} {n : Number} (hname : d.kind = .directive "org")
      (hkind : t.kind = .number n) : IsDirective [d, t] (.org d.tag n)
  | pad {d t : Token} {n : Number} (hname : d.kind = .directive "pad")
      (hkind : t.kind = .number n) : IsDirective [d, t] (.pad d.tag n)
  | byte {d : Token} {tokens : List Token} {values : List Number}
      (hname : d.kind = .directive "byte") (hvalues : IsNumbers tokens values) :
      IsDirective (d :: tokens) (.bytes d.tag values)
  | word {d : Token} {tokens : List Token} {values : List Number}
      (hname : d.kind = .directive "word") (hvalues : IsNumbers tokens values) :
      IsDirective (d :: tokens) (.words d.tag values)
  | vector {d t : Token} {label : String} (hname : d.kind = .directive "vector")
      (hkind : t.kind = .identifier label) : IsDirective [d, t] (.vector d.tag label)
  | includeFile {d t : Token} {path : String} (hname : d.kind = .directive "include")
      (hkind : t.kind = .string path) : IsDirective [d, t] (.includeFile d.tag path)

/-- `[IDENT ':']` -/
inductive IsLabel : List Token → List Statement → Prop
  | none : IsLabel [] []
  | label {t colon : Token} {name : String} (hkind : t.kind = .identifier name)
      (hcolon : colon.kind = .colon) : IsLabel [t, colon] [.label t.tag name]

/-- `[instruction | directive]` -/
inductive IsBody : List Token → List Statement → Prop
  | none : IsBody [] []
  | instruction {m : Token} {tokens : List Token} {mnemonic : String} {operand : Operand}
      (hkind : m.kind = .identifier mnemonic)
      (hoperand : IsOperand (TakesAccumulator mnemonic) tokens operand) :
      IsBody (m :: tokens) [.instruction m.tag mnemonic operand]
  | directive {tokens : List Token} {s : Statement} (hdirective : IsDirective tokens s) :
      IsBody tokens [s]

/-- `[COMMENT]` -/
inductive IsComment : List Token → List Statement → Prop
  | none : IsComment [] []
  | comment {t : Token} {text : String} (hkind : t.kind = .comment text) :
      IsComment [t] [.comment t.tag]

/-- A line and the statements it denotes.  A comment is a statement only where it stands alone. -/
inductive IsLine : List Token → List Statement → Prop
  | line {label body comment : List Token} {labels bodies comments : List Statement}
      (hlabel : IsLabel label labels) (hbody : IsBody body bodies)
      (hcomment : IsComment comment comments) :
      IsLine (label ++ body ++ comment)
        (if (labels ++ bodies).isEmpty then comments else labels ++ bodies)

section Arguments

variable {t : Token} {tokens : List Token}

theorem IsTerm.isArgument {term : Term} (h : IsTerm t term) : t.kind.isArgument = true := by
  cases h with
  | number hkind => rw [hkind]; rfl
  | name hkind => rw [hkind]; rfl

theorem IsWord.isArgument {word : String} (h : IsWord word t) : t.kind.isArgument = true := by
  obtain ⟨written, hkind, -⟩ := h
  rw [hkind]
  rfl

theorem IsSign.isArgument {modifier : Modifier} (h : IsSign tokens modifier) :
    ∀ t ∈ tokens, t.kind.isArgument = true := by
  cases h with
  | none => exact List.forall_mem_nil _
  | low hkind => simp [hkind, TokenKind.isArgument]
  | high hkind => simp [hkind, TokenKind.isArgument]

theorem IsOperand.isArgument {takes : Prop} {operand : Operand}
    (h : IsOperand takes tokens operand) : ∀ t ∈ tokens, t.kind.isArgument = true := by
  cases h with
  | none => exact List.forall_mem_nil _
  | accumulator htakes ha => simpa using ha.isArgument
  | immediate hhash hsign hterm =>
      refine List.forall_mem_append.2 ⟨?_, by simpa using hterm.isArgument⟩
      exact List.forall_mem_cons.2 ⟨by rw [hhash]; rfl, hsign.isArgument⟩
  | address hsign hterm hlabel =>
      exact List.forall_mem_append.2 ⟨hsign.isArgument, by simpa using hterm.isArgument⟩
  | indexedX hterm hcomma hx => simp +decide [hterm.isArgument, hcomma, hx.isArgument]
  | indexedY hterm hcomma hy => simp +decide [hterm.isArgument, hcomma, hy.isArgument]
  | indirect hleft hterm hright => simp +decide [hleft, hterm.isArgument, hright]
  | indirectX hleft hterm hcomma hx hright =>
      simp +decide [hleft, hterm.isArgument, hcomma, hx.isArgument, hright]
  | indirectY hleft hterm hright hcomma hy =>
      simp +decide [hleft, hterm.isArgument, hright, hcomma, hy.isArgument]

theorem IsNumbers.isArgument {values : List Number} (h : IsNumbers tokens values) :
    ∀ t ∈ tokens, t.kind.isArgument = true := by
  induction h with
  | one hkind => simp [hkind, TokenKind.isArgument]
  | more hkind hcomma _ ih => simpa [hkind, hcomma, TokenKind.isArgument] using ih

end Arguments

/-! ## No line has the end of a line in it -/

section Inner

variable {tokens : List Token} {statements : List Statement}

theorem inner_of_isArgument (h : ∀ t ∈ tokens, t.kind.isArgument = true) :
    ∀ t ∈ tokens, t.kind.endsLine = false :=
  fun t ht => TokenKind.endsLine_of_isArgument (h t ht)

theorem IsDirective.inner {s : Statement} (h : IsDirective tokens s) :
    ∀ t ∈ tokens, t.kind.endsLine = false := by
  cases h with
  | org hname hkind => simp [hname, hkind, TokenKind.endsLine]
  | pad hname hkind => simp [hname, hkind, TokenKind.endsLine]
  | byte hname hvalues =>
      exact List.forall_mem_cons.2 ⟨by rw [hname]; rfl, inner_of_isArgument hvalues.isArgument⟩
  | word hname hvalues =>
      exact List.forall_mem_cons.2 ⟨by rw [hname]; rfl, inner_of_isArgument hvalues.isArgument⟩
  | vector hname hkind => simp [hname, hkind, TokenKind.endsLine]
  | includeFile hname hkind => simp [hname, hkind, TokenKind.endsLine]

theorem IsLabel.inner (h : IsLabel tokens statements) :
    ∀ t ∈ tokens, t.kind.endsLine = false := by
  cases h with
  | none => exact List.forall_mem_nil _
  | label hkind hcolon => simp [hkind, hcolon, TokenKind.endsLine]

theorem IsBody.inner (h : IsBody tokens statements) :
    ∀ t ∈ tokens, t.kind.endsLine = false := by
  cases h with
  | none => exact List.forall_mem_nil _
  | instruction hkind hoperand =>
      exact List.forall_mem_cons.2 ⟨by rw [hkind]; rfl, inner_of_isArgument hoperand.isArgument⟩
  | directive hdirective => exact hdirective.inner

theorem IsComment.inner (h : IsComment tokens statements) :
    ∀ t ∈ tokens, t.kind.endsLine = false := by
  cases h with
  | none => exact List.forall_mem_nil _
  | comment hkind => simp [hkind, TokenKind.endsLine]

theorem IsLine.inner (h : IsLine tokens statements) :
    ∀ t ∈ tokens, t.kind.endsLine = false := by
  cases h with
  | line hlabel hbody hcomment =>
      refine List.forall_mem_append.2 ⟨?_, hcomment.inner⟩
      exact List.forall_mem_append.2 ⟨hlabel.inner, hbody.inner⟩

end Inner

/-! ## What can be derived is well formed -/

section WellFormed

variable {good : Tag → Prop} {t : Token} {tokens : List Token}

theorem placed_of_sound (h : t.Sound good) : Placed good t.tag :=
  ⟨t.tag, rfl, h.place⟩

theorem IsTerm.wellFormed {term : Term} (h : IsTerm t term) (ht : t.Sound good) :
    term.WellFormed good := by
  cases h with
  | number hkind => exact ⟨placed_of_sound ht, ht.consistent _ hkind⟩
  | name hkind => exact placed_of_sound ht

theorem wellFormed_plain {kind : OperandKind} {term : Term} (hkind : kind ≠ .none)
    (hterm : term.WellFormed good) : (Operand.plain kind term).WellFormed good :=
  ⟨hkind, hterm, fun _ => rfl⟩

theorem IsOperand.wellFormed {takes : Prop} {operand : Operand}
    (h : IsOperand takes tokens operand) (hsound : ∀ t ∈ tokens, t.Sound good) :
    operand.WellFormed good := by
  cases h with
  | none => exact ⟨rfl, rfl⟩
  | accumulator htakes ha => exact ⟨rfl, rfl⟩
  | immediate hhash hsign hterm =>
      exact ⟨by simp, hterm.wellFormed (hsound _ (by simp)), by simp [OperandKind.takesModifier]⟩
  | address hsign hterm hlabel =>
      exact ⟨by simp, hterm.wellFormed (hsound _ (by simp)), by simp [OperandKind.takesModifier]⟩
  | indexedX hterm hcomma hx =>
      exact wellFormed_plain (by decide) (hterm.wellFormed (hsound _ (by simp)))
  | indexedY hterm hcomma hy =>
      exact wellFormed_plain (by decide) (hterm.wellFormed (hsound _ (by simp)))
  | indirect hleft hterm hright =>
      exact wellFormed_plain (by decide) (hterm.wellFormed (hsound _ (by simp)))
  | indirectX hleft hterm hcomma hx hright =>
      exact wellFormed_plain (by decide) (hterm.wellFormed (hsound _ (by simp)))
  | indirectY hleft hterm hright hcomma hy =>
      exact wellFormed_plain (by decide) (hterm.wellFormed (hsound _ (by simp)))

theorem IsNumbers.consistent {values : List Number} (h : IsNumbers tokens values)
    (hsound : ∀ t ∈ tokens, t.Sound good) : values ≠ [] ∧ ∀ n ∈ values, n.Consistent := by
  induction h with
  | one hkind =>
      refine ⟨List.cons_ne_nil _ _, fun n hn => ?_⟩
      rw [List.mem_singleton.1 hn]
      exact (hsound _ List.mem_cons_self).consistent _ hkind
  | more hkind hcomma _ ih =>
      obtain ⟨ht, hbehind⟩ := List.forall_mem_cons.1 hsound
      obtain ⟨-, hothers⟩ := ih (List.forall_mem_cons.1 hbehind).2
      exact ⟨List.cons_ne_nil _ _, List.forall_mem_cons.2 ⟨ht.consistent _ hkind, hothers⟩⟩

theorem IsDirective.wellFormed {s : Statement} (h : IsDirective tokens s)
    (hsound : ∀ t ∈ tokens, t.Sound good) : s.WellFormed good := by
  cases h with
  | org hname hkind =>
      exact ⟨placed_of_sound (hsound _ (by simp)), (hsound _ (by simp)).consistent _ hkind⟩
  | pad hname hkind =>
      exact ⟨placed_of_sound (hsound _ (by simp)), (hsound _ (by simp)).consistent _ hkind⟩
  | byte hname hvalues =>
      obtain ⟨hd, hothers⟩ := List.forall_mem_cons.1 hsound
      exact ⟨placed_of_sound hd, hvalues.consistent hothers⟩
  | word hname hvalues =>
      obtain ⟨hd, hothers⟩ := List.forall_mem_cons.1 hsound
      exact ⟨placed_of_sound hd, hvalues.consistent hothers⟩
  | vector hname hkind => exact placed_of_sound (hsound _ (by simp))
  | includeFile hname hkind => exact placed_of_sound (hsound _ (by simp))

theorem IsLabel.wellFormed {labels : List Statement} (h : IsLabel tokens labels)
    (hsound : ∀ t ∈ tokens, t.Sound good) : ∀ s ∈ labels, s.WellFormed good := by
  cases h with
  | none => exact List.forall_mem_nil _
  | label hkind hcolon =>
      exact List.forall_mem_singleton.2 (placed_of_sound (hsound _ List.mem_cons_self))

theorem IsBody.wellFormed {bodies : List Statement} (h : IsBody tokens bodies)
    (hsound : ∀ t ∈ tokens, t.Sound good) : ∀ s ∈ bodies, s.WellFormed good := by
  cases h with
  | none => exact List.forall_mem_nil _
  | instruction hkind hoperand =>
      obtain ⟨hm, hothers⟩ := List.forall_mem_cons.1 hsound
      exact List.forall_mem_singleton.2 ⟨placed_of_sound hm, hoperand.wellFormed hothers⟩
  | directive hdirective => exact List.forall_mem_singleton.2 (hdirective.wellFormed hsound)

theorem IsComment.wellFormed {comments : List Statement} (h : IsComment tokens comments)
    (hsound : ∀ t ∈ tokens, t.Sound good) : ∀ s ∈ comments, s.WellFormed good := by
  cases h with
  | none => exact List.forall_mem_nil _
  | comment hkind =>
      exact List.forall_mem_singleton.2 (placed_of_sound (hsound _ List.mem_cons_self))

theorem IsLine.wellFormed {statements : List Statement} (h : IsLine tokens statements)
    (hsound : ∀ t ∈ tokens, t.Sound good) : ∀ s ∈ statements, s.WellFormed good := by
  cases h with
  | line hlabel hbody hcomment =>
      obtain ⟨hfront, hback⟩ := List.forall_mem_append.1 hsound
      obtain ⟨hfirst, hsecond⟩ := List.forall_mem_append.1 hfront
      split
      · exact hcomment.wellFormed hback
      · exact List.forall_mem_append.2 ⟨hlabel.wellFormed hfirst, hbody.wellFormed hsecond⟩

end WellFormed

end Grammar

end Asm65
