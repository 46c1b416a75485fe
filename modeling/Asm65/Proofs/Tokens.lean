import Asm65.Token.Scan

/-!
# What the tokens of a text carry

Every literal that is read has a value in the range of its width, and every token stands in the
text it was read from.  The scan is followed character by character; the invariant is that the
reading position and the rest of the text together have the length of the text.
-/

namespace Asm65

/-- The value of a literal lies in the range of the width it was written with. -/
def Number.Consistent (n : Number) : Prop :=
  match n.width with
  | .byte => 0 ≤ n.value ∧ n.value ≤ 0xFF
  | .word => 0 ≤ n.value ∧ n.value ≤ 0xFFFF
  | .invalid => 0xFFFF < n.value

theorem Number.ofValue_consistent (value : Nat) : (Number.ofValue value).Consistent := by
  unfold Number.ofValue
  split
  · assumption
  · split
    · assumption
    · simp only [Number.Consistent]
      omega

theorem Number.ofDigits_consistent (byteDigits digits value : Nat) :
    (Number.ofDigits byteDigits digits value).Consistent := by
  unfold Number.ofDigits
  split
  · simp only [Number.Consistent]
    omega
  · split <;> simp only [Number.Consistent] <;> omega

/-- A place in a unit, not behind the end of a text of the given length. -/
structure Tag.Within (unit : Int) (length : Nat) (t : Tag) : Prop where
  unit_eq : t.unit = unit
  nonneg : 0 ≤ t.offset
  le_length : t.offset ≤ length

/-- A literal among the tokens is consistent. -/
def TokenKind.Consistent (kind : TokenKind) : Prop :=
  ∀ n, kind = .number n → n.Consistent

/-- A token whose literal is consistent and whose place is one of the given ones. -/
structure Token.Sound (good : Tag → Prop) (t : Token) : Prop where
  consistent : t.kind.Consistent
  place : good t.tag

namespace Token

/-! ## Lexemes -/

theorem scanDecimal_consistent {c : Char} {rest : List Char} {kind : TokenKind} {more : Nat}
    (h : scanDecimal c rest = .ok (kind, more)) : kind.Consistent := by
  simp only [scanDecimal] at h
  split at h
  · cases h
  · split at h
    · cases h
      rintro n ⟨⟩
      exact Number.ofValue_consistent _
    · cases h

theorem scanDigits_consistent {isDigit : Char → Bool} {base byteDigits : Nat} {rest : List Char}
    {kind : TokenKind} {more : Nat}
    (h : scanDigits isDigit base byteDigits rest = .ok (kind, more)) : kind.Consistent := by
  simp only [scanDigits] at h
  split at h
  · cases h
  · cases h
    rintro n ⟨⟩
    exact Number.ofDigits_consistent _ _ _

theorem scanDirective_consistent {rest : List Char} {kind : TokenKind} {more : Nat}
    (h : scanDirective rest = .ok (kind, more)) : kind.Consistent := by
  unfold scanDirective at h
  split at h
  · cases h
  · cases h
    rintro n ⟨⟩

theorem scanString_consistent {rest : List Char} {kind : TokenKind} {more : Nat}
    (h : scanString rest = .ok (kind, more)) : kind.Consistent := by
  simp only [scanString] at h
  split at h
  · cases h
    rintro n ⟨⟩
  · cases h

theorem punctuation?_consistent {c : Char} {kind : TokenKind} (h : punctuation? c = some kind) :
    kind.Consistent := by
  unfold punctuation? at h
  split at h <;> cases h <;> rintro n ⟨⟩

/-- Whatever lexeme is read, its literal is consistent. -/
theorem scanLexeme_consistent {c : Char} {rest : List Char} {kind : TokenKind} {more : Nat}
    (h : scanLexeme c rest = .ok (kind, more)) : kind.Consistent := by
  unfold scanLexeme at h
  -- one case per first character, in the order in which they are tried
  split at h
  · cases h; rintro n ⟨⟩
  split at h
  · cases h; rintro n ⟨⟩
  split at h
  · cases h; rintro n ⟨⟩
  split at h
  · exact scanDirective_consistent h
  split at h
  · exact scanDigits_consistent h
  split at h
  · exact scanDigits_consistent h
  split at h
  · exact scanDecimal_consistent h
  split at h
  · exact scanString_consistent h
  split at h
  · next hkind =>
      cases h
      exact punctuation?_consistent hkind
  · cases h

/-! ## The whole text -/

@[simp] theorem advance_offset (p : Cursor) (c : Char) :
    (p.advance c).offset = p.offset + 1 := by
  unfold Cursor.advance
  split <;> rfl

theorem placed_sound {unit : Int} {length : Nat} {position : Cursor} {kind : TokenKind}
    (hkind : kind.Consistent) (hplace : position.offset ≤ length) :
    (placed unit position kind).Sound (Tag.Within unit length) where
  consistent := hkind
  place := ⟨rfl, by simp [tag, placed], by simpa [tag, placed] using hplace⟩

/-- The tokens found so far and those of the rest of the text stand in the text. -/
theorem scanFrom_sound {unit : Int} {length owed : Nat} {position : Cursor} {found : List Token}
    {text : List Char} (hfound : ∀ t ∈ found, t.Sound (Tag.Within unit length))
    (hlength : position.offset + text.length = length) :
    ∀ t ∈ (scanFrom unit position owed found text).tokens,
      t.Sound (Tag.Within unit length) := by
  -- on the characters left; what was found and where it was found go along
  induction text generalizing position owed found with
  | nil =>
      intro t ht
      simp only [scanFrom, List.mem_reverse, List.mem_cons] at ht
      rcases ht with rfl | ht
      · exact placed_sound (by rintro n ⟨⟩) (by simpa using Nat.le_of_eq hlength)
      · exact hfound t ht
  | cons c rest ih =>
      have hnext : (position.advance c).offset + rest.length = length := by
        simp only [List.length_cons] at hlength
        simp only [advance_offset]
        omega
      unfold scanFrom
      split
      · exact ih hfound hnext
      · split
        · exact ih hfound hnext
        · split
          · next kind more hlexeme =>
              refine ih (List.forall_mem_cons.2 ⟨?_, hfound⟩) hnext
              exact placed_sound (scanLexeme_consistent hlexeme) (by omega)
          · intro t ht
            exact hfound t (List.mem_reverse.1 ht)

/-- Every token of a text is consistent and stands in the text. -/
theorem scan_sound (unit : Int) (text : List Char) :
    ∀ t ∈ (scan unit text).tokens, t.Sound (Tag.Within unit text.length) :=
  scanFrom_sound (by simp) (by simp [Cursor.start])

end Token

end Asm65
