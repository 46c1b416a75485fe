import Asm65.Program.Build
import Asm65.Proofs.Tokens

/-!
# Statements that come from a text

A statement that was read from a text is well formed: its literals are consistent, its operand has
a term exactly when it is written with one, a modifier stands only where it counts, and every
place in it lies in the text.
-/

namespace Asm65

/-- A place is given, and it is one of the good ones. -/
def Placed (good : Tag → Prop) (tag : Option Tag) : Prop :=
  ∃ t, tag = some t ∧ good t

/-- A term with a place and, if it is a literal, a consistent one. -/
def Term.WellFormed (good : Tag → Prop) : Term → Prop
  | .number tag n => Placed good tag ∧ n.Consistent
  | .name tag _ => Placed good tag

/-- An operand as it can be written: a term unless it is empty, and a modifier only where it
counts. -/
def Operand.WellFormed (good : Tag → Prop) (operand : Operand) : Prop :=
  match operand.term with
  | .none => operand.kind = .none ∧ operand.modifier = .none
  | .some term =>
      operand.kind ≠ .none ∧ term.WellFormed good ∧
        (operand.kind.takesModifier = false → operand.modifier = .none)

/-- A statement as it can be written. -/
def Statement.WellFormed (good : Tag → Prop) : Statement → Prop
  | .comment tag | .label tag _ | .vector tag _ | .includeFile tag _ => Placed good tag
  | .instruction tag _ operand => Placed good tag ∧ operand.WellFormed good
  | .org tag address | .pad tag address => Placed good tag ∧ address.Consistent
  | .bytes tag values | .words tag values =>
      Placed good tag ∧ values ≠ [] ∧ ∀ n ∈ values, n.Consistent
  | .unknown => False

/-! ## More places -/

section Mono

variable {good better : Tag → Prop} (himp : ∀ t, good t → better t)

include himp

theorem Placed.mono {tag : Option Tag} (h : Placed good tag) : Placed better tag := by
  obtain ⟨t, ht, hgood⟩ := h
  exact ⟨t, ht, himp t hgood⟩

theorem Term.WellFormed.mono {term : Term} (h : term.WellFormed good) :
    term.WellFormed better := by
  cases term with
  | number tag n => exact ⟨Placed.mono himp h.1, h.2⟩
  | name tag name => exact Placed.mono himp h

theorem Operand.WellFormed.mono {operand : Operand} (h : operand.WellFormed good) :
    operand.WellFormed better := by
  obtain ⟨kind, modifier, term⟩ := operand
  cases term with
  | none => exact h
  | some term =>
      obtain ⟨hkind, hterm, hmodifier⟩ := h
      exact ⟨hkind, Term.WellFormed.mono himp hterm, hmodifier⟩

/-- A statement stays well formed when more places count as good. -/
theorem Statement.WellFormed.mono {statement : Statement} (h : statement.WellFormed good) :
    statement.WellFormed better := by
  cases statement with
  | comment tag => exact Placed.mono himp h
  | label tag name => exact Placed.mono himp h
  | instruction tag mnemonic operand =>
      exact ⟨Placed.mono himp h.1, Operand.WellFormed.mono himp h.2⟩
  | org tag address => exact ⟨Placed.mono himp h.1, h.2⟩
  | pad tag address => exact ⟨Placed.mono himp h.1, h.2⟩
  | bytes tag values => exact ⟨Placed.mono himp h.1, h.2⟩
  | words tag values => exact ⟨Placed.mono himp h.1, h.2⟩
  | vector tag label => exact Placed.mono himp h
  | includeFile tag path => exact Placed.mono himp h
  | unknown => exact h

end Mono

/-! ## Computations that may fail -/

/-- If two computations in a row give a result, so does the first of them. -/
theorem bind_ok_inv {failure α β : Type} {first : Except failure α}
    {next : α → Except failure β} {result : β} (h : first >>= next = .ok result) :
    ∃ value, first = .ok value ∧ next value = .ok result := by
  match first, h with
  | .ok value, h => exact ⟨value, rfl, h⟩

theorem ok_of_isOk {failure α : Type} {outcome : Except failure α} (h : outcome.isOk = true) :
    ∃ value, outcome = .ok value := by
  match outcome, h with
  | .ok value, _ => exact ⟨value, rfl⟩

end Asm65
