import Asm65.Proofs.Lexemes
import Asm65.Proofs.Lines

/-!
# How reading a text fails

A production that cannot go on fails with a syntax error at one of the tokens, which is seen when
the tokens are compared with themselves; so every failure behind the scan has a place in the text.
The scan itself fails with a syntax error or at a numeral that is no decimal number, and only the
latter is no error of this kind.
-/

namespace Asm65

namespace Reader

variable {good : Tag → Prop} {last : Token} {tokens : List Token}

/-- A failure is a syntax error at one of the good places. -/
def Fails {α : Type} (good : Tag → Prop) (outcome : Except Error α) : Prop :=
  ∀ e, outcome = .error e →
    ∃ problem tag, e = .located problem tag ∧ problem.family = .malformed ∧ good tag

theorem fails_ok {α : Type} (value : α) : Fails good (.ok value : Except Error α) := by
  rintro e ⟨⟩

/-- Tokens at good places, compared with themselves. -/
def Comparison.self (good : Tag → Prop) (last : Token) : Comparison where
  places tag tag' := tag' = tag ∧ good tag
  last := last
  last' := last
  ends tokens others := others = tokens ∧ ∀ t ∈ tokens, good t.tag

section Self

variable (hends : last.kind.endsField = true) (hlast : good last.tag)
  (h : ∀ t ∈ tokens, good t.tag)

include hlast h

theorem good_current : good (current last tokens).tag := by
  cases tokens with
  | nil => exact hlast
  | cons t rest => exact h t List.mem_cons_self

include hends

theorem fits_self : (Comparison.self good last).Fits tokens tokens := by
  induction tokens with
  | nil => exact .stop ⟨rfl, h⟩ hends hends ⟨rfl, hlast⟩
  | cons t rest ih =>
      obtain ⟨ht, hrest⟩ := List.forall_mem_cons.1 h
      cases hfield : t.kind.endsField with
      | true => exact .stop ⟨rfl, h⟩ hfield hfield ⟨rfl, ht⟩
      | false => exact .cons ⟨rfl, rfl, ht⟩ hfield (ih hrest)

end Self

theorem readEndOfLine_self (hlast : good last.tag) (h : ∀ t ∈ tokens, good t.tag) :
    Agree (Error.Matches (Comparison.self good last).places)
      (fun rest rest' => rest' = rest ∧ ∀ t ∈ rest, good t.tag)
      (readEndOfLine last tokens) (readEndOfLine last tokens) := by
  unfold readEndOfLine
  split
  · exact .ok ⟨rfl, fun t ht => h t (List.mem_of_mem_tail ht)⟩
  · exact .ok ⟨rfl, h⟩
  · exact .error (.located rfl ⟨rfl, good_current hlast h⟩)

/-- The tokens behind a comment do not depend on what it counts for. -/
theorem snd_readComment (alone alone' : Bool) :
    (readComment alone last tokens).2 = (readComment alone' last tokens).2 := by
  unfold readComment
  simp only
  split <;> rfl

/-- A line of tokens at good places leaves such tokens, or it fails at one of the places. -/
theorem readLine_self (hends : last.kind.endsField = true) (hlast : good last.tag)
    (h : ∀ t ∈ tokens, good t.tag) :
    Agree (Error.Matches (Comparison.self good last).places)
      (fun a _ => ∀ t ∈ a.2, good t.tag) (readLine last tokens) (readLine last tokens) := by
  refine readLine_fits (fits_self hends hlast h) ?_
  rintro tokens others ⟨rfl, hgood⟩ - read read' -
  have hleft : ∀ t ∈ (readComment read.isEmpty last others).2, good t.tag :=
    fun t ht => hgood t (mem_of_mem_readComment ht)
  simp only [Comparison.self, readLineFrom, snd_readComment read'.isEmpty read.isEmpty]
  refine (readEndOfLine_self hlast hleft).bind ?_
  rintro rest rest' ⟨-, hrest⟩
  exact .ok hrest

theorem readLine_fails (hends : last.kind.endsField = true) (hlast : good last.tag)
    (h : ∀ t ∈ tokens, good t.tag) : Fails good (readLine last tokens) := by
  have hself := readLine_self hends hlast h
  intro e he
  rw [he] at hself
  cases hself with
  | error hmatch =>
      cases hmatch with
      | located hfamily hplace => exact ⟨_, _, rfl, hfamily, hplace.2⟩

theorem good_of_readLine (hends : last.kind.endsField = true) (hlast : good last.tag)
    (h : ∀ t ∈ tokens, good t.tag) {read : List Statement} {rest : List Token}
    (hread : readLine last tokens = .ok (read, rest)) : ∀ t ∈ rest, good t.tag := by
  have hself := readLine_self hends hlast h
  rw [hread] at hself
  cases hself with
  | ok hrest => exact hrest

theorem readLines_fails (hends : last.kind.endsField = true) (hlast : good last.tag)
    {read : List Statement} {rounds : Nat} (h : ∀ t ∈ tokens, good t.tag) :
    Fails good (readLines last read rounds tokens) := by
  induction rounds generalizing read tokens with
  | zero => exact fails_ok _
  | succ rounds ih =>
      have hfails := readLine_fails hends hlast h
      rw [readLines]
      split
      · exact fails_ok _
      · exact ih fun t ht => h t (List.mem_of_mem_tail ht)
      · cases hread : readLine last tokens with
        | ok line => exact ih (good_of_readLine hends hlast h hread)
        | error e =>
            rintro e' ⟨⟩
            exact hfails e hread

end Reader

/-- Reading the tokens of a text fails only with a syntax error at one of them. -/
theorem Statement.ofTokens_fails {body : List Token} {stop : Token} (hstop : stop.kind = .eof) :
    Reader.Fails (fun tag => ∃ t ∈ body ++ [stop], tag = t.tag) (ofTokens (body ++ [stop])) := by
  simp only [ofTokens, List.getLast?_concat]
  refine Reader.readLines_fails (by rw [hstop]; rfl) ?_ fun t ht => ⟨t, ht, rfl⟩
  exact ⟨stop, List.mem_append_right _ List.mem_cons_self, rfl⟩

/-! ## Texts -/

namespace Statement

variable {unit : Int} {text rest : List Char} {kinds : List TokenKind} {refusal : Token.Refusal}

/-- A text that tokenizes is read, or it has a syntax error at one of its places. -/
theorem parse_of_lexes (h : Token.Lexes text kinds []) :
    (∃ statements, parse unit text = .ok statements) ∨
      ∃ problem tag, parse unit text = .error (.located problem tag) ∧
        problem.family = .malformed ∧ tag.Within unit text.length := by
  have hsound := Token.scan_sound unit text
  simp only [parse, (h.scan_eq unit).1]
  have hscan : Token.scan unit text = ⟨(Token.scan unit text).tokens, none⟩ := by
    rw [← (h.scan_eq unit).1]
  obtain ⟨body, stop, htokens, -, hstop⟩ := Token.scan_tokens hscan
  rw [htokens] at hsound ⊢
  cases hall : ofTokens (body ++ [stop]) with
  | ok statements => exact Or.inl ⟨statements, rfl⟩
  | error e =>
      obtain ⟨problem, tag, rfl, hfamily, t, ht, rfl⟩ := ofTokens_fails hstop e hall
      exact Or.inr ⟨problem, t.tag, rfl, hfamily, (hsound t ht).place⟩

/-- A text that is stuck fails with the refusal, at the place where it is stuck. -/
theorem parse_of_stuck (h : Token.Lexes text kinds rest) (hstuck : Token.Stuck rest refusal) :
    ∃ position, parse unit text = .error (refusal.error unit position) ∧
      position.offset + rest.length = text.length := by
  obtain ⟨position, herror, hoffset⟩ := h.scan_stuck hstuck unit
  exact ⟨position, by simp only [parse, herror], hoffset⟩

/-- A text is read as tokens up to a numeral that is no decimal number: one of its digits has no
value, or there are too many of them. -/
def MeetsBadNumeral (text : List Char) : Prop :=
  ∃ kinds run rest, Token.Lexes text kinds (run ++ rest) ∧ Token.IsNumeral run rest ∧
    ¬ Token.IsDecimal run

theorem parse_of_badNumeral (h : MeetsBadNumeral text) :
    ∃ fault, parse unit text = .error (.fault fault) ∧ fault.kind = .badValue := by
  obtain ⟨kinds, run, rest, hlexes, hnumeral, hdecimal⟩ := h
  obtain ⟨fault, hstuck, hkind⟩ := hnumeral.stuck hdecimal
  obtain ⟨position, hparse, -⟩ := @parse_of_stuck unit text _ kinds _ hlexes hstuck
  exact ⟨fault, hparse, hkind⟩

theorem parse_of_not_badNumeral (h : ¬ MeetsBadNumeral text) :
    (∃ statements, parse unit text = .ok statements) ∨
      ∃ problem tag, parse unit text = .error (.located problem tag) ∧
        problem.family = .malformed ∧ tag.Within unit text.length := by
  obtain ⟨kinds, rest, hlexes, rfl | ⟨refusal, hstuck⟩⟩ := Token.exists_lexes text
  · exact parse_of_lexes hlexes
  · right
    obtain ⟨position, hparse, hoffset⟩ := @parse_of_stuck unit text _ kinds _ hlexes hstuck
    obtain ⟨c, tail, rfl, -, hscan⟩ := hstuck
    rcases Token.scanLexeme_eq_error hscan with
      ⟨problem, distance, rfl, hfamily, hdistance⟩ | ⟨fault, run, after, rfl, -, hsplit, hbad⟩
    · rw [List.length_cons] at hoffset
      refine ⟨problem, _, hparse, hfamily, rfl, Int.natCast_nonneg _, ?_⟩
      simp only [Int.ofNat_le]
      omega
    · rw [hsplit] at hlexes
      exact (h ⟨kinds, run, after, hlexes, hbad⟩).elim

end Statement

/-- Reading a text gives its statements, or it fails with a syntax error at a place in the text, or
a number cannot be read.  The last happens exactly if the scan comes to a numeral that is no decimal
number. -/
theorem parse_faults_iff_bad_numeral (unit : Int) (text : List Char) :
    ((∃ statements, Statement.parse unit text = .ok statements) ∨
      (∃ problem tag, Statement.parse unit text = .error (.located problem tag) ∧
        problem.family = .malformed ∧ tag.Within unit text.length) ∨
      ∃ fault, Statement.parse unit text = .error (.fault fault) ∧ fault.kind = .badValue) ∧
    ((∃ fault, Statement.parse unit text = .error (.fault fault)) ↔
      ∃ kinds run rest, Token.Lexes text kinds (run ++ rest) ∧ Token.IsNumeral run rest ∧
        ¬ ((∀ c ∈ run, (Text.decimalValue? c).isSome = true) ∧ run.length ≤ 4300)) := by
  have hdecimal (run : List Char) : Token.IsDecimal run ↔
      (∀ c ∈ run, (Text.decimalValue? c).isSome = true) ∧ run.length ≤ 4300 :=
    ⟨fun h => ⟨h.digits, h.short⟩, fun h => ⟨h.1, h.2⟩⟩
  simp only [← hdecimal]
  by_cases hbad : Statement.MeetsBadNumeral text
  · obtain ⟨fault, hparse, hkind⟩ := @Statement.parse_of_badNumeral unit text hbad
    exact ⟨Or.inr (Or.inr ⟨fault, hparse, hkind⟩), fun _ => hbad, fun _ => ⟨fault, hparse⟩⟩
  · have houtcome := @Statement.parse_of_not_badNumeral unit text hbad
    refine ⟨houtcome.imp_right Or.inl, ?_, fun h => (hbad h).elim⟩
    rintro ⟨fault, hfault⟩
    rcases houtcome with ⟨statements, hok⟩ | ⟨problem, tag, herror, -⟩
    · rw [hfault] at hok
      cases hok
    · rw [hfault] at herror
      cases herror

/-- A superscript is a digit without a value. -/
example : Statement.parse 0 "lda #²".toList = .error (.fault (.badDecimal "²")) := rfl

end Asm65
