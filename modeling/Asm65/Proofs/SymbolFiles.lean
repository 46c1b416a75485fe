import Asm65.Command.Run
import Asm65.Proofs.Literals
import Asm65.Proofs.Positions
import Asm65.Proofs.Printing
import Asm65.Proofs.SourceMaps

/-!
# Symbol files

A symbol file says all about the labels of a program, and can be read back.  Its lines can be told
apart because of what the other stages guarantee: the name of a label is a name of the grammar, so
it has no space and no line feed in it and does not start like the header; and every label stands
for a sixteen-bit address, so four digits are always enough.

All characters of such a file are ASCII, so that the bytes of the file are its characters.
-/

namespace Asm65

open Token Grammar

/-! ## Names of labels -/

namespace Statement

/-- A label has a name of the grammar. -/
def Named (s : Statement) : Prop :=
  ∀ tag name, s = .label tag name → IsName name.toList

end Statement

namespace Grammar

/-- The name of a label is one of the tokens of its line. -/
theorem IsLine.exists_identifier {tokens : List Token} {statements : List Statement}
    {tag : Option Tag} {name : String} (h : IsLine tokens statements)
    (hs : .label tag name ∈ statements) : ∃ t ∈ tokens, t.kind = .identifier name := by
  obtain @⟨label, _, _, labels, bodies, _, hlabel, hbody, hcomment⟩ := h
  have hbodies : Statement.label tag name ∉ bodies := by
    intro hmem
    cases hbody with
    | none => cases hmem
    | instruction hkind hoperand => cases List.mem_singleton.1 hmem
    | directive hdirective =>
        obtain rfl := List.mem_singleton.1 hmem
        cases hdirective
  have hlabels : Statement.label tag name ∈ labels := by
    split at hs
    · cases hcomment with
      | none => cases hs
      | comment hkind => cases List.mem_singleton.1 hs
    · exact (List.mem_append.1 hs).resolve_right hbodies
  cases hlabel with
  | none => cases hlabels
  | @label t colon _ hkind hcolon =>
      cases List.mem_singleton.1 hlabels
      exact ⟨t, by simp, hkind⟩

end Grammar

namespace Statement

/-- The labels of a text have names of the grammar. -/
theorem named_of_parse {unit : Int} {text : List Char} {statements : List Statement}
    (h : parse unit text = .ok statements) : ∀ s ∈ statements, s.Named := by
  rintro s hs tag name rfl
  obtain ⟨line, part, hline, hpart, htokens⟩ := exists_line_of_parse h hs
  obtain ⟨t, ht, hkind⟩ := hline.exists_identifier hpart
  have hstands := Token.scanFrom_standsIn (List.forall_mem_nil _) List.drop_zero t (htokens t ht)
  rw [Token.StandsIn, hkind] at hstands
  rcases hstands with heof | ⟨lexeme, rest, -, hlexeme⟩
  · cases heof
  · obtain ⟨hname, -, rfl⟩ := hlexeme.of_identifier
    rwa [String.toList_ofList]

end Statement

namespace Session

theorem Reachable.accounted {session : Session} (h : session.Reachable) : session.Accounted := by
  induction h with
  | start searchPaths => exact start_accounted searchPaths
  | addText tree name text _ ih =>
      have hcall := ih.perform (.addText tree name text)
      rw [perform_addText] at hcall
      exact hcall
  | addFile tree path _ ih =>
      have hcall := ih.perform (.addFile tree path)
      rw [perform_addFile] at hcall
      exact hcall

theorem Reachable.named {session : Session} (h : session.Reachable) :
    ∀ s ∈ session.statements, s.Named := by
  intro s hs
  obtain ⟨id, -, hin⟩ := h.accounted.placed s hs
  obtain ⟨unit, -, hparse⟩ := h.accounted.parse_eq_ok hs hin
  exact Statement.named_of_parse hparse s (List.mem_filter.2 ⟨hs, hin⟩)

end Session

/-- A label of the flat walk comes from a statement. -/
theorem FlatWalk.isName_of_named {statements : List Statement} {name : String} {address : Int}
    (hnamed : ∀ s ∈ statements, s.Named)
    (h : (across statements).labels[name]? = some address) : IsName name.toList := by
  by_contra hname
  have hnone : (across statements).labels[name]? = start.labels[name]? := by
    refine foldl_step_labels_of_ne ?_
    rintro s hs tag rfl
    exact hname (hnamed _ hs tag name rfl)
  rw [hnone] at h
  simp [start] at h

/-! ## Plain characters -/

namespace Text

/-- An ASCII character that is not a control character. -/
def IsPlain (c : Char) : Prop :=
  ' '.toNat ≤ c.toNat ∧ c.toNat < 127

instance : DecidablePred IsPlain := fun c =>
  inferInstanceAs (Decidable (' '.toNat ≤ c.toNat ∧ c.toNat < 127))

variable {text : List Char}

theorem isPlain_of_mem_capitalDigits : ∀ c ∈ capitalDigits, IsPlain c := by
  have hall : capitalDigits.all (fun c => decide (IsPlain c)) = true := by decide
  intro c hc
  exact of_decide_eq_true (List.all_eq_true.1 hall c hc)

theorem isPlain_of_isNameChar {c : Char} (h : isNameChar c = true) : IsPlain c := by
  simp only [isNameChar, isNameStart, Bool.or_eq_true, Bool.and_eq_true, decide_eq_true_eq,
    beq_iff_eq, Char.le_def, UInt32.le_iff_toNat_le] at h
  rcases h with ((⟨ha, hz⟩ | ⟨ha, hz⟩) | rfl) | ⟨ha, hz⟩
  · exact ⟨Nat.le_trans (by decide) ha, Nat.lt_of_le_of_lt hz (by decide)⟩
  · exact ⟨Nat.le_trans (by decide) ha, Nat.lt_of_le_of_lt hz (by decide)⟩
  · exact ⟨by decide, by decide⟩
  · exact ⟨Nat.le_trans (by decide) ha, Nat.lt_of_le_of_lt hz (by decide)⟩

/-! ## The bytes of a text -/

theorem toList_byteArray (bytes : ByteArray) : bytes.toList = bytes.data.toList := by
  -- the loop holds the bytes before `i`, newest first
  have hloop (i : Nat) (passed : List UInt8) :
      ByteArray.toList.loop bytes i passed = passed.reverse ++ bytes.data.toList.drop i := by
    fun_induction ByteArray.toList.loop bytes i passed with
    | case1 i passed hlt ih =>
        have hget : bytes.data.toList.drop i = bytes.get! i :: bytes.data.toList.drop (i + 1) := by
          have hi : i < bytes.data.toList.length := hlt
          have hbyte : bytes.get! i = bytes.data.toList[i] := by
            rw [Array.getElem_toList]
            exact getElem!_pos bytes.data i hlt
          rw [List.drop_eq_getElem_cons hi, hbyte]
        rw [ih, hget, List.reverse_cons, List.append_assoc, List.singleton_append]
    | case2 i passed hge =>
        have hdrop : bytes.data.toList.drop i = [] :=
          List.drop_eq_nil_iff.2 (by simpa using Nat.not_lt.1 hge)
        rw [hdrop, List.append_nil]
  exact hloop 0 []

/-- The bytes of an ASCII text are its characters. -/
theorem toUTF8_of_ascii {text : String} (h : ∀ c ∈ text.toList, c.toNat < 128) :
    text.toUTF8.toList = text.toList.map fun c => UInt8.ofNat c.toNat := by
  have hchar {c : Char} (hc : c.toNat < 128) :
      String.utf8EncodeChar c = [UInt8.ofNat c.toNat] :=
    forall_ascii (fun c => String.utf8EncodeChar c = [UInt8.ofNat c.toNat]) (by decide +kernel) hc
  rw [String.toUTF8_eq_toByteArray, ← String.utf8Encode_toList, toList_byteArray, List.utf8Encode,
    List.data_toByteArray, ← List.flatMap_pure_eq_map]
  exact List.flatMap_congr fun c hc => hchar (h c hc)

theorem decodeFrom_ascii (h : ∀ c ∈ text, c.toNat < 128) (position : Nat) (read : List Char) :
    Utf8.decodeFrom position read none (text.map fun c => UInt8.ofNat c.toNat) =
      .ok (read.reverse ++ text) := by
  induction text generalizing position read with
  | nil => simp [Utf8.decodeFrom]
  | cons c text ih =>
      obtain ⟨hc, htext⟩ := List.forall_mem_cons.1 h
      have hannounce : Utf8.announce (UInt8.ofNat c.toNat) = some (c.toNat, []) :=
        forall_ascii (fun c => Utf8.announce (UInt8.ofNat c.toNat) = some (c.toNat, []))
          (by decide +kernel) hc
      rw [List.map_cons, Utf8.decodeFrom, hannounce]
      simp only
      rw [ih htext, Char.ofNat_toNat, List.reverse_cons, List.append_assoc, List.singleton_append]

/-- An ASCII text is read back from its bytes. -/
theorem decode_toUTF8 {text : String} (h : ∀ c ∈ text.toList, c.toNat < 128) :
    Utf8.decode text.toUTF8.toList = .ok text.toList := by
  rw [toUTF8_of_ascii h]
  exact decodeFrom_ascii h 0 []

theorem unifyFrom_of_not_mem (h : '\r' ∉ text) (read : List Char) :
    unifyFrom read false text = read.reverse ++ text := by
  induction text generalizing read with
  | nil => simp [unifyFrom]
  | cons c text ih =>
      have hc : c ≠ '\r' := fun heq => h (heq ▸ List.mem_cons_self)
      have htext : '\r' ∉ text := fun hmem => h (List.mem_cons_of_mem c hmem)
      simp [unifyFrom, hc, ih htext]

/-! ## Lines, digits and code points -/

theorem mem_unlines {lines : List (List Char)} {c : Char} (h : c ∈ unlines lines) :
    c = '\n' ∨ ∃ line ∈ lines, c ∈ line := by
  obtain ⟨line, hline, hc⟩ := List.mem_flatMap.1 h
  rcases List.mem_append.1 hc with hc | hc
  · exact Or.inr ⟨line, hline, hc⟩
  · exact Or.inl (List.mem_singleton.1 hc)

/-- The lines of a text, without what stands behind its last line feed. -/
def endedLines (text : List Char) : List (List Char) :=
  (text.splitOn '\n').dropLast

theorem endedLines_unlines {lines : List (List Char)} (h : ∀ line ∈ lines, '\n' ∉ line) :
    endedLines (unlines lines) = lines := by
  have hsplit := splitOn_unlines_append h []
  rw [List.append_nil, List.splitOn_nil] at hsplit
  rw [endedLines, hsplit, List.dropLast_concat]

theorem mem_capitalDigits_of_mem_hex (width n : Nat) :
    ∀ c ∈ (hex width n).toList, c ∈ capitalDigits := by
  have hall : ∀ k : Fin 16, capitalDigits.getD k '0' ∈ capitalDigits := by decide
  rw [hex, String.toList_ofList]
  exact forall_mem_digitsOnto (fun d => hall ⟨d % 16, Nat.mod_lt d (by decide)⟩)
    (List.forall_mem_nil _)

/-- The code points of a text. -/
def codePoints (text : String) : List Nat :=
  text.toList.map Char.toNat

end Text

/-! ## Writing and reading -/

namespace SymbolTable

/-- The lines before the labels. -/
def headerLines : List (List Char) :=
  ["# Symbol table".toList, "# Generated by m6502asm".toList]

/-- The line of a label, without its line feed. -/
def lineOf (name : String) (address : Int) : List Char :=
  name.toList ++ ' ' :: '$' :: (Text.hex 4 address.natAbs).toList

/-- A line that starts like the header. -/
def isHeader (line : List Char) : Bool :=
  line.head? == some '#'

/-- A name, a space, a dollar sign and four capital hexadecimal digits. -/
def IsLineOf (name : String) (line : List Char) : Prop :=
  ∃ digits, line = name.toList ++ ' ' :: '$' :: digits ∧ digits.length = 4 ∧
    ∀ d ∈ digits, d ∈ Text.capitalDigits

/-- Reads the line of a label: the name stands before the space, the value behind the dollar
sign. -/
def readLine? (line : List Char) : Option (String × Int) :=
  match line.span (· != ' ') with
  | (name, ' ' :: '$' :: digits) =>
      if digits ≠ [] ∧ digits.all Text.isHexDigit then
        some (String.ofList name, (Text.positional 16 (digits.map Text.hexValue) : Int))
      else none
  | _ => none

/-- Reads a symbol file: every line that is not of the header is the line of a label. -/
def read? (text : List Char) : Option Labels := do
  let entries ← ((Text.endedLines text).filter fun line => !isHeader line).mapM readLine?
  return Std.TreeMap.ofList entries

variable {name : String} {address : Int}

theorem toList_line (h : InSpace address) :
    (line name address).toList = lineOf name address ++ ['\n'] := by
  have hsign : ¬ address < 0 := Int.not_lt.2 h.1
  simp [line, lineOf, Event.address, Text.signedHex, hsign]

theorem isLineOf_lineOf (h : InSpace address) : IsLineOf name (lineOf name address) := by
  refine ⟨_, rfl, ?_, Text.mem_capitalDigits_of_mem_hex _ _⟩
  have hsmall : address.natAbs < 16 ^ 4 := by
    obtain ⟨hlow, hhigh⟩ := h
    omega
  rw [Text.length_hex]
  exact Nat.max_eq_left (Text.digitCount_le (by decide) hsmall)

theorem isHeader_lineOf (h : IsName name.toList) : isHeader (lineOf name address) = false := by
  unfold lineOf isHeader
  cases hchars : name.toList with
  | nil =>
      rw [hchars] at h
      cases h
  | cons c rest =>
      rw [hchars] at h
      have hc : c ≠ '#' := by
        rintro rfl
        exact absurd h.1 (by decide)
      simpa using hc

theorem isPlain_of_mem_lineOf (h : IsName name.toList) :
    ∀ c ∈ lineOf name address, Text.IsPlain c := by
  intro c hc
  rw [lineOf, List.mem_append, List.mem_cons, List.mem_cons] at hc
  rcases hc with hc | rfl | rfl | hc
  · exact Text.isPlain_of_isNameChar (h.isNameChar c hc)
  · exact ⟨by decide, by decide⟩
  · exact ⟨by decide, by decide⟩
  · exact Text.isPlain_of_mem_capitalDigits c (Text.mem_capitalDigits_of_mem_hex _ _ c hc)

/-- The line of a label is read as the label. -/
theorem readLine?_lineOf (hname : IsName name.toList) (haddress : InSpace address) :
    readLine? (lineOf name address) = some (name, address) := by
  have hrun : ∀ c ∈ name.toList, (c != ' ') = true := by
    intro c hc
    have hchar := hname.isNameChar c hc
    rw [bne_iff_ne]
    rintro rfl
    exact absurd hchar (by decide)
  have hspan : (lineOf name address).span (· != ' ') =
      (name.toList, ' ' :: '$' :: (Text.hex 4 address.natAbs).toList) := by
    rw [List.span_eq_takeWhile_dropWhile, lineOf, List.takeWhile_append_of_pos hrun,
      List.dropWhile_append_of_pos hrun]
    simp
  have hdigits : (Text.hex 4 address.natAbs).toList ≠ [] := by
    intro hnil
    have hlength := Text.length_hex 4 address.natAbs
    rw [hnil, List.length_nil] at hlength
    omega
  have hall : (Text.hex 4 address.natAbs).toList.all Text.isHexDigit = true :=
    List.all_eq_true.2 (Text.isHexDigit_of_mem_hex _ _)
  unfold readLine?
  rw [hspan]
  simp only
  rw [if_pos ⟨hdigits, hall⟩, Text.positional_hex, Int.natAbs_of_nonneg haddress.1,
    String.ofList_toList]

/-- The labels that a symbol file can hold. -/
structure Writable (labels : Labels) : Prop where
  isName : ∀ entry ∈ labels.toList, IsName entry.1.toList
  inSpace : ∀ entry ∈ labels.toList, InSpace entry.2

/-- The lines of the labels, in the order of their names. -/
def bodyLines (labels : Labels) : List (List Char) :=
  labels.toList.map fun entry => lineOf entry.1 entry.2

variable {labels : Labels}

theorem toList_header : header.toList = Text.unlines headerLines := by
  decide +kernel

theorem toList_text (h : Writable labels) :
    (text labels).toList = Text.unlines (headerLines ++ bodyLines labels) := by
  rw [text, String.toList_append, toList_header, String.toList_join, Text.unlines_append,
    bodyLines, Text.unlines, Text.unlines, List.flatMap_map, List.flatMap_map]
  congr 1
  exact List.flatMap_congr fun entry hentry => toList_line (h.inSpace entry hentry)

theorem isPlain_of_mem_headerLines :
    ∀ line ∈ headerLines, ∀ c ∈ line, Text.IsPlain c := by
  have hall : headerLines.all (·.all fun c => decide (Text.IsPlain c)) = true := by
    decide +kernel
  intro line hline c hc
  exact of_decide_eq_true (List.all_eq_true.1 (List.all_eq_true.1 hall line hline) c hc)

theorem Writable.isPlain (h : Writable labels) :
    ∀ line ∈ headerLines ++ bodyLines labels, ∀ c ∈ line, Text.IsPlain c := by
  refine List.forall_mem_append.2 ⟨isPlain_of_mem_headerLines, ?_⟩
  intro line hline
  obtain ⟨entry, hentry, rfl⟩ := List.mem_map.1 hline
  exact isPlain_of_mem_lineOf (h.isName entry hentry)

theorem Writable.newline_not_mem (h : Writable labels) :
    ∀ line ∈ headerLines ++ bodyLines labels, '\n' ∉ line := by
  intro line hline hmem
  exact absurd (h.isPlain line hline _ hmem).1 (by decide)

/-- A symbol file is made of plain characters and line feeds. -/
theorem Writable.mem_text (h : Writable labels) {c : Char} (hc : c ∈ (text labels).toList) :
    c = '\n' ∨ Text.IsPlain c := by
  rw [toList_text h] at hc
  rcases Text.mem_unlines hc with rfl | ⟨line, hline, hc⟩
  · exact Or.inl rfl
  · exact Or.inr (h.isPlain line hline c hc)

theorem Writable.decode_text (h : Writable labels) :
    Text.Utf8.decode (text labels).toUTF8.toList = .ok (text labels).toList := by
  refine Text.decode_toUTF8 ?_
  intro c hc
  rcases h.mem_text hc with rfl | hplain
  · decide
  · exact Nat.lt_succ_of_lt hplain.2

theorem Writable.unifyNewlines_text (h : Writable labels) :
    Text.unifyNewlines (text labels).toList = (text labels).toList := by
  refine Text.unifyFrom_of_not_mem ?_ []
  intro hmem
  rcases h.mem_text hmem with hreturn | hplain
  · exact absurd hreturn (by decide)
  · exact absurd hplain.1 (by decide)

theorem isHeader_of_mem_headerLines : ∀ line ∈ headerLines, isHeader line = true := by
  decide +kernel

theorem Writable.isHeader_body (h : Writable labels) :
    ∀ line ∈ bodyLines labels, isHeader line = false := by
  intro line hline
  obtain ⟨entry, hentry, rfl⟩ := List.mem_map.1 hline
  exact isHeader_lineOf (h.isName entry hentry)

theorem Writable.isLineOf_body (h : Writable labels) :
    List.Forall₂ (fun entry line => IsLineOf entry.1 line) labels.toList (bodyLines labels) :=
  List.forall₂_map_right_iff.2
    (List.forall₂_same.2 fun entry hentry => isLineOf_lineOf (h.inSpace entry hentry))

theorem mapM_readLine?_lineOf {entries : List (String × Int)}
    (hname : ∀ entry ∈ entries, IsName entry.1.toList)
    (haddress : ∀ entry ∈ entries, InSpace entry.2) :
    (entries.map fun entry => lineOf entry.1 entry.2).mapM readLine? = some entries := by
  induction entries with
  | nil => rfl
  | cons entry entries ih =>
      obtain ⟨hfirst, hnames⟩ := List.forall_mem_cons.1 hname
      obtain ⟨hspace, haddresses⟩ := List.forall_mem_cons.1 haddress
      rw [List.map_cons, List.mapM_cons, readLine?_lineOf hfirst hspace, ih hnames haddresses]
      rfl

/-- The lines that are not of the header are those of the labels. -/
theorem Writable.filter_lines (h : Writable labels) :
    (Text.endedLines (text labels).toList).filter (fun line => !isHeader line) =
      bodyLines labels := by
  have hheader : headerLines.filter (fun line => !isHeader line) = [] := by decide +kernel
  have hbody : (bodyLines labels).filter (fun line => !isHeader line) = bodyLines labels := by
    refine List.filter_eq_self.2 ?_
    intro line hline
    rw [h.isHeader_body line hline]
    rfl
  rw [toList_text h, Text.endedLines_unlines h.newline_not_mem, List.filter_append, hheader, hbody,
    List.nil_append]

/-- A symbol file is read as the labels that it was written for. -/
theorem Writable.read?_text (h : Writable labels) :
    read? (text labels).toList = some (Std.TreeMap.ofList labels.toList) := by
  unfold read?
  rw [h.filter_lines, bodyLines, mapM_readLine?_lineOf h.isName h.inSpace]
  rfl

end SymbolTable

namespace Labels

theorem getElem?_ofList_toList (labels : Labels) (name : String) :
    (Std.TreeMap.ofList labels.toList : Labels)[name]? = labels[name]? := by
  cases hfound : labels[name]? with
  | some address =>
      exact Std.TreeMap.getElem?_ofList_of_mem Std.ReflCmp.compare_self
        Std.TreeMap.distinct_keys_toList
        (Std.TreeMap.mem_toList_iff_getElem?_eq_some.2 hfound)
  | none =>
      refine Std.TreeMap.getElem?_ofList_of_contains_eq_false ?_
      rw [Bool.eq_false_iff, ne_eq, List.contains_iff_mem]
      intro hmem
      obtain ⟨⟨_, address⟩, hentry, rfl⟩ := List.mem_map.1 hmem
      rw [Std.TreeMap.mem_toList_iff_getElem?_eq_some.1 hentry] at hfound
      cases hfound

/-- The names of labels stand in the order of their code points. -/
theorem codePoints_pairwise (labels : Labels) :
    labels.toList.Pairwise fun a b => Text.codePoints a.1 < Text.codePoints b.1 := by
  refine Std.TreeMap.ordered_keys_toList.imp ?_
  intro a b hcompare
  have hlt : a.1 < b.1 := compareOfLessAndEq_eq_lt.1 hcompare
  exact List.map_lt (fun _ _ hchar => hchar) (String.lt_iff.1 hlt)

end Labels

theorem Session.Reachable.writable {session : Session} {output : Output}
    (hreach : session.Reachable) (hdone : session.assemble.2 = .ok output) :
    SymbolTable.Writable output.labels := by
  obtain ⟨program, hbuild, hlayout, -⟩ := Session.assemble_ok hdone
  have hform := hreach.covered
  unfold Session.Covered at hform
  obtain ⟨-, hlabels⟩ := Program.layout_eq_across hform hbuild hlayout
  have hspace := (FlatWalk.across_inSpace hform hbuild).labels
  rw [← hlabels] at hspace
  constructor
  · rintro ⟨name, address⟩ hentry
    have hfound := Std.TreeMap.mem_toList_iff_getElem?_eq_some.1 hentry
    rw [hlabels] at hfound
    exact FlatWalk.isName_of_named hreach.named hfound
  · rintro ⟨name, address⟩ hentry
    exact hspace name address (Std.TreeMap.mem_toList_iff_getElem?_eq_some.1 hentry)

/-- A symbol file says all about the labels, and nothing else: behind the header stands one line
for each label of the layout, in the order of the names, and none of these can be taken for a line
of the header.  Reading the lines that are not of the header gives back every label with its
address, and no other. -/
theorem symbol_file_encodes_labels {session : Session} {output : Output}
    (hreach : session.Reachable) (hdone : session.assemble.2 = .ok output) (path : Path) :
    ∃ program text body,
      Program.ofStatements session.statements = .ok program ∧
      (Program.layout program).labels = .ok output.labels ∧
      Text.Utf8.decode (Command.Write.symbols path output).data = .ok text ∧
      Text.unifyNewlines text = text ∧
      text = Text.unlines (SymbolTable.headerLines ++ body) ∧
      (∀ line ∈ SymbolTable.headerLines ++ body, '\n' ∉ line) ∧
      (∀ line ∈ SymbolTable.headerLines, SymbolTable.isHeader line = true) ∧
      (∀ line ∈ body, SymbolTable.isHeader line = false) ∧
      List.Forall₂ (fun entry line => SymbolTable.IsLineOf entry.1 line)
        output.labels.toList body ∧
      (output.labels.toList.Pairwise fun a b =>
        Text.codePoints a.1 < Text.codePoints b.1) ∧
      ∃ table, SymbolTable.read? text = some table ∧
        ∀ name : String, table[name]? = output.labels[name]? := by
  obtain ⟨program, hbuild, hlayout, -⟩ := Session.assemble_ok hdone
  have hwritable := hreach.writable hdone
  refine ⟨program, (SymbolTable.text output.labels).toList, SymbolTable.bodyLines output.labels,
    hbuild, hlayout, hwritable.decode_text, hwritable.unifyNewlines_text,
    SymbolTable.toList_text hwritable, hwritable.newline_not_mem,
    SymbolTable.isHeader_of_mem_headerLines, hwritable.isHeader_body, hwritable.isLineOf_body,
    Labels.codePoints_pairwise output.labels, _, hwritable.read?_text, ?_⟩
  intro name
  exact Labels.getElem?_ofList_toList output.labels name

/-- A label that is bound twice, and labels behind the end of the address space. -/
theorem symbol_file_over_the_end :
    ∃ session output text body table,
      session = Session.ofText ".org $FFFE\nzed: nop\nnop\nZed: rts\n_z: nop\nzed: rts" ∧
      session.Reachable ∧ session.assemble.2 = .ok output ∧
      Text.Utf8.decode (Command.Write.symbols (.ofText "a.sym") output).data = .ok text ∧
      text = Text.unlines (SymbolTable.headerLines ++ body) ∧
      List.Forall₂ (fun name line => SymbolTable.IsLineOf name line) ["Zed", "_z", "zed"] body ∧
      SymbolTable.read? text = some table ∧
      table["Zed"]? = some 0 ∧ table["zed"]? = some 2 ∧ table["nop"]? = none := by
  let session := Session.ofText ".org $FFFE\nzed: nop\nnop\nZed: rts\n_z: nop\nzed: rts"
  have hreach : session.Reachable := .addText _ _ _ (.start [])
  have hrun : session.assemble.2.toOption.map (fun output => (output.labels.toList.map Prod.fst,
      output.labels["Zed"]?, output.labels["zed"]?, output.labels["nop"]?)) =
      some (["Zed", "_z", "zed"], some 0, some 2, none) := by decide +kernel
  cases hdone : session.assemble.2 with
  | error failure =>
      rw [hdone] at hrun
      cases hrun
  | ok output =>
      rw [hdone] at hrun
      obtain ⟨hnames, hvalues⟩ := Prod.mk.inj (Option.some.inj hrun)
      obtain ⟨hcapital, hvalues⟩ := Prod.mk.inj hvalues
      obtain ⟨hsmall, hmissing⟩ := Prod.mk.inj hvalues
      obtain ⟨-, text, body, -, -, hdecode, -, htext, -, -, -, hbody, -, table, hread, htable⟩ :=
        symbol_file_encodes_labels hreach hdone (.ofText "a.sym")
      refine ⟨session, output, text, body, table, rfl, hreach, hdone, hdecode, htext, ?_, hread,
        ?_, ?_, ?_⟩
      · rw [← hnames, List.forall₂_map_left_iff]
        exact hbody
      · rw [htable, hcapital]
      · rw [htable, hsmall]
      · rw [htable, hmissing]

end Asm65
