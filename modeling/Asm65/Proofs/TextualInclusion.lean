import Asm65.Proofs.IncludeLines
import Asm65.Proofs.Paths
import Asm65.Proofs.Places

/-!
# Inclusion is textual

Reading a text with the files it includes comes to the same as reading a single text: in it each
include directive is cut out of its line, and the lines of the file, expanded in the same way, stand
behind that line.  The two have the same statements, apart from places, comments and the directives
themselves; so they are assembled to the same code and labels, or fail for the same reason.
-/

namespace Asm65

/-! ## Expansion -/

namespace Library

/-- The lines of a text with the lines of all included files in them; the first argument is the
place of the file that the text comes from. -/
inductive Expands (library : Library) :
    Option Place → List (List Char) → List (List Char) → Prop
  | nil {home : Option Place} : Expands library home [] []
  | plain {home : Option Place} {line : List Char} {rest out : List (List Char)}
      (hline : cutInclude? line = none) (hrest : Expands library home rest out) :
      Expands library home (line :: rest) (line :: out)
  | spliced {home : Option Place} {line cut text : List Char} {file : String} {path : Path}
      {place : Place} {rest inner out : List (List Char)}
      (hline : cutInclude? line = some (file, cut))
      (hfile : library.firstFile (library.candidates home file) = .ok (some (path, place)))
      (htext : library.tree.readText path.text = .ok text)
      (hinner : Expands library (homeOf path place) (text.splitOn '\n') inner)
      (hrest : Expands library home rest out) :
      Expands library home (line :: rest) (cut :: inner ++ out)

variable {library : Library} {home : Option Place} {lines out : List (List Char)}

/-- A text has at most one expansion. -/
theorem Expands.unique {other : List (List Char)} (h : library.Expands home lines out)
    (h' : library.Expands home lines other) : out = other := by
  induction h generalizing other with
  | nil =>
      cases h'
      rfl
  | plain hline _ ih =>
      cases h' with
      | plain _ hrest => rw [ih hrest]
      | spliced hcut => rw [hline] at hcut; cases hcut
  | spliced hline hfile htext _ _ ihinner ihrest =>
      cases h' with
      | plain hnone => rw [hline] at hnone; cases hnone
      | spliced hline' hfile' htext' hinner' hrest' =>
          rw [hline] at hline'
          cases hline'
          rw [hfile] at hfile'
          cases hfile'
          rw [htext] at htext'
          cases htext'
          rw [ihinner hinner', ihrest hrest']

theorem Expands.ne_nil (h : library.Expands home lines out) (hne : lines ≠ []) : out ≠ [] := by
  cases h with
  | nil => exact (hne rfl).elim
  | plain => exact List.cons_ne_nil _ _
  | spliced => exact List.cons_ne_nil _ _

end Library

namespace Statement

/-- Lines without include directives that say the statements that count. -/
def SaysCore (lines : List (List Char)) (statements : List Statement) : Prop :=
  ∃ parts, List.Forall₂ Says lines parts ∧ core parts.flatten = core statements ∧
    ∀ s ∈ parts.flatten, s.isInclude = false

theorem SaysCore.nil : SaysCore [] [] :=
  ⟨[], .nil, rfl, List.forall_mem_nil _⟩

theorem SaysCore.append {lines more : List (List Char)} {statements others : List Statement}
    (h : SaysCore lines statements) (hmore : SaysCore more others) :
    SaysCore (lines ++ more) (statements ++ others) := by
  obtain ⟨parts, hparts, hcore, hfree⟩ := h
  obtain ⟨moreParts, hmoreParts, hmoreCore, hmoreFree⟩ := hmore
  refine ⟨parts ++ moreParts, List.rel_append hparts hmoreParts, ?_, ?_⟩
  · rw [List.flatten_append, core_append, core_append, hcore, hmoreCore]
  · rw [List.flatten_append]
    exact List.forall_mem_append.2 ⟨hfree, hmoreFree⟩

theorem Says.saysCore {line : List Char} {said statements : List Statement}
    (h : Says line said) (hcore : core said = core statements)
    (hfree : ∀ s ∈ said, s.isInclude = false) : SaysCore [line] statements :=
  ⟨[said], .cons h .nil, by simpa using hcore, by simpa using hfree⟩

/-- The lines are read as a single text. -/
theorem SaysCore.parse {lines : List (List Char)} {statements : List Statement}
    (h : SaysCore lines statements) (hne : lines ≠ []) (unit : Int) :
    ∃ parsed, Statement.parse unit (['\n'].intercalate lines) = .ok parsed ∧
      core parsed = core statements ∧ ∀ s ∈ parsed, s.isInclude = false := by
  obtain ⟨parts, hparts, hcore, hfree⟩ := h
  obtain ⟨parsed, hparsed, huntagged⟩ :=
    (says_iff_parse unit).1 ((says_intercalate_iff hne).2 ⟨parts, hparts, rfl⟩)
  refine ⟨parsed, hparsed, ?_, ?_⟩
  · rw [← hcore, ← huntagged, core_map_untagged]
  · rw [← huntagged] at hfree
    exact forall_isInclude_untagged.1 hfree

end Statement

open Statement

/-! ## Splicing -/

namespace Library

variable {library : Library} {nested : Option Reader} {active : List Place} {home : Option Place}
  {flat statements found inner : List Statement} {reading next : Reading}

/-- What has no include directive is taken over as it is. -/
theorem splice_append (hfree : ∀ s ∈ statements, s.isInclude = false) (rest : List Statement) :
    library.splice nested active home flat reading (statements ++ rest) =
      library.splice nested active home (statements.reverse ++ flat) reading rest := by
  induction statements generalizing flat with
  | nil => rfl
  | cons s statements ih =>
      obtain ⟨hs, hstatements⟩ := List.forall_mem_cons.1 hfree
      have hstep : library.splice nested active home flat reading (s :: (statements ++ rest)) =
          library.splice nested active home (s :: flat) reading (statements ++ rest) := by
        cases s <;> first | rfl | cases hs
      rw [List.cons_append, hstep, ih hstatements, List.reverse_cons, List.append_assoc]
      rfl

/-- A file that was read has been found, and its text was read. -/
theorem readIncluded_ok {tag : Option Tag} {file : String}
    (h : library.readIncluded nested active home tag file reading = (next, .ok inner)) :
    ∃ reader ∈ nested, ∃ path place text,
      library.firstFile (library.candidates home file) = .ok (some (path, place)) ∧
      library.tree.readText path.text = .ok text ∧
      ∃ noted, reader (active ++ [place]) (homeOf path place) path.text text noted =
        (next, .ok inner) := by
  unfold readIncluded at h
  split at h
  · cases h
  · cases h
  · next path place hfile =>
      split at h
      · cases h
      · split at h
        · cases h
        · next reader =>
            simp only at h
            split at h
            · cases h
            · next text htext => exact ⟨reader, rfl, path, place, text, hfile, htext, _, h⟩

/-- A reader reads what the expansion of a text says. -/
def Faithful (library : Library) (reader : Reader) : Prop :=
  ∀ ⦃active home name text reading next found⦄,
    reader active home name text reading = (next, .ok found) →
      ∃ lines, library.Expands home (text.splitOn '\n') lines ∧ SaysCore lines found

/-- Splicing the statements of lines expands the lines. -/
theorem splice_expands (hnested : ∀ reader ∈ nested, library.Faithful reader)
    {lines : List (List Char)} {parts : List (List Statement)}
    (hparts : List.Forall₂ Says lines parts) (hlines : ∀ line ∈ lines, '\n' ∉ line)
    (hstatements : statements.map untagged = parts.flatten)
    (h : library.splice nested active home flat reading statements = (next, .ok found)) :
    ∃ out added, library.Expands home lines out ∧ SaysCore out added ∧
      found = flat.reverse ++ added := by
  -- line by line, with what was read before carried along
  induction hparts generalizing statements flat reading with
  | nil =>
      obtain rfl := List.map_eq_nil_iff.1 hstatements
      cases h
      exact ⟨[], [], .nil, .nil, (List.append_nil _).symm⟩
  | @cons line part lines parts hpart _ ih =>
      obtain ⟨hline, hlines⟩ := List.forall_mem_cons.1 hlines
      obtain ⟨first, rest, rfl, rfl, hrest⟩ := List.map_eq_append_iff.1 hstatements
      rcases hpart.include_cases hline with
        ⟨hnone, hfree⟩ | ⟨file, cut, front, said, hcut, hfront, hfree, hsaid, hcore, hsaidFree⟩
      · rw [splice_append (forall_isInclude_untagged.1 hfree)] at h
        obtain ⟨out, added, hout, hadded, rfl⟩ := ih hlines hrest h
        refine ⟨line :: out, first ++ added, .plain hnone hout, ?_, by simp⟩
        exact (hpart.saysCore (core_map_untagged first) hfree).append hadded
      · -- the statements of this line are those of a label, then the directive
        obtain ⟨labels, last, rfl, rfl, hlast⟩ := List.map_eq_append_iff.1 hfront
        obtain ⟨s, rfl, hs⟩ := List.map_eq_singleton_iff.1 hlast
        obtain ⟨tag, rfl⟩ := untagged_eq_include hs
        rw [List.append_assoc, splice_append (forall_isInclude_untagged.1 hfree),
          List.singleton_append, splice] at h
        split at h
        · cases h
        · next after inner hread =>
            obtain ⟨reader, hreader, path, place, text, hfile, htext, noted, hinner⟩ :=
              readIncluded_ok hread
            -- the file is read one level further down, where reading is faithful
            obtain ⟨innerLines, hexpands, hinnerSays⟩ := hnested reader hreader hinner
            obtain ⟨out, added, hout, hadded, rfl⟩ := ih hlines hrest h
            refine ⟨cut :: innerLines ++ out, (labels ++ [.includeFile tag file]) ++ inner ++ added,
              .spliced hcut hfile htext hexpands hout, ?_, by simp [List.reverseAux_eq]⟩
            have hcutSays : SaysCore [cut] (labels ++ [.includeFile tag file]) := by
              refine hsaid.saysCore ?_ hsaidFree
              rw [hcore, core_append, core_map_untagged]
              exact (List.append_nil _).symm
            exact (hcutSays.append hinnerSays).append hadded

theorem readUnit_faithful (hnested : ∀ reader ∈ nested, library.Faithful reader) :
    library.Faithful (library.readUnit nested) := by
  intro active home name text reading next found h
  simp only [readUnit] at h
  split at h
  · cases h
  · next statements hparse =>
      have hsays : Says (['\n'].intercalate (text.splitOn '\n')) (statements.map untagged) := by
        rw [List.intercalate_splitOn]
        exact (says_iff_parse _).2 ⟨statements, hparse, rfl⟩
      obtain ⟨parts, hparts, hstatements⟩ :=
        (says_intercalate_iff (List.splitOn_ne_nil _ _)).1 hsays
      obtain ⟨out, added, hout, hadded, rfl⟩ :=
        splice_expands hnested hparts not_mem_of_mem_splitOn hstatements h
      exact ⟨out, hout, hadded⟩

theorem readLevels_faithful (levels : Nat) : library.Faithful (library.readLevels levels) := by
  induction levels with
  | zero => exact readUnit_faithful (by simp)
  | succ levels ih => exact readUnit_faithful (by simpa using ih)

/-- A text that was read with the files it includes has an expansion, which says the same. -/
theorem read_expands {name : String} {text : List Char}
    (h : library.read name text reading = (next, .ok found)) :
    ∃ home lines, library.unitPlace name = .ok home ∧
      library.Expands home (text.splitOn '\n') lines ∧ SaysCore lines found := by
  unfold read at h
  split at h
  · cases h
  · next home hhome =>
      obtain ⟨lines, hlines, hsays⟩ := readLevels_faithful _ h
      exact ⟨home, lines, hhome, hlines, hsays⟩

/-- A text without include directives is read as its statements. -/
theorem readLevels_of_free {levels : Nat} {name : String} {text : List Char}
    (hparse : Statement.parse (reading.units.push name text).2 text = .ok statements)
    (hfree : ∀ s ∈ statements, s.isInclude = false) :
    ∃ next, library.readLevels levels active home name text reading = (next, .ok statements) := by
  -- no file is opened, so it does not matter whether there is a reader for them
  have hsplice (nested : Option Reader) (noted : Reading) :
      library.splice nested active home [] noted statements = (noted, .ok statements) := by
    have happend := @splice_append library nested active home [] statements noted hfree []
    rw [List.append_nil, List.append_nil] at happend
    rw [happend, splice, List.reverse_reverse]
  cases levels with
  | zero => exact ⟨_, by simp only [readLevels, readUnit, hparse, hsplice]; rfl⟩
  | succ levels => exact ⟨_, by simp only [readLevels, readUnit, hparse, hsplice]; rfl⟩

theorem read_of_free {text : List Char}
    (hparse : Statement.parse (reading.units.push inputName text).2 text = .ok statements)
    (hfree : ∀ s ∈ statements, s.isInclude = false) :
    ∃ next, library.read inputName text reading = (next, .ok statements) := by
  have hplace : library.unitPlace inputName = .ok none := if_pos rfl
  simp only [read, hplace]
  exact readLevels_of_free hparse hfree

end Library

/-! ## Sessions -/

namespace Session

variable {session : Session} {tree : FileTree} {name : String} {text : List Char}

theorem addText_ok (h : (session.addText tree name text).answer = .ok ()) :
    ∃ reading found,
      Library.read ⟨tree, session.searchPaths⟩ name text ⟨session.units, []⟩ =
        (reading, .ok found) := by
  unfold addText at h
  simp only at h
  split at h
  · next reading found hread => exact ⟨reading, found, hread⟩
  · cases h

theorem addText_of_read {reading : Reading} {found : List Statement}
    (h : Library.read ⟨tree, session.searchPaths⟩ name text ⟨session.units, []⟩ =
      (reading, .ok found)) :
    (session.addText tree name text).answer = .ok () ∧
      (session.addText tree name text).session.statements = session.statements ++ found := by
  constructor <;> simp only [addText, h]

end Session

/-- A text that was read with the files it includes has one expansion.  Its statements are those of
the expansion, read as a single text, apart from places, comments and include directives; and both
are assembled to the same code and labels, or fail for the same reason. -/
theorem inclusion_is_textual {session : Session} {tree : FileTree} {name : String}
    {text : List Char} (hreach : session.Reachable)
    (hread : (session.addText tree name text).answer = .ok ()) :
    ∃ home lines flat,
      Library.unitPlace ⟨tree, session.searchPaths⟩ name = .ok home ∧
      (∀ other, Library.Expands ⟨tree, session.searchPaths⟩ home (text.splitOn '\n') other ↔
        other = lines) ∧
      (session.addText tree name text).session.statements = session.statements ++ flat ∧
      (∀ unit, ∃ parsed, Statement.parse unit (['\n'].intercalate lines) = .ok parsed ∧
        core parsed = core flat) ∧
      (session.addText tree inputName (['\n'].intercalate lines)).answer = .ok () ∧
      (session.addText tree name text).session.result =
        (session.addText tree inputName (['\n'].intercalate lines)).session.result := by
  obtain ⟨reading, flat, hflat⟩ := Session.addText_ok hread
  obtain ⟨home, lines, hhome, hexpands, hsays⟩ := Library.read_expands hflat
  have hstatements := (Session.addText_of_read hflat).2
  have hparse := hsays.parse (hexpands.ne_nil (List.splitOn_ne_nil _ _))
  obtain ⟨parsed, hparsed, hcore, hfree⟩ := hparse session.units.length
  -- the single text includes nothing, so reading it is parsing it
  obtain ⟨next, hsingle⟩ : ∃ next, Library.read ⟨tree, session.searchPaths⟩ inputName
      (['\n'].intercalate lines) ⟨session.units, []⟩ = (next, .ok parsed) :=
    Library.read_of_free hparsed hfree
  obtain ⟨hanswer, hsingleStatements⟩ := Session.addText_of_read hsingle
  refine ⟨home, lines, flat, hhome, ?_, hstatements, ?_, hanswer, ?_⟩
  · exact fun other => ⟨fun hother => hother.unique hexpands, fun h => h ▸ hexpands⟩
  · intro unit
    obtain ⟨read, hread, hreadCore, -⟩ := hparse unit
    exact ⟨read, hread, hreadCore⟩
  · refine (hreach.addText tree name text).covered.result_congr
      (hreach.addText tree inputName _).covered ?_
    rw [hstatements, hsingleStatements, core_append, core_append, hcore]

/-- A working directory with a file that includes another one beside it. -/
def nestedTree : FileTree :=
  let file (text : String) : FileEntry := .file (text.toList.map fun c => c.toNat.toUInt8)
  ⟨[(["w", "main.s"], file ""), (["w", "lib"], .directory),
    (["w", "lib", "a.inc"], file ".include \"b.inc\"\n nop"),
    (["w", "lib", "b.inc"], file " rts\r\n")], ["w"]⟩

/-- A text that includes both. -/
def nestedText : List Char :=
  "start: .include \"lib/a.inc\" ; both\n jmp start\n.include \"lib/b.inc\"".toList

/-- The lines that the text stands for. -/
def nestedLines : List (List Char) :=
  ["start:  ; both", "", " rts", "", " nop", " jmp start", "", " rts", ""].map String.toList

theorem nestedText_expands :
    Library.Expands ⟨nestedTree, []⟩ (some ["w", "main.s"]) (nestedText.splitOn '\n')
      nestedLines := by
  let library : Library := ⟨nestedTree, []⟩
  have hfirst : library.firstFile (library.candidates (some ["w", "main.s"]) "lib/a.inc") =
      .ok (some (.ofText "/w/lib/a.inc", ["w", "lib", "a.inc"])) := by decide +kernel
  have hbeside : library.firstFile (library.candidates (some ["w", "lib", "a.inc"]) "b.inc") =
      .ok (some (.ofText "/w/lib/b.inc", ["w", "lib", "b.inc"])) := by decide +kernel
  have hagain : library.firstFile (library.candidates (some ["w", "main.s"]) "lib/b.inc") =
      .ok (some (.ofText "/w/lib/b.inc", ["w", "lib", "b.inc"])) := by decide +kernel
  have hrts : library.Expands (some ["w", "lib", "b.inc"]) (" rts\n".toList.splitOn '\n')
      [" rts".toList, []] := .plain rfl (.plain rfl .nil)
  have hboth : library.Expands (some ["w", "lib", "a.inc"])
      (".include \"b.inc\"\n nop".toList.splitOn '\n') [[], " rts".toList, [], " nop".toList] :=
    .spliced (by decide +kernel) hbeside (by decide +kernel) hrts (.plain rfl .nil)
  exact .spliced (by decide +kernel) hfirst (by decide +kernel) hboth
    (.plain rfl (.spliced (by decide +kernel) hagain (by decide +kernel) hrts .nil))

/-- A label and a comment stay in the line of their directive, a file is found beside the file that
includes it, and a file may be included twice. -/
theorem nested_inclusion_is_textual :
    ((Session.start []).addText nestedTree "main.s" nestedText).session.result =
      ((Session.start []).addText nestedTree inputName
        (['\n'].intercalate nestedLines)).session.result ∧
    ((Session.start []).addText nestedTree "main.s" nestedText).session.result.map Prod.fst =
      .ok [0x60, 0xEA, 0x4C, 0x00, 0x00, 0x60] := by
  have hread : ((Session.start []).addText nestedTree "main.s" nestedText).answer = .ok () := by
    decide +kernel
  obtain ⟨home, lines, flat, hhome, hlines, -, -, -, hresult⟩ :=
    inclusion_is_textual (.start []) hread
  have hmain : Library.unitPlace ⟨nestedTree, []⟩ "main.s" = .ok (some ["w", "main.s"]) := by
    decide +kernel
  obtain rfl : home = some ["w", "main.s"] := Except.ok.inj (hhome.symm.trans hmain)
  obtain rfl : nestedLines = lines := (hlines nestedLines).1 nestedText_expands
  exact ⟨hresult, by decide +kernel⟩

end Asm65
