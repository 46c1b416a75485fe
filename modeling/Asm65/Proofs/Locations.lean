import Mathlib.Data.List.DropRight
import Asm65.Proofs.Assembly
import Asm65.Proofs.Histories

/-!
# Where failures are

A problem that a session reports stands at a place in one of its units, and its message names the
place: unit, row and column.  The one exception is a program that is too large, which has no place.
Places come from the scan of a text; they are handed on from tokens to statements, parameters and
chunks, while units are added by nested inclusions and left behind by calls that failed.

No failure of a session is one of writing its message: that would be a fault of a kind that no call
ends with.
-/

namespace Asm65

/-! ## Rows and columns -/

namespace Tag

/-- The row counts the line feeds passed, and the column the characters since the last of them. -/
theorem foldl_stepRowCol (passed : List Char) :
    passed.foldl stepRowCol (1, 1) =
      (1 + passed.count '\n', 1 + (passed.rtakeWhile (· != '\n')).length) := by
  induction passed using List.reverseRecOn with
  | nil => rfl
  | append_singleton passed c ih =>
      rw [List.foldl_append, ih, List.foldl_cons, List.foldl_nil, List.count_append,
        List.rtakeWhile_concat]
      by_cases hc : c = '\n'
      · subst hc
        simp [stepRowCol, Nat.add_assoc]
      · simp [stepRowCol, hc, Nat.add_assoc]

theorem charsBefore_natCast {length offset : Nat} (h : offset ≤ length) :
    charsBefore length offset = offset := by
  have hnonneg : ¬ (offset : Int) < 0 := by omega
  rw [charsBefore, if_neg hnonneg, Int.toNat_natCast, Nat.min_eq_left h]

theorem Within.eq_mk {id length : Nat} {t : Tag} (h : t.Within id length) :
    ∃ offset : Nat, t = ⟨id, offset⟩ ∧ offset ≤ length := by
  obtain ⟨unit, offset⟩ := t
  obtain ⟨n, rfl⟩ := Int.eq_ofNat_of_zero_le h.nonneg
  obtain rfl : unit = id := h.unit_eq
  exact ⟨n, rfl, Int.ofNat_le.1 h.le_length⟩

end Tag

/-- A text about an offset of a unit: the name of the unit and the row and the column of the offset
stand before it. -/
def SourceUnit.remark (unit : SourceUnit) (offset : Nat) (text : String) : String :=
  let passed := unit.text.take offset
  unit.name ++ ":" ++ toString (1 + passed.count '\n') ++ ":" ++
    toString (1 + (passed.rtakeWhile (· != '\n')).length) ++ ": " ++ text

namespace Units

variable {units : Units} {id offset : Nat} {unit : SourceUnit}

theorem labelled_eq (hunit : units[id]? = some unit) (hoffset : offset ≤ unit.text.length)
    (text : SourceUnit → String) :
    units.labelled ⟨id, offset⟩ text = .ok (unit.remark offset (text unit)) := by
  have hfind : units.find id = .ok unit := by
    rw [find, (numbered hunit).1]
    rfl
  have hplace : Tag.rowCol ⟨id, offset⟩ unit.text =
      (1 + (unit.text.take offset).count '\n',
        1 + ((unit.text.take offset).rtakeWhile (· != '\n')).length) := by
    rw [Tag.rowCol, Tag.charsBefore_natCast hoffset, Tag.foldl_stepRowCol]
  simp only [labelled, hfind]
  show Except.ok _ = _
  rw [hplace]
  rfl

end Units

/-! ## Errors -/

/-- A fault that is not about a unit or a place that is missing. -/
def Fault.Outside (fault : Fault) : Prop :=
  fault.kind ≠ .outOfRange ∧ fault.kind ≠ .missingPart

/-- An error whose message can be written: a program that is too large, a problem at a place in the
units, or a fault that has to do with neither. -/
def Error.Reportable (units : Units) (e : Error) : Prop :=
  e = .problem .capacity none ∨ e.Located units.Covers ∨ ∃ fault, e = .fault fault ∧ fault.Outside

theorem Error.Located.reportable {units : Units} {e : Error} (h : e.Located units.Covers) :
    e.Reportable units :=
  Or.inr (Or.inl h)

theorem Fault.Outside.reportable {units : Units} {fault : Fault} (h : fault.Outside) :
    (Error.fault fault).Reportable units :=
  Or.inr (Or.inr ⟨fault, rfl, h⟩)

/-- A text is not read because of a number, or of a mistake at a place in it. -/
theorem Statement.parse_eq_error {unit : Int} {text : List Char} {e : Error}
    (h : parse unit text = .error e) :
    (∃ fault, e = .fault fault ∧ fault.kind = .badValue) ∨
      ∃ problem tag, e = .problem problem (some tag) ∧ problem.family = .malformed ∧
        tag.Within unit text.length := by
  by_cases hbad : MeetsBadNumeral text
  · obtain ⟨fault, hparse, hkind⟩ := @parse_of_badNumeral unit text hbad
    rw [hparse] at h
    cases h
    exact Or.inl ⟨fault, rfl, hkind⟩
  · rcases @parse_of_not_badNumeral unit text hbad with
      ⟨statements, hparse⟩ | ⟨problem, tag, hparse, hrest⟩
    · rw [hparse] at h
      cases h
    · rw [hparse] at h
      cases h
      exact Or.inr ⟨problem, tag, rfl, hrest⟩

theorem Statement.parse_reportable {units : Units} {name : String} {text : List Char} {e : Error}
    (h : parse units.length text = .error e) : e.Reportable (units ++ [⟨name, text⟩]) := by
  rcases parse_eq_error h with ⟨fault, rfl, hkind⟩ | ⟨problem, tag, rfl, -, hwithin⟩
  · refine Fault.Outside.reportable ?_
    rw [Fault.Outside, hkind]
    exact ⟨nofun, nofun⟩
  · refine Error.Located.reportable ⟨problem, some tag, rfl, tag, rfl, ?_⟩
    exact ⟨units.length, ⟨name, text⟩, by simp, hwithin⟩

namespace FileTree

variable {tree : FileTree} {path : String} {fault : Fault}

theorem Obstacle.fault_outside (path : String) (obstacle : Obstacle) :
    (obstacle.fault path).Outside := by
  cases obstacle <;> exact ⟨nofun, nofun⟩

theorem readAt_outside (h : tree.readAt path = .error fault) : fault.Outside := by
  unfold readAt at h
  split at h
  · next obstacle _ =>
      cases h
      exact obstacle.fault_outside path
  · split at h
    · cases h
    · cases h
      exact ⟨nofun, nofun⟩
    · cases h
      exact ⟨nofun, nofun⟩

theorem readText_outside (h : tree.readText path = .error fault) : fault.Outside := by
  unfold readText read at h
  cases hread : tree.readAt path with
  | error found =>
      rw [hread] at h
      cases h
      exact readAt_outside hread
  | ok found =>
      rw [hread] at h
      simp only [Except.map, bind, Except.bind] at h
      cases hdecode : Text.Utf8.decode found.2 with
      | ok text =>
          rw [hdecode] at h
          cases h
      | error refusal =>
          rw [hdecode] at h
          cases h
          constructor <;> exact FaultKind.noConfusion

end FileTree

namespace Library

variable {library : Library} {active : List Place} {home : Option Place} {units next : Units}
  {statements flat : List Statement} {tag : Option Tag} {file : String} {e : Error}

theorem firstFile_outside {paths : List Path} {fault : Fault}
    (h : library.firstFile paths = .error fault) : fault.Outside := by
  induction paths with
  | nil => cases h
  | cons path rest ih =>
      unfold firstFile at h
      split at h
      · next found hfound =>
          cases h
          rw [FileTree.eq_nameTooLong_of_locateFile hfound]
          exact ⟨nofun, nofun⟩
      · cases h
      · exact ih h

/-- Why an include directive leads into no file. -/
theorem opened_eq_error (h : library.opened active home tag file = .error e) :
    (∃ fault, library.firstFile (library.candidates home file) = .error fault ∧
      e = .fault fault) ∨
    (library.firstFile (library.candidates home file) = .ok none ∧
      e = library.notFound tag file) ∨
    ∃ path place, library.firstFile (library.candidates home file) = .ok (some (path, place)) ∧
      ((place ∈ active ∧ e = circular tag file) ∨
        ∃ fault, library.tree.readText path.text = .error fault ∧ e = .fault fault) := by
  unfold opened at h
  split at h
  · next fault hfile =>
      cases h
      exact Or.inl ⟨fault, hfile, rfl⟩
  · next hfile =>
      cases h
      exact Or.inr (Or.inl ⟨hfile, rfl⟩)
  · next path place hfile =>
      refine Or.inr (Or.inr ⟨path, place, hfile, ?_⟩)
      split at h
      · next hactive =>
          cases h
          exact Or.inl ⟨hactive, rfl⟩
      · split at h
        · next fault htext =>
            cases h
            exact Or.inr ⟨fault, htext, rfl⟩
        · cases h

theorem opened_reportable (htag : Placed units.Covers tag)
    (h : library.opened active home tag file = .error e) : e.Reportable units := by
  rcases opened_eq_error h with
    ⟨fault, hfile, rfl⟩ | ⟨-, rfl⟩ | ⟨path, place, -, ⟨-, rfl⟩ | ⟨fault, htext, rfl⟩⟩
  · exact (firstFile_outside hfile).reportable
  · exact Error.Located.reportable ⟨_, tag, rfl, htag⟩
  · exact Error.Located.reportable ⟨_, tag, rfl, htag⟩
  · exact (FileTree.readText_outside htext).reportable

theorem Flattens.units_prefix (h : library.Flattens active home units statements next flat) :
    units <+: next := by
  induction h with
  | nil => exact List.prefix_refl _
  | plain _ _ ih => exact ih
  | included _ _ _ ihinner ihrest =>
      exact (List.prefix_append _ _).trans (ihinner.trans ihrest)

theorem parse_covered {name : String} {text : List Char}
    (h : Statement.parse units.length text = .ok statements) :
    ∀ s ∈ statements, s.WellFormed (units ++ [⟨name, text⟩] : Units).Covers := by
  intro s hs
  refine (Statement.parse_wellFormed h s hs).mono fun t ht => ?_
  exact ⟨units.length, ⟨name, text⟩, by simp, ht⟩

/-- The error that ends a flattening can be reported, with the units registered until then. -/
theorem Breaks.reportable (h : library.Breaks active home units statements next e)
    (hform : ∀ s ∈ statements, s.WellFormed units.Covers) : e.Reportable next := by
  induction h with
  | plain _ _ ih => exact ih (List.forall_mem_cons.1 hform).2
  | refused hrefuses =>
      cases hrefuses with
      | unopened hopened => exact opened_reportable (List.forall_mem_cons.1 hform).1 hopened
      | malformed _ hparse => exact Statement.parse_reportable hparse
  | within henters _ ih => exact ih (parse_covered henters.parse)
  | behind _ hinner _ ih =>
      -- the file that was read before has added units
      have hmore := (List.prefix_append _ _).trans hinner.units_prefix
      exact ih (wellFormed_mono hmore (List.forall_mem_cons.1 hform).2)

theorem Reads.reportable {name : String} {text : List Char}
    (h : library.Reads active home name text units next (.error e)) : e.Reportable next := by
  cases h with
  | malformed hparse => exact Statement.parse_reportable hparse
  | broken hparse hbreaks => exact hbreaks.reportable (parse_covered hparse)

end Library

/-! ## Failures -/

/-- A failure as it is shown.  The message of a problem is written from the problem and its place.
The place is missing if the program is too large, and only then; otherwise it lies in one of the
units, the message names it, and the rest of its line can be shown too. -/
def Failure.Shown (units : Units) : Failure → Prop
  | .fault f => f.Outside
  | .problem message p tag =>
      units.describe p tag = .ok message ∧
      ((p = .capacity ∧ tag = none ∧ message = p.message) ∨
        ∃ (id offset : Nat) (unit : SourceUnit), tag = some ⟨id, offset⟩ ∧
          units[id]? = some unit ∧ offset ≤ unit.text.length ∧
          message = unit.remark offset p.message ∧
          units.lineComment tag = .ok (unit.remark offset
            (String.ofList ((unit.text.drop offset).takeWhile (· != '\n')))))

/-- What can be reported is shown. -/
theorem Error.Reportable.shown {units : Units} {e : Error} (h : e.Reportable units) :
    (Failure.ofError units e).Shown units := by
  rcases h with rfl | ⟨problem, tag, rfl, t, rfl, id, unit, hunit, hwithin⟩ | ⟨fault, rfl, hfault⟩
  · exact ⟨rfl, Or.inl ⟨rfl, rfl, rfl⟩⟩
  · obtain ⟨offset, rfl, hoffset⟩ := hwithin.eq_mk
    have hdescribe : units.describe problem (some ⟨id, offset⟩) =
        .ok (unit.remark offset problem.message) :=
      Units.labelled_eq hunit hoffset _
    have hline : units.lineComment (some ⟨id, offset⟩) = .ok (unit.remark offset
        (String.ofList ((unit.text.drop offset).takeWhile (· != '\n')))) := by
      rw [Units.lineComment, Units.labelled_eq hunit hoffset, Tag.line,
        Tag.charsBefore_natCast hoffset]
    simp only [Failure.ofError, hdescribe]
    exact ⟨hdescribe, Or.inr ⟨id, offset, unit, rfl, hunit, hoffset, rfl, hline⟩⟩
  · exact hfault

theorem Failure.eq_of_ofError {units : Units} {e : Error} {message : String} {p : Problem}
    {tag : Option Tag} (h : ofError units e = .problem message p tag) : e = .problem p tag := by
  unfold ofError at h
  split at h
  · cases h
  · split at h <;> cases h
    rfl

theorem Error.Reportable.ofError_problem {units : Units} {p : Problem} {tag : Option Tag}
    (h : (Error.problem p tag).Reportable units) :
    ∃ message, Failure.ofError units (.problem p tag) = .problem message p tag := by
  rcases h with hcapacity | ⟨problem, placed, hproblem, hplaced⟩ | ⟨fault, hfault, -⟩
  · cases hcapacity
    exact ⟨_, rfl⟩
  · cases hproblem
    obtain ⟨message, hmessage⟩ := @Units.describe_ok units p tag hplaced
    exact ⟨message, by simp only [Failure.ofError, hmessage]⟩
  · cases hfault

theorem Reply.eq_of_failure? {reply : Reply} {failure : Failure}
    (h : reply.failure? = some failure) :
    reply = .added (.error failure) ∨ reply = .assembled (.error failure) := by
  unfold failure? at h
  split at h
  · cases h
    exact Or.inl rfl
  · cases h
    exact Or.inr rfl
  · cases h

namespace Session

variable {session : Session} {failure : Failure} {tree : FileTree} {name : String}
  {text : List Char}

theorem addText_shown (h : (session.addText tree name text).answer = .error failure) :
    failure.Shown (session.addText tree name text).session.units := by
  cases hhome : Library.unitPlace ⟨tree, session.searchPaths⟩ name with
  | error fault =>
      rw [(addText_of_unitPlace_error hhome).2] at h
      cases h
      rw [Library.eq_nameTooLong_of_unitPlace hhome]
      exact ⟨nofun, nofun⟩
  | ok home =>
      obtain ⟨next, outcome, hreads⟩ := @exists_reads session tree name text home hhome
      obtain ⟨hsession, hanswer⟩ := addText_of_reads hhome hreads
      rw [hsession]
      rw [hanswer] at h
      cases outcome with
      | ok flat => cases h
      | error e =>
          cases h
          exact hreads.reportable.shown

theorem Reachable.assemble_shown (hreach : session.Reachable)
    (h : session.assemble.2 = .error failure) : failure.Shown session.units := by
  have hcovered := hreach.covered
  unfold assemble at h
  cases hbuild : Program.ofStatements session.statements with
  | error e =>
      simp only [hbuild] at h
      cases h
      exact (Program.ofStatements_located hcovered hbuild).reportable.shown
  | ok program =>
      simp only [hbuild] at h
      cases hlayout : (Program.layout program).labels with
      | error e =>
          simp only [hlayout] at h
          cases h
          rcases Program.layout_error (Program.ofStatements_sound hcovered hbuild) hlayout with
            hcapacity | hlocated
          · exact Error.Reportable.shown (Or.inl hcapacity)
          · exact hlocated.reportable.shown
      | ok labels =>
          simp only [hlayout] at h
          rcases Program.image_outcome hcovered hbuild hlayout with
            ⟨-, code, hcode⟩ | ⟨-, n, hn⟩
          · simp only [hcode] at h
            cases h
          · simp only [hn] at h
            cases h
            exact ⟨nofun, nofun⟩

/-- The failure of a call is shown with the units there are after it. -/
theorem Reachable.perform_shown (hreach : session.Reachable) {call : Call}
    (h : (session.perform call).2.failure? = some failure) :
    failure.Shown (session.perform call).1.units := by
  have haddText (name : String) (text : List Char) (tree : FileTree)
      (h : (session.perform (.addText tree name text)).2.failure? = some failure) :
      failure.Shown (session.perform (.addText tree name text)).1.units := by
    rw [perform_addText] at h ⊢
    rcases Reply.eq_of_failure? h with hanswer | hanswer
    · exact addText_shown (Reply.added.inj hanswer)
    · cases hanswer
  cases call with
  | addText tree name text => exact haddText name text tree h
  | addFile tree path =>
      cases htext : tree.readText (Path.ofText path).text with
      | error fault =>
          rw [perform_addFile_of_error htext] at h
          cases h
          exact FileTree.readText_outside htext
      | ok text =>
          rw [perform_addFile_of_ok htext] at h ⊢
          exact haddText _ text tree h
  | assemble =>
      rcases Reply.eq_of_failure? h with hanswer | hanswer
      · cases hanswer
      · exact hreach.assemble_shown (Reply.assembled.inj hanswer)

end Session

/-- Whatever calls a session has answered, and whether they failed or not: if the next call fails,
the failure is shown with the units there are then. -/
theorem session_failure_shown (searchPaths : List String) (calls : List Call) (call : Call)
    (failure : Failure)
    (h : (((Session.start searchPaths).after calls).perform call).2.failure? = some failure) :
    failure.Shown (((Session.start searchPaths).after calls).perform call).1.units :=
  ((Session.Reachable.start searchPaths).after calls).perform_shown h

/-- A working directory with a file that includes one with a mistake in its second line. -/
def brokenTree : FileTree :=
  let file (text : String) : FileEntry := .file (text.toList.map fun c => c.toNat.toUInt8)
  ⟨[(["w", "main.s"], file " nop\n .include \"part.inc\"\n"),
    (["w", "part.inc"], file " rts\n lda (1")], ["w"]⟩

/-- The calls before: a text that includes a file that is missing. -/
def brokenCalls : List Call :=
  [.addText brokenTree inputName ".include \"other.inc\"".toList]

/-- The text of the failed call is left behind as the first unit, and the mistake is then shown in
the third. -/
theorem failure_in_included_file_shown :
    ((Session.start []).after brokenCalls).units.length = 1 ∧
    (((Session.start []).after brokenCalls).perform (.addFile brokenTree "main.s")).2.failure? =
      some (.problem "/w/part.inc:2:8: expected ')'" .closingParenthesisExpected
        (some ⟨2, 12⟩)) ∧
    Failure.Shown
      (((Session.start []).after brokenCalls).perform (.addFile brokenTree "main.s")).1.units
      (.problem "/w/part.inc:2:8: expected ')'" .closingParenthesisExpected (some ⟨2, 12⟩)) := by
  have hfailure : (((Session.start []).after brokenCalls).perform
      (.addFile brokenTree "main.s")).2.failure? =
        some (.problem "/w/part.inc:2:8: expected ')'" .closingParenthesisExpected
          (some ⟨2, 12⟩)) := by
    decide +kernel
  exact ⟨by decide +kernel, hfailure, session_failure_shown [] brokenCalls _ _ hfailure⟩

end Asm65
