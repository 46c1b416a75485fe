import Mathlib.Logic.Relation
import Asm65.Proofs.Locations
import Asm65.Proofs.Paths

/-!
# Cycles of inclusion

Texts and the files they include form a graph.  A file that is still being read is not read again
inside itself, so the nesting ends.  What is refused for that reason is a directive that leads back
to a file above it, and a text from which no such directive can be reached is never refused for it,
however often its files are included side by side.

The proof goes both ways along the graph: a text that was flattened has no way back to the files
above it, and the error that ends a flattening stands at a directive reached from the text.
-/

namespace Asm65

open Relation (ReflTransGen)

/-- No file is addressed by the name of a text that does not come from one. -/
def FileTree.InputFree (tree : FileTree) : Prop :=
  ∀ place, tree.locateFile inputName ≠ .ok (some place)

/-- No text is refused for what it includes before it is read. -/
theorem Statement.parse_ne_inclusion {unit : Int} {text : List Char} {file : String}
    {fault : InclusionFault} {paths : List String} {tag : Option Tag} :
    parse unit text ≠ .error (.problem (.inclusion file fault paths) tag) := by
  intro h
  rcases parse_eq_error h with ⟨found, hfound, -⟩ | ⟨problem, place, hfound, hfamily, -⟩
  · cases hfound
  · cases hfound
    cases hfamily

namespace Library

variable {library : Library} {root source target : Source} {tag : Option Tag} {file : String}
  {path : Path} {place : Place} {text : List Char} {e : Error}

/-! ## The graph of inclusions -/

/-- A directive of a text, and the file it leads to. -/
structure Directs (library : Library) (source : Source) (tag : Option Tag) (file : String)
    (path : Path) (place : Place) : Prop where
  includes : Includes source.text tag file
  found : library.firstFile (library.candidates source.home file) = .ok (some (path, place))

/-- A text leads into the text of a file that it includes. -/
inductive LeadsInto (library : Library) : Source → Source → Prop
  | mk {source : Source} {tag : Option Tag} {file : String} {path : Path} {place : Place}
      {text : List Char} (hdirects : library.Directs source tag file path place)
      (htext : library.tree.readText path.text = .ok text) :
      LeadsInto library source ⟨some place, text⟩

/-- A text can be read, and each of its directives leads to a file that can be read. -/
def Resolves (library : Library) (source : Source) : Prop :=
  ∃ unit statements, Statement.parse unit source.text = .ok statements ∧
    ∀ tag file, .includeFile tag file ∈ statements → ∃ path place text,
      library.firstFile (library.candidates source.home file) = .ok (some (path, place)) ∧
      library.tree.readText path.text = .ok text

/-- Everything that is reached from a text resolves. -/
def Closed (library : Library) (root : Source) : Prop :=
  ∀ source, ReflTransGen library.LeadsInto root source → library.Resolves source

/-- A directive that is reached from a text includes a file again below itself. -/
def Recurs (library : Library) (root : Source) (tag : Option Tag) (file : String) : Prop :=
  ∃ outer inner path place, ReflTransGen library.LeadsInto root outer ∧
    outer.home = some place ∧ ReflTransGen library.LeadsInto outer inner ∧
    library.Directs inner tag file path place

/-- A name that stands for no file is not the path of an included one. -/
theorem homeOf_eq (hinput : library.tree.InputFree) {paths : List Path}
    (h : library.firstFile paths = .ok (some (path, place))) :
    homeOf path place = some place := by
  have hpath : path.text ≠ inputName := by
    intro hname
    apply hinput place
    rw [← hname]
    exact (firstFile_eq_some h).2
  rw [homeOf, if_neg hpath]

/-- A directive of a text is found in whatever unit the text is read, though at another place. -/
theorem Includes.mem_of_parse {unit : Int} {statements : List Statement}
    (h : Includes text tag file) (hparse : Statement.parse unit text = .ok statements) :
    ∃ tag', .includeFile tag' file ∈ statements := by
  obtain ⟨unit', found, hfound, hmem⟩ := h
  obtain ⟨again, hagain, halike⟩ := Statement.parse_alike hfound unit
  obtain rfl : statements = again := Except.ok.inj (hparse.symm.trans hagain)
  exact Statement.exists_include_of_map_untagged halike hmem

theorem Resolves.directs (h : library.Resolves source) (hincludes : Includes source.text tag file) :
    ∃ path place text,
      library.firstFile (library.candidates source.home file) = .ok (some (path, place)) ∧
      library.tree.readText path.text = .ok text := by
  obtain ⟨unit, statements, hparse, hall⟩ := h
  obtain ⟨tag', hmem⟩ := hincludes.mem_of_parse hparse
  exact hall tag' file hmem

/-! ## What was flattened has no way back -/

/-- A text was flattened while some files were being read, its own among them. -/
structure Flat (library : Library) (active : List Place) (source : Source) : Prop where
  flattens : ∃ unit statements units next flat, Statement.parse unit source.text = .ok statements ∧
    library.Flattens active source.home units statements next flat
  home : ∀ place, source.home = some place → place ∈ active

/-- Each directive of flattened statements was entered, and the file behind it flattened. -/
theorem Flattens.directive {active : List Place} {home : Option Place} {units next : Units}
    {statements flat : List Statement}
    (h : library.Flattens active home units statements next flat)
    (hmem : .includeFile tag file ∈ statements) :
    ∃ units' path place text inner middle innerFlat,
      library.Enters active home units' tag file path place text inner ∧
      library.Flattens (active ++ [place]) (homeOf path place) (units' ++ [⟨path.text, text⟩])
        inner middle innerFlat := by
  induction h with
  | nil => cases hmem
  | plain hs _ ih =>
      rcases List.mem_cons.1 hmem with rfl | hmem
      · cases hs
      · exact ih hmem
  | included henters hinner _ _ ih =>
      rcases List.mem_cons.1 hmem with hfirst | hmem
      · cases hfirst
        exact ⟨_, _, _, _, _, _, _, henters, hinner⟩
      · exact ih hmem

namespace Flat

variable {active : List Place}

/-- A directive of a flattened text leads to a file that was not being read, and the text of the
file was flattened below. -/
theorem enters (h : library.Flat active source)
    (hdirects : library.Directs source tag file path place) :
    place ∉ active ∧ ∃ text, library.tree.readText path.text = .ok text ∧
      ∃ unit statements units next flat, Statement.parse unit text = .ok statements ∧
        library.Flattens (active ++ [place]) (homeOf path place) units statements next flat := by
  obtain ⟨unit, statements, units, next, flat, hparse, hflat⟩ := h.flattens
  obtain ⟨tag', hmem⟩ := hdirects.includes.mem_of_parse hparse
  obtain ⟨units', path', place', text, inner, middle, innerFlat, henters, hinner⟩ :=
    hflat.directive hmem
  obtain ⟨hfile, hnew, htext⟩ := opened_eq_ok_iff.1 henters.opened
  rw [hdirects.found] at hfile
  cases hfile
  exact ⟨hnew, text, htext, units'.length, inner, _, middle, innerFlat, henters.parse, hinner⟩

/-- What a flattened text leads into was flattened too, while more files were being read. -/
theorem leadsInto (hinput : library.tree.InputFree) (h : library.Flat active source)
    (hleads : library.LeadsInto source target) :
    ∃ more, library.Flat (active ++ more) target := by
  obtain ⟨hdirects, htext⟩ := hleads
  obtain ⟨-, text, htext', hflat⟩ := h.enters hdirects
  obtain rfl := Except.ok.inj (htext.symm.trans htext')
  rw [homeOf_eq hinput hdirects.found] at hflat
  refine ⟨[_], hflat, ?_⟩
  intro place hplace
  cases hplace
  exact List.mem_append_right _ List.mem_cons_self

theorem reaches (hinput : library.tree.InputFree) (h : library.Flat active source)
    (hreach : ReflTransGen library.LeadsInto source target) :
    ∃ more, library.Flat (active ++ more) target := by
  induction hreach with
  | refl => exact ⟨[], by rwa [List.append_nil]⟩
  | tail _ hleads ih =>
      obtain ⟨more, hflat⟩ := ih
      obtain ⟨again, hagain⟩ := hflat.leadsInto hinput hleads
      exact ⟨more ++ again, by rwa [← List.append_assoc]⟩

/-- Nothing that a flattened text leads to includes a file again below itself. -/
theorem not_recurs (hinput : library.tree.InputFree) (h : library.Flat active root) :
    ¬ library.Recurs root tag file := by
  rintro ⟨outer, inner, path, place, houter, hplace, hinner, hdirects⟩
  obtain ⟨more, hflatOuter⟩ := h.reaches hinput houter
  obtain ⟨again, hflatInner⟩ := hflatOuter.reaches hinput hinner
  -- the outer file is still being read when the inner text is flattened
  have hactive : place ∈ active ++ more ++ again :=
    List.mem_append_left _ (hflatOuter.home place hplace)
  exact (hflatInner.enters hdirects).1 hactive

end Flat

/-! ## Where a flattening ends -/

/-- A text that is being read is reached from a text at the root, and so are the files that are
being read, each of them above it. -/
structure Traced (library : Library) (root : Source) (frame : Frame) : Prop where
  reaches : ReflTransGen library.LeadsInto root frame.toSource
  active : ∀ place ∈ frame.active, ∃ outer, ReflTransGen library.LeadsInto root outer ∧
    outer.home = some place ∧ ReflTransGen library.LeadsInto outer frame.toSource

theorem Traced.start (library : Library) (root : Source) :
    library.Traced root ⟨root, root.home.toList⟩ where
  reaches := .refl
  active := by
    intro place hplace
    exact ⟨root, .refl, Option.mem_toList.1 hplace, .refl⟩

theorem Traced.nests (hinput : library.tree.InputFree) {frame inner : Frame}
    (h : library.Traced root frame) (hnests : library.Nests frame inner) :
    library.Traced root inner := by
  obtain ⟨hincludes, hopened⟩ := hnests
  obtain ⟨hfile, -, htext⟩ := opened_eq_ok_iff.1 hopened
  have hleads := LeadsInto.mk ⟨hincludes, hfile⟩ htext
  rw [homeOf_eq hinput hfile]
  refine ⟨h.reaches.tail hleads, ?_⟩
  intro place hplace
  rcases List.mem_append.1 hplace with hplace | hplace
  · obtain ⟨outer, houter, hhome, hbelow⟩ := h.active place hplace
    exact ⟨outer, houter, hhome, hbelow.tail hleads⟩
  · rw [List.mem_singleton.1 hplace]
    exact ⟨_, h.reaches.tail hleads, rfl, .refl⟩

theorem Traced.reaches_nests (hinput : library.tree.InputFree) {frame inner : Frame}
    (h : library.Traced root frame)
    (hnests : ReflTransGen library.Nests frame inner) : library.Traced root inner := by
  induction hnests with
  | refl => exact h
  | tail _ hstep ih => exact ih.nests hinput hstep

/-- The error that ends a flattening comes from a directive of the text or of one nested in it. -/
theorem Breaks.exists_refuses {active : List Place} {home : Option Place} {units next : Units}
    {statements : List Statement} (h : library.Breaks active home units statements next e)
    {text : List Char}
    (htext : ∀ tag file, .includeFile tag file ∈ statements → Includes text tag file) :
    ∃ frame units' tag file, ReflTransGen library.Nests ⟨⟨home, text⟩, active⟩ frame ∧
      Includes frame.text tag file ∧
      library.Refuses frame.active frame.home units' tag file next e := by
  induction h generalizing text with
  | plain _ _ ih => exact ih fun tag file hmem => htext tag file (List.mem_cons_of_mem _ hmem)
  | refused hrefuses =>
      exact ⟨⟨⟨_, text⟩, _⟩, _, _, _, .refl, htext _ _ List.mem_cons_self, hrefuses⟩
  | within henters _ ih =>
      obtain ⟨frame, units', tag, file, hnests, hframe⟩ :=
        ih fun tag file hmem => ⟨_, _, henters.parse, hmem⟩
      have hfirst : library.Nests ⟨⟨_, text⟩, _⟩ _ :=
        .mk (htext _ _ List.mem_cons_self) henters.opened
      exact ⟨frame, units', tag, file, .head hfirst hnests, hframe⟩
  | behind _ _ _ ih => exact ih fun tag file hmem => htext tag file (List.mem_cons_of_mem _ hmem)

/-- A directive that is refused as circular leads back to a file above it. -/
theorem Refuses.recurs {frame : Frame} {units next : Units} {reported : Option Tag}
    {name : String} {paths : List String} (htraced : library.Traced root frame)
    (hincludes : Includes frame.text tag file)
    (h : library.Refuses frame.active frame.home units tag file next
      (.problem (.inclusion name .circular paths) reported)) :
    library.Recurs root reported name := by
  cases h with
  | unopened hopened =>
      rcases opened_eq_error hopened with
        ⟨fault, -, herror⟩ | ⟨-, herror⟩ |
          ⟨path, place, hfile, ⟨hactive, herror⟩ | ⟨fault, -, herror⟩⟩
      · cases herror
      · cases herror
      · cases herror
        obtain ⟨outer, houter, hhome, hbelow⟩ := htraced.active place hactive
        exact ⟨outer, frame.toSource, path, place, houter, hhome, hbelow, hincludes, hfile⟩
      · cases herror
  | malformed _ hparse => exact absurd hparse Statement.parse_ne_inclusion

/-- If all directives lead to files that can be read, those that are refused are circular. -/
theorem Refuses.eq_circular (hclosed : library.Closed root) {frame : Frame} {units next : Units}
    (htraced : library.Traced root frame) (hincludes : Includes frame.text tag file)
    (h : library.Refuses frame.active frame.home units tag file next e) :
    e = circular tag file := by
  obtain ⟨path, place, text, hfile, htext⟩ := (hclosed _ htraced.reaches).directs hincludes
  cases h with
  | unopened hopened =>
      rcases opened_eq_error hopened with
        ⟨fault, hfile', -⟩ | ⟨hfile', -⟩ | ⟨path', place', hfile', ⟨-, rfl⟩ | ⟨fault, htext', -⟩⟩
      · rw [hfile] at hfile'
        cases hfile'
      · rw [hfile] at hfile'
        cases hfile'
      · rfl
      · rw [hfile] at hfile'
        cases hfile'
        rw [htext] at htext'
        cases htext'
  | malformed hopened hparse =>
      obtain ⟨hfile', -, htext'⟩ := opened_eq_ok_iff.1 hopened
      have hleads := LeadsInto.mk ⟨hincludes, hfile'⟩ htext'
      obtain ⟨unit, statements, hparse', -⟩ := hclosed _ (htraced.reaches.tail hleads)
      obtain ⟨again, hagain, -⟩ := Statement.parse_alike hparse' units.length
      rw [hagain] at hparse
      cases hparse

/-! ## Reading a unit -/

section Unit

variable {home : Option Place} {name : String} {units next : Units}

theorem Reads.not_recurs (hinput : library.tree.InputFree) {flat : List Statement}
    (h : library.Reads home.toList home name text units next (.ok flat)) :
    ¬ library.Recurs ⟨home, text⟩ tag file := by
  obtain _ | ⟨hparse, hflat⟩ := h
  have hroot : library.Flat home.toList ⟨home, text⟩ := by
    refine ⟨⟨_, _, _, _, _, hparse, hflat⟩, ?_⟩
    intro place hplace
    exact Option.mem_toList.2 hplace
  exact hroot.not_recurs hinput

/-- An error comes from the text itself, or from a directive of a text that is nested in it. -/
theorem Reads.exists_refuses (hinput : library.tree.InputFree)
    (h : library.Reads home.toList home name text units next (.error e)) :
    Statement.parse units.length text = .error e ∨
    ∃ frame units' tag file, library.Traced ⟨home, text⟩ frame ∧
      Includes frame.text tag file ∧
      library.Refuses frame.active frame.home units' tag file next e := by
  cases h with
  | malformed hparse => exact Or.inl hparse
  | broken hparse hbreaks =>
      obtain ⟨frame, units', tag, file, hnests, hincludes, hrefuses⟩ :=
        hbreaks.exists_refuses fun tag file hmem => ⟨_, _, hparse, hmem⟩
      have htraced := (Traced.start library ⟨home, text⟩).reaches_nests hinput hnests
      exact Or.inr ⟨frame, units', tag, file, htraced, hincludes, hrefuses⟩

theorem Reads.recurs (hinput : library.tree.InputFree) {paths : List String}
    (h : library.Reads home.toList home name text units next
      (.error (.problem (.inclusion file .circular paths) tag))) :
    library.Recurs ⟨home, text⟩ tag file := by
  rcases h.exists_refuses hinput with hparse | ⟨frame, units', _, _, htraced, hincludes, hrefuses⟩
  · exact absurd hparse Statement.parse_ne_inclusion
  · exact hrefuses.recurs htraced hincludes

theorem Reads.eq_circular (hinput : library.tree.InputFree)
    (hclosed : library.Closed ⟨home, text⟩)
    (h : library.Reads home.toList home name text units next (.error e)) :
    ∃ tag file, e = circular tag file := by
  rcases h.exists_refuses hinput with
    hparse | ⟨frame, units', tag, file, htraced, hincludes, hrefuses⟩
  · obtain ⟨unit, statements, hparse', -⟩ := hclosed _ .refl
    obtain ⟨again, hagain, -⟩ := Statement.parse_alike hparse' units.length
    rw [hagain] at hparse
    cases hparse
  · exact ⟨tag, file, hrefuses.eq_circular hclosed htraced hincludes⟩

/-- A circular inclusion is reported for a directive that includes a file again below itself. -/
theorem Reads.recurs_of_answer (hinput : library.tree.InputFree)
    {outcome : Except Error (List Statement)} {message : String} {paths : List String}
    (h : library.Reads home.toList home name text units next outcome)
    (hanswer : Session.answerTo next outcome =
      .error (.problem message (.inclusion file .circular paths) tag)) :
    library.Recurs ⟨home, text⟩ tag file := by
  cases outcome with
  | ok flat => cases hanswer
  | error e =>
      obtain rfl := Failure.eq_of_ofError (Except.error.inj hanswer)
      exact h.recurs hinput

/-- If all that is reached can be found and read, a text is added unless a file is included again
below itself. -/
theorem Reads.answer_of_closed (hinput : library.tree.InputFree)
    (hclosed : library.Closed ⟨home, text⟩) {outcome : Except Error (List Statement)}
    (h : library.Reads home.toList home name text units next outcome) :
    (Session.answerTo next outcome = .ok () ∧ ∀ tag file, ¬ library.Recurs ⟨home, text⟩ tag file) ∨
      ∃ message tag file, library.Recurs ⟨home, text⟩ tag file ∧
        Session.answerTo next outcome =
          .error (.problem message (.inclusion file .circular []) tag) := by
  cases outcome with
  | ok flat => exact Or.inl ⟨rfl, fun _ _ => h.not_recurs hinput⟩
  | error e =>
      obtain ⟨tag, file, rfl⟩ := h.eq_circular hinput hclosed
      obtain ⟨message, hmessage⟩ := h.reportable.ofError_problem
      exact Or.inr ⟨message, tag, file, h.recurs hinput, congrArg Except.error hmessage⟩

end Unit

end Library

/-- The file behind a name that is too long is not looked for. -/
theorem Library.unitPlace_of_long {library : Library} {name : String}
    (hslash : '/' ∉ name.toList) (hnull : '\x00' ∉ name.toList)
    (hlong : FileTree.nameLimit < name.utf8ByteSize) :
    library.unitPlace name = .error (.nameTooLong name) := by
  have hother (short : String) (hshort : short.utf8ByteSize ≤ FileTree.nameLimit) :
      name ≠ short := by
    rintro rfl
    omega
  have hname : Path.IsName name := ⟨hslash, hother "" (by decide), hother "." (by decide)⟩
  rw [unitPlace, if_neg (hother inputName (by decide)), hname.text_ofText]
  exact FileTree.locateFile_of_long hslash hnull hlong

/-- Along nested inclusions the files that are being read are pairwise distinct, so there are at
most as many levels as there are files, and one for the text itself; and the recursion ends in
exactly one way.  If all that is reached from the text can be found and read, the text is added
exactly if no file is included again below itself, and is refused with a circular inclusion
otherwise.  A circular inclusion is reported at a directive that includes a file again below itself,
and so never at one that includes a file side by side.

All this is about a text whose name can be looked up.  A name that is too long cannot; the call then
ends in a fault, whatever the text is. -/
theorem inclusion_ends_or_reports_cycle (session : Session) (tree : FileTree) (name : String)
    (text : List Char) (hinput : tree.InputFree) :
    let library : Library := ⟨tree, session.searchPaths⟩
    let step := session.addText tree name text
    (∀ fault, library.unitPlace name = .error fault →
      fault = .nameTooLong (Path.ofText name).text ∧ step.session = session ∧
        step.answer = .error (.fault fault)) ∧
    ('/' ∉ name.toList → '\x00' ∉ name.toList → FileTree.nameLimit < name.utf8ByteSize →
      step.answer = .error (.fault (.nameTooLong name))) ∧
    ∀ home, library.unitPlace name = .ok home →
      let root : Library.Source := ⟨home, text⟩
      (∀ frames, (⟨root, home.toList⟩ :: frames).IsChain library.Nests →
        (∀ frame ∈ (⟨root, home.toList⟩ : Library.Frame) :: frames,
          frame.active.Nodup ∧ ∀ place ∈ frame.active, tree.IsFile place) ∧
        frames.length + 1 ≤ tree.files.card + 1) ∧
      (∃ next outcome, library.Reads home.toList home name text session.units next outcome ∧
        (∀ next' outcome',
          library.Reads home.toList home name text session.units next' outcome' →
            next' = next ∧ outcome' = outcome) ∧
        step.session =
          ⟨session.searchPaths, next, session.statements ++ outcome.toOption.getD []⟩ ∧
        step.answer = Session.answerTo next outcome) ∧
      (library.Closed root →
        (step.answer = .ok () ↔ ∀ tag file, ¬ library.Recurs root tag file) ∧
        (∀ tag file, library.Recurs root tag file → ∃ message tag' file',
          step.answer = .error (.problem message (.inclusion file' .circular []) tag'))) ∧
      ∀ message file paths tag,
        step.answer = .error (.problem message (.inclusion file .circular paths) tag) →
          library.Recurs root tag file := by
  intro library step
  refine ⟨?_, ?_, ?_⟩
  · intro fault hfault
    exact ⟨Library.eq_nameTooLong_of_unitPlace hfault, Session.addText_of_unitPlace_error hfault⟩
  · intro hslash hnull hlong
    exact (Session.addText_of_unitPlace_error (Library.unitPlace_of_long hslash hnull hlong)).2
  intro home hhome root
  obtain ⟨next, outcome, hreads⟩ := @Session.exists_reads session tree name text home hhome
  obtain ⟨hsession, hanswer⟩ : step.session = _ ∧ step.answer = Session.answerTo next outcome :=
    Session.addText_of_reads hhome hreads
  refine ⟨?_, ⟨next, outcome, hreads, fun _ _ h => h.unique hreads, hsession, hanswer⟩, ?_, ?_⟩
  · intro frames hchain
    obtain ⟨hdistinct, hdepth⟩ :=
      Library.distinct_of_chain (Library.distinct_of_unitPlace hhome) hchain
    refine ⟨?_, Nat.succ_le_succ (Nat.le_trans (Nat.le_add_left _ _) hdepth)⟩
    intro frame hframe
    exact ⟨(hdistinct frame hframe).nodup, (hdistinct frame hframe).files⟩
  · intro hclosed
    rw [hanswer]
    rcases hreads.answer_of_closed hinput hclosed with
      ⟨hok, hnone⟩ | ⟨message, tag, file, hrecurs, herror⟩
    · exact ⟨iff_of_true hok hnone, fun tag file h => absurd h (hnone tag file)⟩
    · rw [herror]
      exact ⟨iff_of_false nofun fun hnone => hnone tag file hrecurs,
        fun _ _ _ => ⟨message, tag, file, rfl⟩⟩
  · intro message file paths tag hreport
    exact hreads.recurs_of_answer hinput (hanswer.symm.trans hreport)

/-- A working directory with files that include each other. -/
def cyclicTree : FileTree :=
  let file (text : String) : FileEntry := .file (text.toList.map fun c => c.toNat.toUInt8)
  ⟨[(["w", "main.s"], file ""), (["w", "lib"], .directory),
    (["w", "lib", "a.inc"], file ".include \"../lib/b.inc\"\n"),
    (["w", "lib", "b.inc"], file " nop\n.include \"a.inc\"\n"),
    (["w", "lib", "c.inc"], file " rts\n")], ["w"]⟩

/-- A text that includes a file twice, by two names, and then one that includes itself. -/
def cyclicText : List Char :=
  ".include \"c.inc\"\n.include \"lib/c.inc\"\n.include \"b.inc\"".toList

/-- The cycle is reported where it closes, and the file that is included twice is not.  Under a name
of three hundred characters no text is added. -/
theorem cycle_closed_by_another_name :
    cyclicTree.InputFree ∧
    ((Session.start ["lib"]).addText cyclicTree "main.s" cyclicText).answer =
      .error (.problem "/w/lib/a.inc:1:1: cannot include '../lib/b.inc': circular include detected"
        (.inclusion "../lib/b.inc" .circular []) (some ⟨4, 0⟩)) ∧
    Library.Recurs ⟨cyclicTree, (Session.start ["lib"]).searchPaths⟩
      ⟨some ["w", "main.s"], cyclicText⟩ (some ⟨4, 0⟩) "../lib/b.inc" ∧
    ((Session.start ["lib"]).addText cyclicTree (.ofList (.replicate 300 'a'))
      " nop".toList).answer = .error (.fault (.nameTooLong (.ofList (.replicate 300 'a')))) := by
  have hinput : cyclicTree.InputFree := by
    have hnone : cyclicTree.locateFile inputName = .ok none := by decide +kernel
    intro place hplace
    rw [hnone] at hplace
    cases hplace
  have hhome : Library.unitPlace ⟨cyclicTree, (Session.start ["lib"]).searchPaths⟩ "main.s" =
      .ok (some ["w", "main.s"]) := by decide +kernel
  have hanswer : ((Session.start ["lib"]).addText cyclicTree "main.s" cyclicText).answer =
      .error (.problem "/w/lib/a.inc:1:1: cannot include '../lib/b.inc': circular include detected"
        (.inclusion "../lib/b.inc" .circular []) (some ⟨4, 0⟩)) := by decide +kernel
  obtain ⟨-, -, hmain⟩ :=
    inclusion_ends_or_reports_cycle (Session.start ["lib"]) cyclicTree "main.s" cyclicText hinput
  obtain ⟨-, -, -, hreports⟩ := hmain _ hhome
  obtain ⟨-, hname, -⟩ := inclusion_ends_or_reports_cycle (Session.start ["lib"]) cyclicTree
    (.ofList (.replicate 300 'a')) " nop".toList hinput
  rw [String.toList_ofList] at hname
  exact ⟨hinput, hanswer, hreports _ _ _ _ hanswer,
    hname (by decide +kernel) (by decide +kernel) (by decide +kernel)⟩

end Asm65
