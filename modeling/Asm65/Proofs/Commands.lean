import Asm65.Command.Arguments
import Asm65.Proofs.FileTrees
import Asm65.Proofs.Locations
import Asm65.Proofs.MapFiles
import Asm65.Proofs.Paths

/-!
# What the command writes

A run of the command reads the files there are, and then writes the image, the source map and the
symbols, in this order and up to the first that cannot be written.  If the program does not
assemble, nothing is written.  How the run ends tells how far it came.

A verbose run also shows what it does, and a line that cannot be shown stops it like a file that
cannot be written.  Where every line can be shown, being verbose has no part in what is written and
in how the run ends.

How arguments are read, and what becomes of a line that is shown, are parameters here.
-/

namespace Asm65

/-! ## Source maps -/

theorem Units.findNumbered_of_covers {units : Units} {t : Tag} (h : units.Covers t) :
    ∃ found, units.findNumbered t.unit = .ok found := by
  obtain ⟨id, unit, hunit, hwithin⟩ := h
  rw [hwithin.unit_eq]
  exact ⟨_, (numbered hunit).1⟩

namespace SourceMap

variable {units : Units} {entries : List MapEntry}

theorem locateAll_ok (rows : List (Array Nat)) (found : List Line)
    (h : ∀ entry ∈ entries, Placed units.Covers entry.tag) :
    ∃ lines, locateAll units rows found entries = .ok lines := by
  induction entries generalizing found with
  | nil => exact ⟨_, rfl⟩
  | cons entry entries ih =>
      obtain ⟨⟨t, htag, hcovers⟩, hrest⟩ := List.forall_mem_cons.1 h
      obtain ⟨numbered, hnumbered⟩ := Units.findNumbered_of_covers hcovers
      have hline : ∃ line, locate units rows entry = .ok line := by
        simp only [locate, htag, hnumbered]
        exact ⟨_, rfl⟩
      obtain ⟨line, hline⟩ := hline
      simp only [locateAll, hline]
      exact ih (line :: found) hrest

/-- Entries with places in the units have a source map. -/
theorem ofEntries_ok (h : ∀ entry ∈ entries, Placed units.Covers entry.tag) :
    ∃ map, ofEntries units entries = .ok map := by
  obtain ⟨lines, hlines⟩ := locateAll_ok (units.map fun unit => Tag.rows unit.text) [] h
  rw [ofEntries, hlines]
  exact ⟨_, rfl⟩

end SourceMap

/-- What a session assembles has a source map. -/
theorem Session.Reachable.sourceMap_ok {session : Session} {output : Output}
    (hreach : session.Reachable) (h : session.assemble.2 = .ok output) :
    ∃ map, output.sourceMap session.units = .ok map := by
  obtain ⟨program, hbuild, hlayout, -, -, hprogram⟩ := assemble_ok h
  have hform := hreach.covered
  obtain ⟨hentries, -⟩ := Program.layout_eq_across hform hbuild hlayout
  apply SourceMap.ofEntries_ok
  intro entry hentry
  rw [Output.mapEntries, hprogram, hentries] at hentry
  obtain ⟨i, hi⟩ := List.getElem?_of_mem hentry
  -- an entry has the place of the instruction it belongs to
  obtain ⟨before, after, mnemonic, operand, hsplit, -⟩ :=
    @FlatWalk.foldl_step_getElem? FlatWalk.start session.statements i entry
      (by rw [← hi]; simp [FlatWalk.across, FlatWalk.start])
  have hinstruction := hform (.instruction entry.tag mnemonic operand) (by simp [hsplit])
  exact hinstruction.1

/-! ## Assembling a file -/

namespace Session

namespace Step

variable {step : Step Unit}

theorem assemble_eq_error {failure : Failure} (h : step.assemble = .error failure) :
    step.answer = .error failure ∨ step.session.assemble.2 = .error failure := by
  unfold assemble at h
  split at h
  · next hanswer =>
      cases h
      exact Or.inl hanswer
  · cases hassemble : step.session.assemble.2 with
    | error found =>
        rw [hassemble] at h
        cases h
        exact Or.inr rfl
    | ok output =>
        rw [hassemble] at h
        cases h

theorem assemble_eq_ok {units : Units} {output : Output} (h : step.assemble = .ok (units, output)) :
    step.session.assemble.2 = .ok output ∧ units = step.session.units := by
  unfold assemble at h
  split at h
  · cases h
  · cases hassemble : step.session.assemble.2 with
    | error found =>
        rw [hassemble] at h
        cases h
    | ok found =>
        rw [hassemble] at h
        cases h
        exact ⟨rfl, rfl⟩

end Step

/-- A failure of reading a file and assembling it is shown. -/
theorem Reachable.assemble_addFile_shown {session : Session} (hreach : session.Reachable)
    {tree : FileTree} {path : String} {failure : Failure}
    (h : (session.addFile tree path).assemble = .error failure) :
    failure.Shown (session.addFile tree path).session.units := by
  rcases Step.assemble_eq_error h with hanswer | hassemble
  · have hfailure : (session.perform (.addFile tree path)).2.failure? = some failure := by
      rw [perform_addFile, hanswer, Reply.failure?]
    have hshown := hreach.perform_shown hfailure
    simpa only [perform_addFile] using hshown
  · exact (hreach.addFile tree path).assemble_shown hassemble

end Session

namespace Command

/-! ## Showing lines -/

/-- Every line can be shown. -/
def Stream.Clear (stream : Stream) : Prop :=
  ∀ shown line, stream shown line = .ok ()

theorem Stream.Clear.showAll {stream : Stream} (h : stream.Clear) (shown lines : List String) :
    (stream.showAll shown lines).2 = .ok () := by
  induction lines generalizing shown with
  | nil => rfl
  | cons line lines ih =>
      simp only [Stream.showAll, h shown line]
      exact ih (line :: shown)

/-- Every line that a run with these options shows can be shown. -/
structure Screen.Takes (screen : Screen) (options : Options) : Prop where
  complaints : screen.err.Clear
  progress : options.verbose = true → screen.out.Clear

/-- A stream for progress, if there is one, takes every line. -/
def TakesAll (stream : Option Stream) : Prop :=
  ∀ s, stream = some s → s.Clear

theorem takesAll_none : TakesAll none := nofun

namespace Progress

variable (stream : Option Stream) (progress : Progress)

@[simp]
theorem say_tree (lines : List String) : (say stream progress lines).1.tree = progress.tree := by
  cases stream with
  | none => rfl
  | some stream => rfl

variable {stream}

theorem say_ok (h : TakesAll stream) (lines : List String) :
    (say stream progress lines).2 = .ok () := by
  cases stream with
  | none => rfl
  | some stream => exact (h stream rfl).showAll progress.shown lines

/-! ## Writing -/

/-- Writing a file fails, or the file is written and only the line about it may fail. -/
theorem write_cases (stream : Option Stream) (w : Write) :
    (∃ fault, progress.tree.write w.path w.data = .error fault ∧
      progress.write stream w = (progress, .error fault)) ∨
    ∃ tree, progress.tree.write w.path w.data = .ok tree ∧
      (progress.write stream w).1.tree = tree ∧
      (TakesAll stream → (progress.write stream w).2 = .ok ()) := by
  unfold Progress.write
  cases progress.tree.write w.path w.data with
  | error fault => exact Or.inl ⟨fault, rfl, rfl⟩
  | ok tree => exact Or.inr ⟨tree, rfl, say_tree _ _ _, fun h => say_ok _ h _⟩

end Progress

/-- An attempt to write a file writes the file, if it gets that far. -/
def Attempts (attempt : Except Fault Write) (file : String × Bytes) : Prop :=
  ∀ w, attempt = .ok w → (w.path, w.data) = file

/-- What keeps the next file from being written: the attempt gets nowhere, or writing fails. -/
def Blocked (attempt : Except Fault Write) (tree : FileTree) (file : String × Bytes)
    (fault : Fault) : Prop :=
  attempt = .error fault ∨ tree.write file.1 file.2 = .error fault

/-- Attempts to write files write those up to the first that fails. -/
theorem Progress.writeAll_prefix {attempts : List (Except Fault Write)}
    {files : List (String × Bytes)} (h : List.Forall₂ Attempts attempts files)
    (stream : Option Stream) {before : FileTree} {already : List (String × Bytes)}
    {progress : Progress} (hbefore : before.Wrote progress.tree already) :
    ∃ done, done <+: files ∧
      before.Wrote (progress.writeAll stream attempts).1.tree (already ++ done) ∧
      ((progress.writeAll stream attempts).2 = .ok () → done = files) ∧
      ∀ fault, TakesAll stream → (progress.writeAll stream attempts).2 = .error fault →
        ∃ attempt file rest, attempts[done.length]? = some attempt ∧ files = done ++ file :: rest ∧
          Blocked attempt (progress.writeAll stream attempts).1.tree file fault := by
  induction h generalizing already progress with
  | nil =>
      refine ⟨[], List.prefix_refl _, ?_, fun _ => rfl, nofun⟩
      rw [List.append_nil]
      exact hbefore
  | @cons attempt file attempts files hattempt _ ih =>
      cases attempt with
      | error found =>
          refine ⟨[], List.nil_prefix, ?_, nofun, ?_⟩
          · rw [List.append_nil]
            exact hbefore
          · intro fault _ hfault
            exact ⟨_, file, files, rfl, rfl, Or.inl (congrArg _ (Except.error.inj hfault))⟩
      | ok w =>
          obtain rfl := hattempt w rfl
          rcases progress.write_cases stream w with
            ⟨found, hwrite, hstep⟩ | ⟨tree, hwrite, htree, hshown⟩
          · simp only [writeAll, hstep]
            refine ⟨[], List.nil_prefix, ?_, nofun, ?_⟩
            · rw [List.append_nil]
              exact hbefore
            · intro fault _ hfault
              cases hfault
              exact ⟨_, _, files, rfl, rfl, Or.inr hwrite⟩
          · have hnow := hbefore.concat hwrite
            cases hstep : progress.write stream w with
            | mk next answer =>
                rw [hstep] at htree hshown
                subst htree
                simp only [writeAll, hstep]
                cases answer with
                | error found =>
                    -- the file is there, but the line about it was not shown
                    refine ⟨[(w.path, w.data)], by simp, hnow, nofun, ?_⟩
                    intro fault htakes _
                    cases hshown htakes
                | ok _ =>
                    obtain ⟨done, hstarts, hdone, hall, hstop⟩ := ih hnow
                    rw [List.append_assoc] at hdone
                    refine ⟨(w.path, w.data) :: done, List.cons_prefix_cons.2 ⟨rfl, hstarts⟩,
                      hdone, fun h => congrArg _ (hall h), ?_⟩
                    intro fault htakes hfault
                    obtain ⟨attempt, file, rest, hattempt, hfiles, hblocked⟩ :=
                      hstop fault htakes hfault
                    exact ⟨attempt, file, rest, hattempt, congrArg _ hfiles, hblocked⟩

/-! ## What is planned -/

/-- The files that an assembly is to write, with their contents. -/
def Options.planned (options : Options) (output : Output) (map : SourceMap) :
    List (String × Bytes) :=
  let image := (Path.ofText options.output).text
  [(image, output.code)] ++
    (if options.writeMap then [(image ++ ".map", (map.json none).toUTF8.toList)] else []) ++
    (options.symbols.map fun path =>
      ((Path.ofText path).text, output.symbols.toUTF8.toList)).toList

namespace Write

variable {image : Path} {units : Units} {output : Output} {map : SourceMap}

theorem sourceMap_ok {w : Write} (hmap : output.sourceMap units = .ok map)
    (h : sourceMap image units output = .ok w) :
    (w.path, w.data) = (image.text ++ ".map", (map.json none).toUTF8.toList) := by
  obtain ⟨path, hpath, h⟩ := bind_ok_inv h
  obtain ⟨found, hfound, h⟩ := bind_ok_inv h
  obtain ⟨text, htext, h⟩ := bind_ok_inv h
  obtain rfl : map = found := Except.ok.inj (hmap.symm.trans hfound)
  obtain ⟨_, -, hjson⟩ := bind_ok_inv htext
  cases hjson
  cases h
  rw [show path.text = image.text ++ ".map" from Path.text_of_withSuffix hpath]

/-- Beside an image with a name, only a number that cannot be written keeps a source map from
being written. -/
theorem sourceMap_error {fault : Fault} (hmap : output.sourceMap units = .ok map)
    (hnames : image.names ≠ []) (h : sourceMap image units output = .error fault) :
    map.text none = .error fault := by
  obtain ⟨path, hpath⟩ : ∃ path, mapPath image = .ok path := by
    unfold mapPath Path.withSuffix
    cases hname : image.names.getLast? with
    | none => exact absurd (List.getLast?_eq_none_iff.1 hname) hnames
    | some name => exact ⟨_, rfl⟩
  unfold sourceMap at h
  cases htext : map.text none with
  | error found =>
      simp only [bind, Except.bind, hpath, hmap, htext] at h
      exact congrArg _ (Except.error.inj h)
  | ok text =>
      simp only [bind, Except.bind, hpath, hmap, htext] at h
      cases h

/-- What is attempted is what was planned. -/
theorem all_attempts (options : Options) (hmap : output.sourceMap units = .ok map) :
    List.Forall₂ Attempts (all options units output) (options.planned output map) := by
  have hok {w : Write} {file : String × Bytes} (h : (w.path, w.data) = file) :
      Attempts (.ok w) file := by
    rintro _ ⟨⟩
    exact h
  unfold all Options.planned
  refine List.rel_append (List.rel_append (.cons (hok rfl) .nil) ?_) ?_
  · split
    · exact .cons (fun w hw => sourceMap_ok hmap hw) .nil
    · exact .nil
  · cases options.symbols with
    | none => exact .nil
    | some path => exact .cons (hok rfl) .nil

/-- Only the source map may fail before it is written, and it comes second. -/
theorem error_of_all {options : Options} {i : Nat} {fault : Fault}
    (h : (all options units output)[i]? = some (.error fault)) :
    i = 1 ∧ options.writeMap = true ∧
      sourceMap (.ofText options.output) units output = .error fault := by
  have hsymbols {j : Nat} :
      ((options.symbols.map fun path => (Except.ok (symbols (.ofText path) output) :
        Except Fault Write)).toList)[j]? ≠ some (.error fault) := by
    intro hfound
    have hmem := List.mem_of_getElem? hfound
    rw [Option.mem_toList, Option.map_eq_some_iff] at hmem
    obtain ⟨_, -, hok⟩ := hmem
    cases hok
  unfold all at h
  cases hwrites : options.writeMap with
  | false =>
      rw [hwrites] at h
      cases i with
      | zero => cases h
      | succ i => exact absurd h hsymbols
  | true =>
      rw [hwrites] at h
      rcases i with _ | _ | i
      · cases h
      · exact ⟨rfl, rfl, Option.some.inj h⟩
      · exact absurd h hsymbols

end Write

/-! ## Complaints -/

theorem status_ofFault (fault : Fault) :
    (Complaint.ofFault fault).kind.status ≠ 0 ∧ (Complaint.ofFault fault).kind.status ≠ 1 := by
  unfold Complaint.ofFault
  split <;> exact ⟨nofun, nofun⟩

namespace Stop

@[simp]
theorem complaint_ofFailure (units : Units) (failure : Failure) :
    (ofFailure units failure).complaint = .ofFailure failure := by
  unfold ofFailure
  split <;> rfl

theorem status_ofFailure (failure : Failure) :
    (Complaint.ofFailure failure).kind.status ≠ 0 ∧
      ((Complaint.ofFailure failure).kind.status = 1 ↔
        ∃ message problem tag, failure = .problem message problem tag) := by
  cases failure with
  | problem message problem tag => exact ⟨nofun, iff_of_true rfl ⟨message, problem, tag, rfl⟩⟩
  | fault fault => exact ⟨(status_ofFault fault).1, iff_of_false (status_ofFault fault).2 nofun⟩

/-- The line of the source that a failure is about can be found. -/
def Found (stop : Stop) : Prop :=
  ∃ line, stop.sourceLine = .ok line

theorem found_ofFailure {units : Units} {failure : Failure} (h : failure.Shown units) :
    (ofFailure units failure).Found := by
  unfold ofFailure
  split
  · next message problem tag =>
      rcases h.2 with ⟨-, hnone, -⟩ | ⟨_, _, _, -, -, -, -, hline⟩
      · cases hnone
      · unfold Found
        rw [hline]
        exact ⟨_, rfl⟩
  · exact ⟨none, rfl⟩

variable {stop : Stop} {stream : Stream} {verbose : Bool}

/-- A run that complains exits with the status of the complaint, if it exits. -/
theorem complain_eq_exit {status : Nat} (h : (stop.complain stream verbose).2 = .exit status) :
    status = stop.complaint.kind.status := by
  unfold complain at h
  split at h
  · cases h
  · split at h
    · cases h
    · cases h
      rfl

/-- A complaint that can be shown ends the run with its status. -/
theorem complain_of_clear (hfound : stop.Found) (hclear : stream.Clear) :
    (stop.complain stream verbose).2 = .exit stop.complaint.kind.status := by
  obtain ⟨line, hline⟩ := hfound
  have hsource : ∃ found, (if verbose then stop.sourceLine else .ok none) = .ok found := by
    cases verbose with
    | false => exact ⟨none, rfl⟩
    | true => exact ⟨line, hline⟩
  obtain ⟨found, hfound⟩ := hsource
  have hshown := hclear.showAll [] (stop.complaint.lines verbose (some "Assembly") found)
  unfold complain
  rw [hfound]
  simp only
  split
  · next hlines =>
      rw [hlines] at hshown
      cases hshown
  · rfl

end Stop

/-! ## Runs -/

section Runs

variable {stream : Option Stream} {options : Options} {tree : FileTree}

/-- Where the first planned file is written, the image has a name. -/
theorem names_ne_nil_of_wrote {before after : FileTree} {output : Output} {map : SourceMap}
    {done : List (String × Bytes)} (hstarts : done <+: options.planned output map)
    (hone : done.length = 1) (h : before.Wrote after done) :
    (Path.ofText options.output).names ≠ [] := by
  have hfirst : done = [((Path.ofText options.output).text, output.code)] := by
    rw [List.prefix_iff_eq_take.1 hstarts, hone]
    rfl
  exact FileTree.names_ne_nil_of_read (h.read [] _ _ [] hfirst (List.forall_mem_nil _))

/-- All results are delivered up to the first that cannot be written. -/
theorem deliver_prefix (stream : Option Stream) (options : Options) (progress : Progress)
    {units : Units} {output : Output} {map : SourceMap} (hmap : output.sourceMap units = .ok map) :
    ∃ done, done <+: options.planned output map ∧
      progress.tree.Wrote (deliver stream options progress units output).1.tree done ∧
      ((deliver stream options progress units output).2 = .ok () →
        done = options.planned output map) ∧
      (TakesAll stream → done = options.planned output map →
        (deliver stream options progress units output).2 = .ok ()) ∧
      (TakesAll stream → ∀ file rest, options.planned output map = done ++ file :: rest →
        ∃ fault, (deliver stream options progress units output).2 = .error fault ∧
          ((deliver stream options progress units output).1.tree.write file.1 file.2 =
              .error fault ∨ map.text none = .error fault)) := by
  obtain ⟨done, hstarts, hdone, hall, hstop⟩ :=
    Progress.writeAll_prefix (Write.all_attempts options hmap) stream (.nil progress.tree)
  rw [List.nil_append] at hdone
  refine ⟨done, hstarts, ?_⟩
  unfold deliver
  cases hwrites : progress.writeAll stream (Write.all options units output) with
  | mk written answer =>
      rw [hwrites] at hdone hall hstop
      cases answer with
      | error fault =>
          refine ⟨hdone, nofun, ?_, ?_⟩
          · intro htakes hsame
            obtain ⟨-, file, rest, -, hfiles, -⟩ := hstop fault htakes rfl
            rw [← hsame] at hfiles
            simp at hfiles
          · intro htakes file rest hrest
            obtain ⟨attempt, found, others, hattempt, hfiles, hblocked⟩ := hstop fault htakes rfl
            obtain rfl : found = file := by
              rw [hrest] at hfiles
              exact (List.cons.inj (List.append_cancel_left hfiles)).1.symm
            refine ⟨fault, rfl, ?_⟩
            rcases hblocked with rfl | hwrite
            · obtain ⟨hone, -, hmissing⟩ := Write.error_of_all hattempt
              exact Or.inr (Write.sourceMap_error hmap
                (names_ne_nil_of_wrote hstarts hone hdone) hmissing)
            · exact Or.inl hwrite
      | ok _ =>
          obtain rfl := hall rfl
          dsimp only
          rw [Progress.say_tree]
          refine ⟨hdone, fun _ => rfl, fun htakes _ => Progress.say_ok _ htakes _, ?_⟩
          intro _ file rest hrest
          simp at hrest

/-- A run cannot begin, or its session fails, or it delivers; only in the last case it writes. -/
theorem build_cases (stream : Option Stream) (options : Options) (tree : FileTree) :
    (∃ fault, ¬ TakesAll stream ∧ (build stream options tree).1.tree = tree ∧
      (build stream options tree).2 = .error (.ofFault fault)) ∨
    (∃ failure, Session.assembleFile tree options.searchPaths options.input = .error failure ∧
      (build stream options tree).1.tree = tree ∧
      (build stream options tree).2 = .error (.ofFailure
        ((Session.start options.searchPaths).addFile tree options.input).session.units failure)) ∨
    ∃ units output progress,
      Session.assembleFile tree options.searchPaths options.input = .ok (units, output) ∧
      progress.tree = tree ∧
      (build stream options tree).1.tree =
        (deliver stream options progress units output).1.tree ∧
      (build stream options tree).2 =
        (deliver stream options progress units output).2.mapError Stop.ofFault := by
  unfold build Session.assembleFile Session.Step.assemble
  cases hsay : (Progress.start tree).say stream [heading options] with
  | mk begun answer =>
      have hbegun : begun.tree = tree := by
        have htree := Progress.say_tree stream (Progress.start tree) [heading options]
        rw [hsay] at htree
        exact htree
      cases answer with
      | error fault =>
          refine Or.inl ⟨fault, ?_, hbegun, rfl⟩
          intro htakes
          have hok := Progress.say_ok (Progress.start tree) htakes [heading options]
          rw [hsay] at hok
          cases hok
      | ok _ =>
          refine Or.inr ?_
          dsimp only
          cases (Session.start options.searchPaths).addFile tree options.input with
          | mk session events answer =>
              cases answer with
              | error failure => exact Or.inl ⟨failure, rfl, hbegun, rfl⟩
              | ok _ =>
                  dsimp only
                  cases session.assemble with
                  | mk more result =>
                      cases result with
                      | error failure => exact Or.inl ⟨failure, rfl, hbegun, rfl⟩
                      | ok output =>
                          refine Or.inr ⟨session.units, output,
                            { begun with events := more ++ (events ++ begun.events) }, rfl, hbegun,
                            ?_⟩
                          dsimp only
                          cases deliver stream options _ session.units output with
                          | mk delivered answer => cases answer <;> exact ⟨rfl, rfl⟩

/-! ## Being verbose -/

/-- Two steps leave the same files and end alike. -/
def Alike {α : Type} (first second : Progress × α) : Prop :=
  first.1.tree = second.1.tree ∧ first.2 = second.2

theorem alike_say (h : TakesAll stream) {progress quiet : Progress}
    (htree : progress.tree = quiet.tree) (lines : List String) :
    Alike (progress.say stream lines) (quiet.say none lines) := by
  refine ⟨?_, Progress.say_ok progress h lines⟩
  rw [Progress.say_tree, Progress.say_tree, htree]

theorem alike_write (h : TakesAll stream) {progress quiet : Progress}
    (htree : progress.tree = quiet.tree) (w : Write) :
    Alike (progress.write stream w) (quiet.write none w) := by
  unfold Progress.write
  rw [htree]
  cases quiet.tree.write w.path w.data with
  | error fault => exact ⟨htree, rfl⟩
  | ok tree => exact alike_say h rfl _

theorem alike_writeAll (h : TakesAll stream) {progress quiet : Progress}
    (htree : progress.tree = quiet.tree) (attempts : List (Except Fault Write)) :
    Alike (progress.writeAll stream attempts) (quiet.writeAll none attempts) := by
  induction attempts generalizing progress quiet with
  | nil => exact ⟨htree, rfl⟩
  | cons attempt attempts ih =>
      cases attempt with
      | error fault => exact ⟨htree, rfl⟩
      | ok w =>
          obtain ⟨hnext, hanswer⟩ := alike_write h htree w
          unfold Progress.writeAll
          cases hloud : progress.write stream w with
          | mk next answer =>
              cases hquiet : quiet.write none w with
              | mk other found =>
                  rw [hloud, hquiet] at hnext hanswer
                  obtain rfl : answer = found := hanswer
                  cases answer with
                  | error fault => exact ⟨hnext, rfl⟩
                  | ok _ => exact ih hnext

theorem alike_deliver (h : TakesAll stream) {progress quiet : Progress}
    (htree : progress.tree = quiet.tree) (options : Options) (units : Units) (output : Output) :
    Alike (deliver stream options progress units output)
      (deliver none options quiet units output) := by
  obtain ⟨hnext, hanswer⟩ := alike_writeAll h htree (Write.all options units output)
  unfold deliver
  cases hloud : progress.writeAll stream (Write.all options units output) with
  | mk next answer =>
      cases hquiet : quiet.writeAll none (Write.all options units output) with
      | mk other found =>
          rw [hloud, hquiet] at hnext hanswer
          obtain rfl : answer = found := hanswer
          cases answer with
          | error fault => exact ⟨hnext, rfl⟩
          | ok _ => exact alike_say h hnext _

/-- Where every line can be shown, a run does the same as one that shows nothing. -/
theorem alike_build (h : TakesAll stream) (options : Options) (tree : FileTree) :
    Alike (build stream options tree) (build none options tree) := by
  rcases build_cases stream options tree with ⟨_, hnot, -⟩ | hloud
  · exact absurd h hnot
  rcases build_cases none options tree with ⟨_, hnot, -⟩ | hquiet
  · exact absurd takesAll_none hnot
  rcases hloud with ⟨failure, hfailure, htree, hend⟩ | ⟨units, output, progress, hdone, htree, hend⟩
  · rcases hquiet with ⟨other, hother, htree', hend'⟩ | ⟨_, _, _, hother, -⟩
    · obtain rfl := Except.error.inj (hfailure.symm.trans hother)
      exact ⟨htree.trans htree'.symm, hend.trans hend'.symm⟩
    · cases hfailure.symm.trans hother
  · rcases hquiet with ⟨_, hother, -⟩ | ⟨_, _, quiet, hother, htree', hend'⟩
    · cases hdone.symm.trans hother
    · cases hdone.symm.trans hother
      obtain ⟨hsame, hanswer⟩ := alike_deliver h (htree.trans htree'.symm) options units output
      exact ⟨by rw [hend.1, hend'.1, hsame], by rw [hend.2, hend'.2, hanswer]⟩

/-! ## Endings -/

/-- The stream on which a run shows its progress. -/
def Screen.progressStream (screen : Screen) (options : Options) : Option Stream :=
  if options.verbose then some screen.out else none

theorem Screen.Takes.takesAll {screen : Screen} (h : screen.Takes options) :
    TakesAll (screen.progressStream options) := by
  intro s hs
  unfold Screen.progressStream at hs
  split at hs
  · next hverbose =>
      obtain rfl := Option.some.inj hs
      exact h.progress hverbose
  · cases hs

/-- How a run ends after it has built, or failed to. -/
def endingOf (screen : Screen) (options : Options) : Except Stop Unit → Ending
  | .ok _ => .exit 0
  | .error stop => (stop.complain screen.err options.verbose).2

theorem assemble_eq (screen : Screen) (options : Options) (tree : FileTree) :
    (assemble screen options tree).tree =
        (build (screen.progressStream options) options tree).1.tree ∧
      (assemble screen options tree).ending =
        endingOf screen options (build (screen.progressStream options) options tree).2 := by
  unfold assemble Screen.progressStream
  dsimp only
  cases build (if options.verbose then some screen.out else none) options tree with
  | mk progress answer => cases answer <;> exact ⟨rfl, rfl⟩

/-- The line of the source that a failed run is about can always be found. -/
theorem found_of_build {stop : Stop} (h : (build stream options tree).2 = .error stop) :
    stop.Found := by
  rcases build_cases stream options tree with ⟨fault, -, -, hend⟩ |
    ⟨failure, hfailure, -, hend⟩ | ⟨units, output, progress, -, -, -, hend⟩
  · obtain rfl := Except.error.inj (hend.symm.trans h)
    exact ⟨none, rfl⟩
  · obtain rfl := Except.error.inj (hend.symm.trans h)
    exact Stop.found_ofFailure
      ((Session.Reachable.start options.searchPaths).assemble_addFile_shown hfailure)
  · rw [h] at hend
    cases hdeliver : (deliver stream options progress units output).2 with
    | ok _ =>
        rw [hdeliver] at hend
        cases hend
    | error fault =>
        rw [hdeliver] at hend
        obtain rfl := Except.error.inj hend
        exact ⟨none, rfl⟩

/-- Where complaints can be shown, a run exits: with status zero if it went well, and else with the
status of its complaint. -/
theorem endingOf_build {screen : Screen} (h : screen.err.Clear) :
    endingOf screen options (build stream options tree).2 =
      match (build stream options tree).2 with
      | .ok _ => .exit 0
      | .error stop => .exit stop.complaint.kind.status := by
  cases hbuild : (build stream options tree).2 with
  | ok _ => rfl
  | error stop => exact Stop.complain_of_clear (found_of_build hbuild) h

theorem endingOf_error_ne {screen : Screen} {stop : Stop} {status : Nat}
    (h : stop.complaint.kind.status ≠ status) :
    endingOf screen options (.error stop) ≠ .exit status := by
  intro hexit
  exact h (Stop.complain_eq_exit hexit).symm

theorem assemble_of_error {screen : Screen} {failure : Failure}
    (h : Session.assembleFile tree options.searchPaths options.input = .error failure) :
    (assemble screen options tree).tree = tree ∧
      (assemble screen options tree).ending ≠ .exit 0 ∧
      ((assemble screen options tree).ending = .exit 1 →
        ∃ message problem tag, failure = .problem message problem tag) ∧
      (screen.Takes options → ∃ status, (assemble screen options tree).ending = .exit status ∧
        (status = 1 ↔ ∃ message problem tag, failure = .problem message problem tag)) := by
  obtain ⟨htree, hending⟩ := assemble_eq screen options tree
  rw [htree, hending]
  rcases build_cases (screen.progressStream options) options tree with ⟨fault, hnot, hsame, hend⟩ |
    ⟨found, hfound, hsame, hend⟩ | ⟨_, _, _, hfound, -⟩
  · obtain ⟨hzero, hone⟩ := status_ofFault fault
    rw [hend]
    refine ⟨hsame, endingOf_error_ne hzero, ?_, fun htakes => absurd htakes.takesAll hnot⟩
    intro hexit
    exact absurd hexit (endingOf_error_ne hone)
  · obtain rfl := Except.error.inj (h.symm.trans hfound)
    obtain ⟨hzero, hone⟩ := Stop.status_ofFailure failure
    refine ⟨hsame, ?_, ?_, ?_⟩
    · rw [hend]
      exact endingOf_error_ne (by rwa [Stop.complaint_ofFailure])
    · intro hexit
      rw [hend] at hexit
      by_contra hproblem
      exact endingOf_error_ne (by rwa [Stop.complaint_ofFailure, ne_eq, hone]) hexit
    · intro htakes
      rw [endingOf_build htakes.complaints, hend]
      exact ⟨_, rfl, by rw [Stop.complaint_ofFailure]; exact hone⟩
  · cases h.symm.trans hfound

theorem assemble_of_ok {screen : Screen} {units : Units} {output : Output} {map : SourceMap}
    (hmap : output.sourceMap units = .ok map)
    (h : Session.assembleFile tree options.searchPaths options.input = .ok (units, output)) :
    ∃ done, done <+: options.planned output map ∧
      tree.Wrote (assemble screen options tree).tree done ∧
      (assemble screen options tree).ending ≠ .exit 1 ∧
      ((assemble screen options tree).ending = .exit 0 → done = options.planned output map) ∧
      (screen.Takes options → done = options.planned output map →
        (assemble screen options tree).ending = .exit 0) ∧
      (screen.Takes options → ∀ file rest, options.planned output map = done ++ file :: rest →
        ∃ fault, ((assemble screen options tree).tree.write file.1 file.2 = .error fault ∨
            map.text none = .error fault) ∧
          (assemble screen options tree).ending =
            .exit (Complaint.ofFault fault).kind.status) := by
  obtain ⟨htree, hending⟩ := assemble_eq screen options tree
  rw [htree, hending]
  rcases build_cases (screen.progressStream options) options tree with ⟨fault, hnot, hsame, hend⟩ |
    ⟨_, hfound, -⟩ | ⟨_, _, progress, hfound, rfl, hsame, hend⟩
  · -- nothing is written, since a line was not shown
    obtain ⟨hzero, hone⟩ := status_ofFault fault
    rw [hsame, hend]
    refine ⟨[], List.nil_prefix, .nil tree, endingOf_error_ne hone, ?_,
      fun htakes => absurd htakes.takesAll hnot, fun htakes => absurd htakes.takesAll hnot⟩
    intro hexit
    exact absurd hexit (endingOf_error_ne hzero)
  · cases h.symm.trans hfound
  · cases h.symm.trans hfound
    obtain ⟨done, hstarts, hdone, hall, hwhole, hstop⟩ :=
      deliver_prefix (screen.progressStream options) options progress hmap
    rw [← hsame] at hdone
    refine ⟨done, hstarts, hdone, ?_⟩
    cases hdeliver : (deliver (screen.progressStream options) options progress units output).2 with
    | ok _ =>
        rw [hdeliver] at hend hall hwhole hstop
        rw [hend]
        refine ⟨nofun, fun _ => hall rfl, fun _ _ => rfl, ?_⟩
        intro htakes file rest hrest
        obtain ⟨_, hfault, -⟩ := hstop htakes.takesAll file rest hrest
        cases hfault
    | error found =>
        rw [hdeliver] at hend hall hwhole hstop
        obtain ⟨hzero, hone⟩ := status_ofFault found
        refine ⟨?_, ?_, ?_, ?_⟩
        · rw [hend]
          exact endingOf_error_ne hone
        · intro hexit
          rw [hend] at hexit
          exact absurd hexit (endingOf_error_ne hzero)
        · intro htakes hsame
          cases hwhole htakes.takesAll hsame
        · intro htakes file rest hrest
          obtain ⟨fault, hfault, hblocked⟩ := hstop htakes.takesAll file rest hrest
          obtain rfl := Except.error.inj hfault
          refine ⟨found, ?_, ?_⟩
          · rw [hsame]
            exact hblocked
          · rw [endingOf_build htakes.complaints, hend]
            rfl

/-- A verbose run writes the same and ends alike, where every line can be shown. -/
theorem assemble_verbose {screen : Screen} (h : screen.Takes { options with verbose := true }) :
    (assemble screen { options with verbose := true } tree).tree =
        (assemble screen options tree).tree ∧
      (assemble screen { options with verbose := true } tree).ending =
        (assemble screen options tree).ending := by
  have hquiet : screen.Takes options := ⟨h.complaints, fun _ => h.progress rfl⟩
  have hwrites : Write.all { options with verbose := true } = Write.all options := rfl
  have hheading : heading { options with verbose := true } = heading options := rfl
  have hbuild : build none { options with verbose := true } tree = build none options tree := by
    unfold build deliver
    rw [hwrites, hheading]
  obtain ⟨htree, hending⟩ := assemble_eq screen options tree
  obtain ⟨htree', hending'⟩ := assemble_eq screen { options with verbose := true } tree
  obtain ⟨hsame, hend⟩ := alike_build hquiet.takesAll options tree
  obtain ⟨hsame', hend'⟩ := alike_build h.takesAll { options with verbose := true } tree
  rw [htree, htree', hending, hending', hsame, hsame', hbuild]
  refine ⟨rfl, ?_⟩
  rw [endingOf_build h.complaints, endingOf_build h.complaints, hend, hend', hbuild]

end Runs

/-- Arguments that ask for the same as others, and to be verbose. -/
def Reading.AsksLouder (reading : Reading) (tree : FileTree) (arguments louder : List String) :
    Prop :=
  reading tree louder =
    (reading tree arguments).map fun options => { options with verbose := true }

/-- A working directory with a program. -/
def workTree : FileTree :=
  ⟨[(["w", "main.s"], .file (" nop\n".toList.map fun c => c.toNat.toUInt8))], ["w"]⟩

/-- Arguments that name a symbol file in a directory that is missing. -/
def workArguments : List String :=
  ["-oa.rom", "main.s", "--symbols", "sub/a.sym"]

-- a line that is not shown stops a verbose run right behind the image
example :
    (run reading ⟨fun shown _ => if shown = [] then .ok () else .error (.stated .system "closed"),
        .clear⟩ workTree ("-v" :: workArguments)).map
      (fun outcome => (outcome.ending, (workTree.changes outcome.tree).map Prod.fst)) =
    some (.exit 3, ["a.rom"]) := by
  decide +kernel

end Command

end Asm65
