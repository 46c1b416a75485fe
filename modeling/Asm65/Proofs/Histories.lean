import Asm65.Proofs.Flattening
import Asm65.Proofs.Places

/-!
# Histories of sessions

A session answers call after call, and the files may be others at each call.  Whatever the calls
are, units are only added, the statements are those of the calls that succeed, and assembling leaves
no trace.

A call that fails may leave units behind, at whatever depth of inclusion it fails.  Units that are
read later then have other numbers.  The numbers show up in places only, and places do not matter to
what is assembled; so the session assembles to what it would without its failed calls.
-/

namespace Asm65

open Statement

/-! ## Calls -/

/-- What a session is asked for.  A call that reads comes with the files there are at that time. -/
inductive Call
  | addText (tree : FileTree) (name : String) (text : List Char)
  | addFile (tree : FileTree) (path : String)
  | assemble

/-- What a session answers. -/
inductive Reply
  | added (answer : Except Failure Unit)
  | assembled (answer : Except Failure Output)

/-- Why a call failed, if it did. -/
def Reply.failure? : Reply → Option Failure
  | .added (.error failure) => some failure
  | .assembled (.error failure) => some failure
  | _ => none

/-- What a call adds to a session with some units: the units after it, and the flat statements of
the text it reads. -/
inductive Call.Adds (searchPaths : List Path) (units : Units) :
    Call → Units → List Statement → Prop
  | addText {tree : FileTree} {name : String} {text : List Char} {home : Option Place}
      {next : Units} {flat : List Statement}
      (hhome : Library.unitPlace ⟨tree, searchPaths⟩ name = .ok home)
      (hreads : Library.Reads ⟨tree, searchPaths⟩ home.toList home name text units next
        (.ok flat)) :
      Adds searchPaths units (.addText tree name text) next flat
  | addFile {tree : FileTree} {path : String} {text : List Char} {next : Units}
      {flat : List Statement} (htext : tree.readText (Path.ofText path).text = .ok text)
      (hadds : Adds searchPaths units (.addText tree (Path.ofText path).text text) next flat) :
      Adds searchPaths units (.addFile tree path) next flat
  | assemble : Adds searchPaths units .assemble units []

namespace Session

variable {session other : Session} {call : Call} {calls : List Call}

/-- The session after a call, and the answer to it. -/
def perform (session : Session) : Call → Session × Reply
  | .addText tree name text =>
      let step := session.addText tree name text
      (step.session, .added step.answer)
  | .addFile tree path =>
      let step := session.addFile tree path
      (step.session, .added step.answer)
  | .assemble => (session, .assembled session.assemble.2)

/-- The session after some calls. -/
def after (session : Session) (calls : List Call) : Session :=
  calls.foldl (fun session call => (session.perform call).1) session

@[simp] theorem after_nil (session : Session) : session.after [] = session :=
  rfl

@[simp] theorem after_cons (session : Session) (call : Call) (calls : List Call) :
    session.after (call :: calls) = (session.perform call).1.after calls :=
  rfl

theorem after_append (session : Session) (calls more : List Call) :
    session.after (calls ++ more) = (session.after calls).after more :=
  List.foldl_append

/-- The calls, each with the session it is made in. -/
def history (session : Session) : List Call → List (Session × Call)
  | [] => []
  | call :: calls => (session, call) :: (session.perform call).1.history calls

/-- A call succeeds in a session. -/
def Succeeds (session : Session) (call : Call) : Prop :=
  (session.perform call).2.failure? = none

instance (session : Session) (call : Call) : Decidable (session.Succeeds call) :=
  inferInstanceAs (Decidable (_ = none))

/-- The calls that succeed, each with the session it is made in. -/
def successes (session : Session) (calls : List Call) : List (Session × Call) :=
  (session.history calls).filter fun made => made.1.Succeeds made.2

theorem successes_cons_of_succeeds (h : session.Succeeds call) (calls : List Call) :
    session.successes (call :: calls) =
      (session, call) :: (session.perform call).1.successes calls :=
  List.filter_cons_of_pos (by simpa using h)

theorem successes_cons_of_fails (h : ¬ session.Succeeds call) (calls : List Call) :
    session.successes (call :: calls) = (session.perform call).1.successes calls :=
  List.filter_cons_of_neg (by simpa using h)

/-! ## What a call can do -/

/-- What a session answers when reading a text has come to an outcome. -/
def answerTo (next : Units) (outcome : Except Error (List Statement)) : Except Failure Unit :=
  (outcome.map fun _ => ()).mapError (Failure.ofError next)

section Reading

variable {tree : FileTree} {name : String} {text : List Char} {home : Option Place} {next : Units}

/-- What reading a text comes to is what the session adds and answers. -/
theorem addText_of_reads {outcome : Except Error (List Statement)}
    (hhome : Library.unitPlace ⟨tree, session.searchPaths⟩ name = .ok home)
    (h : Library.Reads ⟨tree, session.searchPaths⟩ home.toList home name text session.units next
      outcome) :
    (session.addText tree name text).session =
        ⟨session.searchPaths, next, session.statements ++ outcome.toOption.getD []⟩ ∧
      (session.addText tree name text).answer = answerTo next outcome := by
  obtain ⟨hunits, houtcome⟩ := (Library.read_eq_iff hhome ⟨session.units, []⟩ outcome).1 h
  cases hread : Library.read ⟨tree, session.searchPaths⟩ name text ⟨session.units, []⟩ with
  | mk reading found =>
      rw [hread] at hunits houtcome
      obtain rfl : found = outcome := houtcome
      obtain rfl : reading.units = next := hunits
      cases found with
      | ok flat => simp only [addText, hread, answerTo, Except.map, Except.mapError,
          Except.toOption, Option.getD_some, and_self]
      | error e => simp only [addText, hread, answerTo, Except.map, Except.mapError,
          Except.toOption, Option.getD_none, List.append_nil, and_self]

theorem exists_reads (hhome : Library.unitPlace ⟨tree, session.searchPaths⟩ name = .ok home) :
    ∃ next outcome, Library.Reads ⟨tree, session.searchPaths⟩ home.toList home name text
      session.units next outcome :=
  ⟨_, _, (Library.read_eq_iff hhome ⟨session.units, []⟩ _).2 ⟨rfl, rfl⟩⟩

/-- If the file behind the name cannot be looked for, the session stays as it is. -/
theorem addText_of_unitPlace_error {fault : Fault}
    (h : Library.unitPlace ⟨tree, session.searchPaths⟩ name = .error fault) :
    (session.addText tree name text).session = session ∧
      (session.addText tree name text).answer = .error (.fault fault) := by
  simp only [addText, Library.read, h]
  exact ⟨trivial, rfl⟩

/-- A text that can be flattened is added. -/
theorem addText_of_adds {flat : List Statement}
    (h : Call.Adds session.searchPaths session.units (.addText tree name text) next flat) :
    (session.addText tree name text).session =
        ⟨session.searchPaths, next, session.statements ++ flat⟩ ∧
      (session.addText tree name text).answer = .ok () := by
  obtain ⟨hhome, hreads⟩ := h
  exact addText_of_reads hhome hreads

end Reading

/-- Reading a text adds its flat statements, or it fails and adds none. -/
theorem addText_cases (session : Session) (tree : FileTree) (name : String) (text : List Char) :
    (∃ next flat, Call.Adds session.searchPaths session.units (.addText tree name text) next flat ∧
      (session.addText tree name text).session =
        ⟨session.searchPaths, next, session.statements ++ flat⟩ ∧
      (session.addText tree name text).answer = .ok ()) ∨
    ∃ next failure, (session.addText tree name text).session =
        ⟨session.searchPaths, next, session.statements⟩ ∧
      (session.addText tree name text).answer = .error failure := by
  cases hhome : Library.unitPlace ⟨tree, session.searchPaths⟩ name with
  | error fault => exact Or.inr ⟨session.units, _, addText_of_unitPlace_error hhome⟩
  | ok home =>
      obtain ⟨next, outcome, hreads⟩ := @exists_reads session tree name text home hhome
      cases outcome with
      | ok flat =>
          have hadds := Call.Adds.addText hhome hreads
          exact Or.inl ⟨next, flat, hadds, addText_of_adds hadds⟩
      | error e =>
          obtain ⟨hsession, hanswer⟩ := addText_of_reads hhome hreads
          rw [show (Except.error e : Except Error (List Statement)).toOption.getD [] = [] from rfl,
            List.append_nil] at hsession
          exact Or.inr ⟨next, _, hsession, hanswer⟩

theorem perform_addText (session : Session) (tree : FileTree) (name : String) (text : List Char) :
    session.perform (.addText tree name text) =
      ((session.addText tree name text).session,
        .added (session.addText tree name text).answer) :=
  rfl

theorem perform_addFile (session : Session) (tree : FileTree) (path : String) :
    session.perform (.addFile tree path) =
      ((session.addFile tree path).session, .added (session.addFile tree path).answer) :=
  rfl

theorem perform_addFile_of_ok {tree : FileTree} {path : String} {text : List Char}
    (h : tree.readText (Path.ofText path).text = .ok text) :
    session.perform (.addFile tree path) =
      session.perform (.addText tree (Path.ofText path).text text) := by
  have hstep : session.addFile tree path =
      session.addText tree (Path.ofText path).text text := by
    unfold addFile
    simp only
    rw [h]
  rw [perform_addFile, perform_addText, hstep]

theorem perform_addFile_of_error {tree : FileTree} {path : String} {fault : Fault}
    (h : tree.readText (Path.ofText path).text = .error fault) :
    session.perform (.addFile tree path) = (session, .added (.error (.fault fault))) := by
  have hstep : session.addFile tree path = ⟨session, [], .error (.fault fault)⟩ := by
    unfold addFile
    simp only
    rw [h]
  rw [perform_addFile, hstep]

/-- A call that succeeds adds statements; one that fails adds none. -/
theorem perform_cases (session : Session) (call : Call) :
    (∃ next flat, call.Adds session.searchPaths session.units next flat ∧
      (session.perform call).1 = ⟨session.searchPaths, next, session.statements ++ flat⟩ ∧
      session.Succeeds call) ∨
    ∃ next, (session.perform call).1 = ⟨session.searchPaths, next, session.statements⟩ ∧
      ¬ session.Succeeds call := by
  have haddText (tree : FileTree) (name : String) (text : List Char) :
      (∃ next flat,
        Call.Adds session.searchPaths session.units (.addText tree name text) next flat ∧
        (session.perform (.addText tree name text)).1 =
          ⟨session.searchPaths, next, session.statements ++ flat⟩ ∧
        session.Succeeds (.addText tree name text)) ∨
      ∃ next, (session.perform (.addText tree name text)).1 =
          ⟨session.searchPaths, next, session.statements⟩ ∧
        ¬ session.Succeeds (.addText tree name text) := by
    unfold Succeeds
    rw [perform_addText]
    rcases session.addText_cases tree name text with
      ⟨next, flat, hadds, hsession, hanswer⟩ | ⟨next, failure, hsession, hanswer⟩
    · exact Or.inl ⟨next, flat, hadds, hsession, by rw [hanswer]; rfl⟩
    · exact Or.inr ⟨next, hsession, by rw [hanswer]; nofun⟩
  cases call with
  | addText tree name text => exact haddText tree name text
  | addFile tree path =>
      unfold Succeeds
      cases htext : tree.readText (Path.ofText path).text with
      | error fault =>
          rw [perform_addFile_of_error htext]
          exact Or.inr ⟨session.units, rfl, nofun⟩
      | ok text =>
          rw [perform_addFile_of_ok htext]
          rcases haddText tree (Path.ofText path).text text with
            ⟨next, flat, hadds, hsession, hok⟩ | ⟨next, hsession, hfails⟩
          · exact Or.inl ⟨next, flat, .addFile htext hadds, hsession, hok⟩
          · exact Or.inr ⟨next, hsession, hfails⟩
  | assemble =>
      unfold Succeeds perform
      cases session.assemble.2 with
      | ok output =>
          exact Or.inl ⟨session.units, [], .assemble, by rw [List.append_nil], rfl⟩
      | error failure => exact Or.inr ⟨session.units, rfl, nofun⟩

theorem units_perform (session : Session) (call : Call) :
    session.units <+: (session.perform call).1.units := by
  have haddText (tree : FileTree) (name : String) (text : List Char) :
      session.units <+: (session.perform (.addText tree name text)).1.units := by
    have hgathers := Library.read_gathers ⟨tree, session.searchPaths⟩ name text ⟨session.units, []⟩
    rw [perform_addText]
    unfold addText
    simp only
    split <;> next hread =>
      rw [hread] at hgathers
      exact hgathers.units
  cases call with
  | addText tree name text => exact haddText tree name text
  | addFile tree path =>
      cases htext : tree.readText (Path.ofText path).text with
      | error fault =>
          rw [perform_addFile_of_error htext]
      | ok text =>
          rw [perform_addFile_of_ok htext]
          exact haddText tree _ text
  | assemble => exact List.prefix_refl _

theorem statements_of_not_succeeds (h : ¬ session.Succeeds call) :
    (session.perform call).1.statements = session.statements := by
  rcases session.perform_cases call with ⟨next, flat, -, -, hok⟩ | ⟨next, hsession, -⟩
  · exact absurd hok h
  · rw [hsession]

/-! ## What calls add up to -/

theorem units_after (session : Session) (calls : List Call) :
    session.units <+: (session.after calls).units := by
  induction calls generalizing session with
  | nil => exact List.prefix_refl _
  | cons call calls ih => exact (session.units_perform call).trans (ih _)

theorem searchPaths_perform (session : Session) (call : Call) :
    (session.perform call).1.searchPaths = session.searchPaths := by
  rcases session.perform_cases call with ⟨next, flat, -, hsession, -⟩ | ⟨next, hsession, -⟩ <;>
    rw [hsession]

/-- The statements after some calls are those before, and then those that the successful calls have
added, one after the other. -/
theorem statements_after (session : Session) (calls : List Call) :
    ∃ parts, List.Forall₂
        (fun made part => ∃ next, made.2.Adds session.searchPaths made.1.units next part)
        (session.successes calls) parts ∧
      (session.after calls).statements = session.statements ++ parts.flatten := by
  induction calls generalizing session with
  | nil => exact ⟨[], .nil, by simp⟩
  | cons call calls ih =>
      obtain ⟨parts, hparts, hstatements⟩ := ih (session.perform call).1
      rw [searchPaths_perform] at hparts
      rw [after_cons, hstatements]
      rcases session.perform_cases call with
        ⟨next, flat, hadds, hsession, hok⟩ | ⟨next, hsession, hfails⟩
      · rw [successes_cons_of_succeeds hok]
        refine ⟨flat :: parts, .cons ⟨next, hadds⟩ hparts, ?_⟩
        rw [hsession, List.flatten_cons, List.append_assoc]
      · rw [successes_cons_of_fails hfails]
        exact ⟨parts, hparts, by rw [hsession]⟩

theorem after_of_assemble (session : Session) (h : ∀ call ∈ calls, call = .assemble) :
    session.after calls = session := by
  induction calls with
  | nil => rfl
  | cons call calls ih =>
      obtain ⟨rfl, hcalls⟩ := List.forall_mem_cons.1 h
      exact ih hcalls

theorem Reachable.perform (h : session.Reachable) (call : Call) :
    (session.perform call).1.Reachable := by
  cases call with
  | addText tree name text =>
      rw [perform_addText]
      exact h.addText tree name text
  | addFile tree path =>
      rw [perform_addFile]
      exact h.addFile tree path
  | assemble => exact h

theorem Reachable.after (h : session.Reachable) (calls : List Call) :
    (session.after calls).Reachable := by
  induction calls generalizing session with
  | nil => exact h
  | cons call calls ih => exact ih (h.perform call)

/-! ## Without the failed calls -/

/-- Sessions that differ in their units only, and so in the places in their statements. -/
structure Alike (session other : Session) : Prop where
  searchPaths : other.searchPaths = session.searchPaths
  statements : other.statements.map untagged = session.statements.map untagged

theorem Alike.result_eq (h : session.Alike other) (hsession : session.Covered)
    (hother : other.Covered) : other.result = session.result := by
  refine hother.result_congr hsession ?_
  rw [← core_map_untagged, h.statements, core_map_untagged]

/-- A session assembles if and only if its result is code. -/
theorem succeeds_assemble_iff : session.Succeeds .assemble ↔ session.result.isOk = true := by
  unfold Succeeds perform result
  cases session.assemble.2 with
  | ok output => exact ⟨fun _ => rfl, fun _ => rfl⟩
  | error failure => exact ⟨nofun, nofun⟩

/-- What a call adds to a session it adds to a session like it, apart from places. -/
theorem adds_alike {searchPaths : List Path} {units next : Units} {flat : List Statement}
    (h : call.Adds searchPaths units next flat) (others : Units) :
    ∃ next' flat', call.Adds searchPaths others next' flat' ∧
      flat'.map untagged = flat.map untagged := by
  induction h with
  | addText hhome hreads =>
      obtain ⟨next', flat', hreads', hsame⟩ := hreads.alike others
      exact ⟨next', flat', .addText hhome hreads', hsame⟩
  | addFile htext _ ih =>
      obtain ⟨next', flat', hadds', hsame⟩ := ih
      exact ⟨next', flat', .addFile htext hadds', hsame⟩
  | assemble => exact ⟨others, [], .assemble, rfl⟩

/-- A call that succeeds in a session succeeds in a session like it, and keeps the two alike. -/
theorem Alike.perform (h : session.Alike other) (hsession : session.Covered)
    (hother : other.Covered) (hok : session.Succeeds call) :
    other.Succeeds call ∧ (session.perform call).1.Alike (other.perform call).1 := by
  rcases session.perform_cases call with ⟨next, flat, hadds, hperform, -⟩ | ⟨next, -, hfails⟩
  swap
  · exact absurd hok hfails
  rw [hperform]
  obtain ⟨next', flat', hadds', hsame⟩ := adds_alike hadds other.units
  rw [← h.searchPaths] at hadds'
  have hstatements : (other.statements ++ flat').map untagged =
      (session.statements ++ flat).map untagged := by
    rw [List.map_append, List.map_append, h.statements, hsame]
  have haddText {tree : FileTree} {name : String} {text : List Char}
      (hadds' : Call.Adds other.searchPaths other.units (.addText tree name text) next' flat') :
      other.Succeeds (.addText tree name text) ∧
        Alike ⟨session.searchPaths, next, session.statements ++ flat⟩
          (other.perform (.addText tree name text)).1 := by
    obtain ⟨hadded, hanswer⟩ := addText_of_adds hadds'
    unfold Succeeds
    rw [perform_addText, hadded, hanswer]
    exact ⟨rfl, h.searchPaths, hstatements⟩
  cases hadds' with
  | addText hhome hreads => exact haddText (.addText hhome hreads)
  | addFile htext hadds' =>
      unfold Succeeds
      rw [perform_addFile_of_ok htext]
      exact haddText hadds'
  | assemble =>
      -- nothing is added, and sessions that are alike come to the same
      rw [succeeds_assemble_iff, ← h.result_eq hsession hother] at hok
      rw [List.append_nil] at hstatements
      exact ⟨succeeds_assemble_iff.2 hok, h.searchPaths, hstatements⟩

/-- The calls that succeed, made in a session like it, all succeed again and lead to a session like
the one that all calls lead to. -/
theorem Alike.after (h : session.Alike other) (hsession : session.Reachable)
    (hother : other.Reachable) (calls : List Call) :
    (∀ made ∈ other.history ((session.successes calls).map Prod.snd), made.1.Succeeds made.2) ∧
      (session.after calls).Alike (other.after ((session.successes calls).map Prod.snd)) := by
  induction calls generalizing session other with
  | nil => exact ⟨List.forall_mem_nil _, h⟩
  | cons call calls ih =>
      by_cases hok : session.Succeeds call
      · obtain ⟨hagain, halike⟩ := h.perform hsession.covered hother.covered hok
        obtain ⟨hall, hafter⟩ := ih halike (hsession.perform call) (hother.perform call)
        rw [successes_cons_of_succeeds hok]
        exact ⟨List.forall_mem_cons.2 ⟨hagain, hall⟩, hafter⟩
      · have halike : (session.perform call).1.Alike other := by
          refine ⟨?_, ?_⟩
          · rw [searchPaths_perform, h.searchPaths]
          · rw [statements_of_not_succeeds hok, h.statements]
        rw [successes_cons_of_fails hok]
        exact ih halike (hsession.perform call) hother

end Session

/-! ## Units -/

/-- A unit has the number of its place, and is listed under it. -/
theorem Units.numbered {units : Units} {i : Nat} {unit : SourceUnit}
    (h : units[i]? = some unit) :
    units.findNumbered i = .ok (i, unit) ∧ units.names[i]? = some (i, unit.name) := by
  have hnat : ¬ (i : Int) < 0 := by omega
  constructor
  · simp only [findNumbered, if_neg hnat, Int.toNat_natCast, h]
  · simp only [names, List.getElem?_map, List.getElem?_zipIdx, h, Option.map_some, Nat.zero_add]

/-- Whatever a session is asked for, and however the files change in between: units are only added
and keep their numbers; the statements are the flat statements of the calls that succeed, one after
the other; a call that fails leaves them as they are; assembling changes nothing, so assembling
again gives the same; and the session comes to the same as one without the failed calls, in which
all calls succeed. -/
theorem session_holds_successful_calls (searchPaths : List String) (calls : List Call) :
    let first := Session.start searchPaths
    (∀ before after, calls = before ++ after →
      (first.after before).units <+: (first.after calls).units) ∧
    (∀ (i : Nat) unit, (first.after calls).units[i]? = some unit →
      (first.after calls).units.findNumbered i = .ok (i, unit) ∧
        (first.after calls).units.names[i]? = some (i, unit.name)) ∧
    (∃ parts, List.Forall₂
        (fun made part => ∃ next, made.2.Adds first.searchPaths made.1.units next part)
        (first.successes calls) parts ∧
      (first.after calls).statements = parts.flatten) ∧
    (∀ made ∈ first.history calls, ¬ made.1.Succeeds made.2 →
      (made.1.perform made.2).1.statements = made.1.statements) ∧
    (∀ before between after, calls = before ++ .assemble :: (between ++ .assemble :: after) →
      (∀ call ∈ between, call = .assemble) →
      first.after (before ++ .assemble :: between) = first.after before ∧
        ((first.after (before ++ .assemble :: between)).perform .assemble).2 =
          ((first.after before).perform .assemble).2) ∧
    (∀ made ∈ first.history ((first.successes calls).map Prod.snd),
      made.1.Succeeds made.2) ∧
    (first.after ((first.successes calls).map Prod.snd)).result = (first.after calls).result := by
  intro first
  have hreach : first.Reachable := .start searchPaths
  obtain ⟨parts, hparts, hstatements⟩ := first.statements_after calls
  obtain ⟨hall, halike⟩ := Session.Alike.after ⟨rfl, rfl⟩ hreach hreach calls
  refine ⟨?_, fun i unit => Units.numbered, ⟨parts, hparts, hstatements⟩, ?_, ?_, hall, ?_⟩
  · rintro before after rfl
    rw [Session.after_append]
    exact Session.units_after _ after
  · exact fun made _ hfails => Session.statements_of_not_succeeds hfails
  · rintro before between after - hbetween
    have hsame : first.after (before ++ .assemble :: between) = first.after before := by
      rw [Session.after_append]
      exact Session.after_of_assemble _ (List.forall_mem_cons.2 ⟨rfl, hbetween⟩)
    exact ⟨hsame, by rw [hsame]⟩
  · exact halike.result_eq (hreach.after _).covered (hreach.after _).covered

end Asm65
