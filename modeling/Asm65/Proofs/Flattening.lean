import Mathlib.Data.Finset.Card
import Mathlib.Data.List.Chain
import Asm65.Proofs.IncludeLines
import Asm65.Session

/-!
# Flattening

Reading a unit flattens it: behind each include directive stand the statements of the file it leads
to, flattened in the same way.  This is a recursion without a bound of its own.  What bounds it is
that the files being read are pairwise distinct, so that they are never more than there are files.

* `Flattens` and `Breaks` are the recursion as relations: the statements it leads to, or the error
  that ends it.
* `read_eq_iff` says that the recursion ends, in exactly one way, with what `Library.read` gives.
* `distinct_of_chain` bounds how deep inclusions are nested.
-/

namespace Asm65

/-! ## Files -/

namespace FileTree

variable {tree : FileTree} {place : Place} {path : String}

/-- A file stands at a place. -/
def IsFile (tree : FileTree) (place : Place) : Prop :=
  ∃ data, tree.entry? place = some (.file data)

/-- The places of all files. -/
def files (tree : FileTree) : Finset Place :=
  (tree.entries.map Prod.fst).toFinset.filter fun place =>
    tree.entry? place ≠ none ∧ tree.entry? place ≠ some .directory

theorem mem_entries_of_file {data : Bytes} (h : tree.entry? place = some (.file data)) :
    (place, .file data) ∈ tree.entries := by
  unfold entry? at h
  split at h
  · cases h
  · obtain ⟨before, after, hentries, -⟩ := List.lookup_eq_some_iff.1 h
    rw [hentries]
    exact List.mem_append_right _ List.mem_cons_self

@[simp] theorem mem_files : place ∈ tree.files ↔ tree.IsFile place := by
  simp only [files, Finset.mem_filter, List.mem_toFinset, List.mem_map]
  constructor
  · rintro ⟨-, hsome, hfile⟩
    cases hentry : tree.entry? place with
    | none => exact absurd hentry hsome
    | some entry =>
        cases entry with
        | file data => exact ⟨data, hentry⟩
        | directory => exact absurd hentry hfile
  · rintro ⟨data, hentry⟩
    refine ⟨⟨_, mem_entries_of_file hentry, rfl⟩, ?_⟩
    rw [hentry]
    exact ⟨nofun, nofun⟩

/-- Every file is counted. -/
theorem card_files_le (tree : FileTree) : tree.files.card ≤ tree.fileCount := by
  let counted := (tree.entries.filter fun e => e.2 != .directory).map Prod.fst
  have hsubset : tree.files ⊆ counted.toFinset := by
    intro place hplace
    obtain ⟨data, hentry⟩ := mem_files.1 hplace
    refine List.mem_toFinset.2 (List.mem_map.2 ⟨(place, .file data), ?_, rfl⟩)
    exact List.mem_filter.2 ⟨mem_entries_of_file hentry, rfl⟩
  calc tree.files.card
      ≤ counted.toFinset.card := Finset.card_le_card hsubset
    _ ≤ counted.length := List.toFinset_card_le counted
    _ = tree.fileCount := by rw [List.length_map, ← List.countP_eq_length_filter, fileCount]

theorem isFile_of_locateFile (h : tree.locateFile path = .ok (some place)) :
    tree.IsFile place := by
  unfold locateFile at h
  split at h
  · split at h
    · next data hentry =>
        cases h
        exact ⟨data, hentry⟩
    · cases h
  · cases h
  · cases h

/-- The only fault of looking for a file is a path that is too long. -/
theorem eq_nameTooLong_of_locateFile {fault : Fault} (h : tree.locateFile path = .error fault) :
    fault = .nameTooLong path := by
  unfold locateFile at h
  split at h
  · split at h <;> cases h
  · cases h
    rfl
  · cases h

/-- Pairwise distinct places of files are no more than there are files. -/
theorem length_le_card_files {places : List Place} (hnodup : places.Nodup)
    (hfiles : ∀ place ∈ places, tree.IsFile place) : places.length ≤ tree.files.card := by
  rw [← List.toFinset_card_of_nodup hnodup]
  apply Finset.card_le_card
  intro place hplace
  exact mem_files.2 (hfiles place (List.mem_toFinset.1 hplace))

end FileTree

/-! ## The recursion -/

namespace Library

variable {library : Library} {active : List Place} {home : Option Place} {units next : Units}
  {statements flat : List Statement} {tag : Option Tag} {file name : String} {path : Path}
  {place : Place} {text : List Char} {e : Error}

-- under a name of its own, the fact does not become a part of `opened`
local instance : LawfulBEq Place :=
  inferInstance

/-- The file that an include directive leads to and its text, unless it is missing, unreadable or
still being read. -/
def opened (library : Library) (active : List Place) (home : Option Place) (tag : Option Tag)
    (file : String) : Except Error (Path × Place × List Char) :=
  match library.firstFile (library.candidates home file) with
  | .error fault => .error (.fault fault)
  | .ok none => .error (library.notFound tag file)
  | .ok (some (path, place)) =>
      if place ∈ active then .error (circular tag file)
      else
        match library.tree.readText path.text with
        | .error fault => .error (.fault fault)
        | .ok text => .ok (path, place, text)

theorem opened_eq_ok_iff :
    library.opened active home tag file = .ok (path, place, text) ↔
      library.firstFile (library.candidates home file) = .ok (some (path, place)) ∧
        place ∉ active ∧ library.tree.readText path.text = .ok text := by
  unfold opened
  constructor
  · intro h
    split at h
    · cases h
    · cases h
    · next found at' hfile =>
        split at h
        · cases h
        · next hnew =>
            split at h
            · cases h
            · next read hread =>
                cases h
                exact ⟨hfile, hnew, hread⟩
  · rintro ⟨hfile, hnew, hread⟩
    simp only [hfile, if_neg hnew, hread]

theorem firstFile_eq_some {paths : List Path}
    (h : library.firstFile paths = .ok (some (path, place))) :
    path ∈ paths ∧ library.tree.locateFile path.text = .ok (some place) := by
  induction paths with
  | nil => cases h
  | cons first rest ih =>
      unfold firstFile at h
      split at h
      · cases h
      · next hfirst =>
          cases h
          exact ⟨List.mem_cons_self, hfirst⟩
      · obtain ⟨hmem, hplace⟩ := ih h
        exact ⟨List.mem_cons_of_mem _ hmem, hplace⟩

theorem isFile_of_firstFile {paths : List Path}
    (h : library.firstFile paths = .ok (some (path, place))) : library.tree.IsFile place :=
  FileTree.isFile_of_locateFile (firstFile_eq_some h).2

/-- An include directive leads into a file whose text is read as statements. -/
structure Enters (library : Library) (active : List Place) (home : Option Place) (units : Units)
    (tag : Option Tag) (file : String) (path : Path) (place : Place) (text : List Char)
    (statements : List Statement) : Prop where
  opened : library.opened active home tag file = .ok (path, place, text)
  parse : Statement.parse units.length text = .ok statements

/-- An include directive leads into no file, or into one whose text is not read. -/
inductive Refuses (library : Library) (active : List Place) (home : Option Place) (units : Units)
    (tag : Option Tag) (file : String) : Units → Error → Prop
  | unopened {e : Error} (hopened : library.opened active home tag file = .error e) :
      Refuses library active home units tag file units e
  | malformed {path : Path} {place : Place} {text : List Char} {e : Error}
      (hopened : library.opened active home tag file = .ok (path, place, text))
      (hparse : Statement.parse units.length text = .error e) :
      Refuses library active home units tag file (units ++ [⟨path.text, text⟩]) e

/-- The statements of a unit and, behind each include directive, those of the file it leads to.
The lists of units are those registered before and after; a file is registered under the next free
number when its directive is met. -/
inductive Flattens (library : Library) :
    List Place → Option Place → Units → List Statement → Units → List Statement → Prop
  | nil {active : List Place} {home : Option Place} {units : Units} :
      Flattens library active home units [] units []
  | plain {active : List Place} {home : Option Place} {units next : Units} {s : Statement}
      {rest flat : List Statement} (hs : s.isInclude = false)
      (hrest : Flattens library active home units rest next flat) :
      Flattens library active home units (s :: rest) next (s :: flat)
  | included {active : List Place} {home : Option Place} {units middle next : Units}
      {tag : Option Tag} {file : String} {path : Path} {place : Place} {text : List Char}
      {statements inner rest flat : List Statement}
      (henters : library.Enters active home units tag file path place text statements)
      (hinner : Flattens library (active ++ [place]) (homeOf path place)
        (units ++ [⟨path.text, text⟩]) statements middle inner)
      (hrest : Flattens library active home middle rest next flat) :
      Flattens library active home units (.includeFile tag file :: rest) next
        (.includeFile tag file :: (inner ++ flat))

/-- The error that ends the flattening of statements, with the units registered until then. -/
inductive Breaks (library : Library) :
    List Place → Option Place → Units → List Statement → Units → Error → Prop
  | plain {active : List Place} {home : Option Place} {units next : Units} {s : Statement}
      {rest : List Statement} {e : Error} (hs : s.isInclude = false)
      (hrest : Breaks library active home units rest next e) :
      Breaks library active home units (s :: rest) next e
  | refused {active : List Place} {home : Option Place} {units next : Units} {tag : Option Tag}
      {file : String} {rest : List Statement} {e : Error}
      (hrefuses : library.Refuses active home units tag file next e) :
      Breaks library active home units (.includeFile tag file :: rest) next e
  | within {active : List Place} {home : Option Place} {units next : Units} {tag : Option Tag}
      {file : String} {path : Path} {place : Place} {text : List Char}
      {statements rest : List Statement} {e : Error}
      (henters : library.Enters active home units tag file path place text statements)
      (hinner : Breaks library (active ++ [place]) (homeOf path place)
        (units ++ [⟨path.text, text⟩]) statements next e) :
      Breaks library active home units (.includeFile tag file :: rest) next e
  | behind {active : List Place} {home : Option Place} {units middle next : Units}
      {tag : Option Tag} {file : String} {path : Path} {place : Place} {text : List Char}
      {statements inner rest : List Statement} {e : Error}
      (henters : library.Enters active home units tag file path place text statements)
      (hinner : Flattens library (active ++ [place]) (homeOf path place)
        (units ++ [⟨path.text, text⟩]) statements middle inner)
      (hrest : Breaks library active home middle rest next e) :
      Breaks library active home units (.includeFile tag file :: rest) next e

/-- What reading a unit comes to: the units registered after it, and its flat statements or an
error. -/
inductive Reads (library : Library) (active : List Place) (home : Option Place) (name : String)
    (text : List Char) (units : Units) : Units → Except Error (List Statement) → Prop
  | malformed {e : Error} (hparse : Statement.parse units.length text = .error e) :
      Reads library active home name text units (units ++ [⟨name, text⟩]) (.error e)
  | flat {next : Units} {statements flat : List Statement}
      (hparse : Statement.parse units.length text = .ok statements)
      (hflat : library.Flattens active home (units ++ [⟨name, text⟩]) statements next flat) :
      Reads library active home name text units next (.ok flat)
  | broken {next : Units} {statements : List Statement} {e : Error}
      (hparse : Statement.parse units.length text = .ok statements)
      (hbreaks : library.Breaks active home (units ++ [⟨name, text⟩]) statements next e) :
      Reads library active home name text units next (.error e)

/-! ## At most one result -/

theorem Enters.unique {path' : Path} {place' : Place} {text' : List Char}
    {statements' : List Statement}
    (h : library.Enters active home units tag file path place text statements)
    (h' : library.Enters active home units tag file path' place' text' statements') :
    path = path' ∧ place = place' ∧ text = text' ∧ statements = statements' := by
  have hopened := h.opened.symm.trans h'.opened
  cases hopened
  have hparse := h.parse.symm.trans h'.parse
  cases hparse
  exact ⟨rfl, rfl, rfl, rfl⟩

theorem Enters.not_refuses
    (h : library.Enters active home units tag file path place text statements) :
    ¬ library.Refuses active home units tag file next e := by
  intro h'
  cases h' with
  | unopened hopened =>
      rw [h.opened] at hopened
      cases hopened
  | malformed hopened hparse =>
      rw [h.opened] at hopened
      cases hopened
      rw [h.parse] at hparse
      cases hparse

theorem Refuses.unique {next' : Units} {e' : Error}
    (h : library.Refuses active home units tag file next e)
    (h' : library.Refuses active home units tag file next' e') : next = next' ∧ e = e' := by
  cases h with
  | unopened hopened =>
      cases h' with
      | unopened hopened' =>
          rw [hopened] at hopened'
          cases hopened'
          exact ⟨rfl, rfl⟩
      | malformed hopened' =>
          rw [hopened] at hopened'
          cases hopened'
  | malformed hopened hparse =>
      cases h' with
      | unopened hopened' =>
          rw [hopened] at hopened'
          cases hopened'
      | malformed hopened' hparse' =>
          rw [hopened] at hopened'
          cases hopened'
          rw [hparse] at hparse'
          cases hparse'
          exact ⟨rfl, rfl⟩

theorem Flattens.unique {next' : Units} {flat' : List Statement}
    (h : library.Flattens active home units statements next flat)
    (h' : library.Flattens active home units statements next' flat') :
    next = next' ∧ flat = flat' := by
  induction h generalizing next' flat' with
  | nil =>
      cases h'
      exact ⟨rfl, rfl⟩
  | plain hs hrest ih =>
      cases h' with
      | plain _ hrest' =>
          obtain ⟨rfl, rfl⟩ := ih hrest'
          exact ⟨rfl, rfl⟩
      | included => cases hs
  | included henters hinner hrest ihinner ihrest =>
      cases h' with
      | plain hs => cases hs
      | included henters' hinner' hrest' =>
          obtain ⟨rfl, rfl, rfl, rfl⟩ := henters.unique henters'
          obtain ⟨rfl, rfl⟩ := ihinner hinner'
          obtain ⟨rfl, rfl⟩ := ihrest hrest'
          exact ⟨rfl, rfl⟩

theorem Flattens.not_breaks {next' : Units}
    (h : library.Flattens active home units statements next flat) :
    ¬ library.Breaks active home units statements next' e := by
  induction h generalizing next' with
  | nil => rintro ⟨⟩
  | plain hs hrest ih =>
      intro h'
      cases h' with
      | plain _ hrest' => exact ih hrest'
      | _ => cases hs
  | included henters hinner hrest ihinner ihrest =>
      intro h'
      cases h' with
      | plain hs => cases hs
      | refused hrefuses => exact henters.not_refuses hrefuses
      | within henters' hinner' =>
          obtain ⟨rfl, rfl, rfl, rfl⟩ := henters.unique henters'
          exact ihinner hinner'
      | behind henters' hinner' hrest' =>
          obtain ⟨rfl, rfl, rfl, rfl⟩ := henters.unique henters'
          obtain ⟨rfl, -⟩ := hinner.unique hinner'
          exact ihrest hrest'

theorem Breaks.unique {next' : Units} {e' : Error}
    (h : library.Breaks active home units statements next e)
    (h' : library.Breaks active home units statements next' e') : next = next' ∧ e = e' := by
  induction h generalizing next' e' with
  | plain hs hrest ih =>
      cases h' with
      | plain _ hrest' => exact ih hrest'
      | _ => cases hs
  | refused hrefuses =>
      cases h' with
      | plain hs => cases hs
      | refused hrefuses' => exact hrefuses.unique hrefuses'
      | within henters' | behind henters' => exact absurd hrefuses henters'.not_refuses
  | within henters hinner ih =>
      cases h' with
      | plain hs => cases hs
      | refused hrefuses' => exact absurd hrefuses' henters.not_refuses
      | within henters' hinner' =>
          obtain ⟨rfl, rfl, rfl, rfl⟩ := henters.unique henters'
          exact ih hinner'
      | behind henters' hinner' =>
          obtain ⟨rfl, rfl, rfl, rfl⟩ := henters.unique henters'
          exact absurd hinner hinner'.not_breaks
  | behind henters hinner hrest ih =>
      cases h' with
      | plain hs => cases hs
      | refused hrefuses' => exact absurd hrefuses' henters.not_refuses
      | within henters' hinner' =>
          obtain ⟨rfl, rfl, rfl, rfl⟩ := henters.unique henters'
          exact absurd hinner' hinner.not_breaks
      | behind henters' hinner' hrest' =>
          obtain ⟨rfl, rfl, rfl, rfl⟩ := henters.unique henters'
          obtain ⟨rfl, -⟩ := hinner.unique hinner'
          exact ih hrest'

theorem Reads.unique {next' : Units} {outcome outcome' : Except Error (List Statement)}
    (h : library.Reads active home name text units next outcome)
    (h' : library.Reads active home name text units next' outcome') :
    next = next' ∧ outcome = outcome' := by
  cases h with
  | malformed hparse =>
      cases h' with
      | malformed hparse' =>
          rw [hparse] at hparse'
          cases hparse'
          exact ⟨rfl, rfl⟩
      | flat hparse' | broken hparse' =>
          rw [hparse] at hparse'
          cases hparse'
  | flat hparse hflat =>
      cases h' with
      | malformed hparse' =>
          rw [hparse] at hparse'
          cases hparse'
      | flat hparse' hflat' =>
          rw [hparse] at hparse'
          cases hparse'
          obtain ⟨rfl, rfl⟩ := hflat.unique hflat'
          exact ⟨rfl, rfl⟩
      | broken hparse' hbreaks' =>
          rw [hparse] at hparse'
          cases hparse'
          exact absurd hbreaks' hflat.not_breaks
  | broken hparse hbreaks =>
      cases h' with
      | malformed hparse' =>
          rw [hparse] at hparse'
          cases hparse'
      | flat hparse' hflat' =>
          rw [hparse] at hparse'
          cases hparse'
          exact absurd hbreaks hflat'.not_breaks
      | broken hparse' hbreaks' =>
          rw [hparse] at hparse'
          cases hparse'
          obtain ⟨rfl, rfl⟩ := hbreaks.unique hbreaks'
          exact ⟨rfl, rfl⟩

/-! ## At least one result -/

/-- Files that can be being read at the same time: they are pairwise distinct. -/
structure Distinct (library : Library) (active : List Place) : Prop where
  nodup : active.Nodup
  files : ∀ place ∈ active, library.tree.IsFile place

theorem Distinct.snoc (h : library.Distinct active) (hplace : library.tree.IsFile place)
    (hnew : place ∉ active) : library.Distinct (active ++ [place]) where
  nodup := by
    rw [List.nodup_append]
    refine ⟨h.nodup, List.nodup_singleton place, ?_⟩
    rintro first hfirst last hlast rfl
    exact hnew (List.mem_singleton.1 hlast ▸ hfirst)
  files := by
    intro other hother
    rcases List.mem_append.1 hother with hother | hother
    · exact h.files other hother
    · rw [List.mem_singleton.1 hother]
      exact hplace

theorem Distinct.length_le (h : library.Distinct active) :
    active.length ≤ library.tree.files.card :=
  FileTree.length_le_card_files h.nodup h.files

/-- A reader follows the recursion while some files are being read. -/
def Follows (library : Library) (reader : Reader) (active : List Place) : Prop :=
  ∀ ⦃home name text reading next outcome⦄,
    reader active home name text reading = (next, outcome) →
      library.Reads active home name text reading.units next.units outcome

/-- There is a reader for every file that is not being read. -/
def Provides (library : Library) (nested : Option Reader) (active : List Place) : Prop :=
  ∀ place, library.tree.IsFile place → place ∉ active →
    ∃ reader, nested = some reader ∧ library.Follows reader (active ++ [place])

section Splicing

variable {nested : Option Reader} {reading after : Reading}
  {outcome : Except Error (List Statement)}

theorem readIncluded_follows (hnested : library.Provides nested active)
    (h : library.readIncluded nested active home tag file reading = (after, outcome)) :
    (∃ e, library.opened active home tag file = .error e ∧ after.units = reading.units ∧
      outcome = .error e) ∨
    ∃ path place text, library.opened active home tag file = .ok (path, place, text) ∧
      library.Reads (active ++ [place]) (homeOf path place) path.text text reading.units
        after.units outcome := by
  unfold readIncluded at h
  unfold opened
  cases hfile : library.firstFile (library.candidates home file) with
  | error fault =>
      rw [hfile] at h
      cases h
      exact Or.inl ⟨_, rfl, rfl, rfl⟩
  | ok found =>
      rw [hfile] at h
      cases found with
      | none =>
          cases h
          exact Or.inl ⟨_, rfl, rfl, rfl⟩
      | some found =>
          obtain ⟨path, place⟩ := found
          by_cases hactive : place ∈ active
          · simp only [if_pos hactive] at h ⊢
            cases h
            exact Or.inl ⟨_, rfl, rfl, rfl⟩
          · obtain ⟨reader, rfl, hreader⟩ := hnested place (isFile_of_firstFile hfile) hactive
            simp only [if_neg hactive] at h ⊢
            cases htext : library.tree.readText path.text with
            | error fault =>
                rw [htext] at h
                cases h
                exact Or.inl ⟨_, rfl, rfl, rfl⟩
            | ok text =>
                rw [htext] at h
                have hreads := @hreader (homeOf path place) path.text text
                  (reading.note (.including path.text)) after outcome h
                exact Or.inr ⟨path, place, text, rfl, hreads⟩

theorem splice_cons_plain {s : Statement} (hs : s.isInclude = false) (rest : List Statement) :
    library.splice nested active home flat reading (s :: rest) =
      library.splice nested active home (s :: flat) reading rest := by
  cases s <;> first | rfl | cases hs

/-- Splicing follows the recursion: it ends with statements behind those found before, or in an
error. -/
theorem splice_follows (hnested : library.Provides nested active)
    (h : library.splice nested active home flat reading statements = (after, outcome)) :
    (∃ added, outcome = .ok (flat.reverse ++ added) ∧
      library.Flattens active home reading.units statements after.units added) ∨
    ∃ e, outcome = .error e ∧
      library.Breaks active home reading.units statements after.units e := by
  induction statements generalizing flat reading with
  | nil =>
      cases h
      exact Or.inl ⟨[], by rw [List.append_nil], .nil⟩
  | cons s rest ih =>
      by_cases hs : s.isInclude = false
      · rw [splice_cons_plain hs] at h
        rcases ih h with ⟨added, rfl, hflat⟩ | ⟨e, rfl, hbreaks⟩
        · exact Or.inl ⟨s :: added, by simp, .plain hs hflat⟩
        · exact Or.inr ⟨e, rfl, .plain hs hbreaks⟩
      · obtain ⟨tag, file, rfl⟩ : ∃ tag file, s = .includeFile tag file := by
          cases s <;> first | exact ⟨_, _, rfl⟩ | exact absurd rfl hs
        unfold splice at h
        cases hincluded : library.readIncluded nested active home tag file reading with
        | mk middle found =>
            rw [hincluded] at h
            rcases readIncluded_follows hnested hincluded with
              ⟨e, hopened, hunits, rfl⟩ | ⟨path, place, text, hopened, hreads⟩
            · cases h
              rw [hunits]
              exact Or.inr ⟨e, rfl, .refused (.unopened hopened)⟩
            · -- the file was opened, and its own text has been read in one of three ways
              generalize hmiddle : middle.units = registered at hreads
              cases hreads with
              | malformed hparse =>
                  cases h
                  rw [hmiddle]
                  exact Or.inr ⟨_, rfl, .refused (.malformed hopened hparse)⟩
              | broken hparse hbreaks =>
                  cases h
                  rw [hmiddle]
                  exact Or.inr ⟨_, rfl, .within ⟨hopened, hparse⟩ hbreaks⟩
              | @flat _ _ inner hparse hflat =>
                  rw [← hmiddle] at hflat
                  rcases ih h with ⟨added, rfl, hrest⟩ | ⟨e, rfl, hrest⟩
                  · refine Or.inl ⟨.includeFile tag file :: (inner ++ added), ?_,
                      .included ⟨hopened, hparse⟩ hflat hrest⟩
                    simp [List.reverseAux_eq]
                  · exact Or.inr ⟨e, rfl, .behind ⟨hopened, hparse⟩ hflat hrest⟩

theorem readUnit_follows (hnested : library.Provides nested active) :
    library.Follows (library.readUnit nested) active := by
  intro home name text reading after outcome h
  simp only [readUnit, Units.push] at h
  cases hparse : Statement.parse reading.units.length text with
  | error e =>
      rw [hparse] at h
      cases h
      exact .malformed hparse
  | ok statements =>
      rw [hparse] at h
      rcases splice_follows hnested h with ⟨added, rfl, hflat⟩ | ⟨e, rfl, hbreaks⟩
      · exact .flat hparse hflat
      · exact .broken hparse hbreaks

/-- Reading down to a number of levels follows the recursion, if there are at least as many levels
as there are files left. -/
theorem readLevels_follows {levels : Nat} (hactive : library.Distinct active)
    (hlevels : library.tree.files.card ≤ active.length + levels) :
    library.Follows (library.readLevels levels) active := by
  induction levels generalizing active with
  | zero =>
      refine readUnit_follows fun place hplace hnew => ?_
      -- all files are being read already, so there is none to be opened
      have hmore := (hactive.snoc hplace hnew).length_le
      rw [List.length_append, List.length_singleton] at hmore
      omega
  | succ levels ih =>
      refine readUnit_follows fun place hplace hnew => ⟨_, rfl, ?_⟩
      apply ih (hactive.snoc hplace hnew)
      rw [List.length_append, List.length_singleton]
      omega

end Splicing

/-- The only fault of looking for the file behind a name is that the name is too long. -/
theorem eq_nameTooLong_of_unitPlace {fault : Fault} (h : library.unitPlace name = .error fault) :
    fault = .nameTooLong (Path.ofText name).text := by
  unfold unitPlace at h
  split at h
  · cases h
  · exact FileTree.eq_nameTooLong_of_locateFile h

theorem distinct_of_unitPlace (h : library.unitPlace name = .ok home) :
    library.Distinct home.toList := by
  cases home with
  | none => exact ⟨List.nodup_nil, List.forall_mem_nil _⟩
  | some place =>
      have hplace : library.tree.IsFile place := by
        unfold unitPlace at h
        split at h
        · cases h
        · exact FileTree.isFile_of_locateFile h
      exact ⟨List.nodup_singleton place, List.forall_mem_singleton.2 hplace⟩

/-- The recursion ends in exactly one way: with what reading gives. -/
theorem read_eq_iff (hhome : library.unitPlace name = .ok home) (reading : Reading)
    (outcome : Except Error (List Statement)) :
    library.Reads home.toList home name text reading.units next outcome ↔
      (library.read name text reading).1.units = next ∧
        (library.read name text reading).2 = outcome := by
  have hread : library.Reads home.toList home name text reading.units
      (library.read name text reading).1.units (library.read name text reading).2 := by
    simp only [read, hhome]
    apply readLevels_follows (distinct_of_unitPlace hhome) ?_ rfl
    exact Nat.le_add_left_of_le library.tree.card_files_le
  constructor
  · exact hread.unique
  · rintro ⟨rfl, rfl⟩
    exact hread

/-! ## Nesting -/

/-- A text, with the place of the file it comes from. -/
structure Source where
  home : Option Place
  text : List Char

/-- A text that is being read, and the places of the files that are being read. -/
structure Frame extends Source where
  active : List Place

/-- A text has an include directive. -/
def Includes (text : List Char) (tag : Option Tag) (file : String) : Prop :=
  ∃ unit statements, Statement.parse unit text = .ok statements ∧
    .includeFile tag file ∈ statements

/-- A file is read inside a text: one of the text's include directives leads into it. -/
inductive Nests (library : Library) : Frame → Frame → Prop
  | mk {frame : Frame} {tag : Option Tag} {file : String} {path : Path} {place : Place}
      {text : List Char} (hincludes : Includes frame.text tag file)
      (hopened : library.opened frame.active frame.home tag file = .ok (path, place, text)) :
      Nests library frame ⟨⟨homeOf path place, text⟩, frame.active ++ [place]⟩

theorem Nests.distinct {frame inner : Frame} (h : library.Nests frame inner)
    (hactive : library.Distinct frame.active) :
    library.Distinct inner.active ∧ inner.active.length = frame.active.length + 1 := by
  obtain ⟨-, hopened⟩ := h
  obtain ⟨hfile, hnew, -⟩ := opened_eq_ok_iff.1 hopened
  exact ⟨hactive.snoc (isFile_of_firstFile hfile) hnew, List.length_append⟩

/-- Along nested inclusions the files being read stay distinct; so there are at most as many levels
as there are files left. -/
theorem distinct_of_chain {frame : Frame} {frames : List Frame}
    (hactive : library.Distinct frame.active)
    (hchain : (frame :: frames).IsChain library.Nests) :
    (∀ inner ∈ frame :: frames, library.Distinct inner.active) ∧
      frame.active.length + frames.length ≤ library.tree.files.card := by
  induction frames generalizing frame with
  | nil => exact ⟨List.forall_mem_singleton.2 hactive, hactive.length_le⟩
  | cons inner frames ih =>
      obtain ⟨hnests, hchain⟩ := List.isChain_cons_cons.1 hchain
      obtain ⟨hinner, hlength⟩ := hnests.distinct hactive
      obtain ⟨hframes, hdepth⟩ := ih hinner hchain
      refine ⟨List.forall_mem_cons.2 ⟨hactive, hframes⟩, ?_⟩
      rw [List.length_cons]
      omega

end Library

/-! ## Units do not matter to what a text says -/

namespace Statement

/-- A text is read in every unit, as the same statements apart from places. -/
theorem parse_alike {unit : Int} {text : List Char} {statements : List Statement}
    (h : parse unit text = .ok statements) (other : Int) :
    ∃ statements', parse other text = .ok statements' ∧
      statements'.map untagged = statements.map untagged :=
  (says_iff_parse other).1 ((says_iff_parse unit).2 ⟨statements, h, rfl⟩)

theorem exists_include_of_map_untagged {statements statements' : List Statement}
    {tag : Option Tag} {file : String}
    (halike : statements'.map untagged = statements.map untagged)
    (h : .includeFile tag file ∈ statements) : ∃ tag', .includeFile tag' file ∈ statements' := by
  have hmem : Statement.includeFile none file ∈ statements'.map untagged := by
    rw [halike]
    exact List.mem_map.2 ⟨_, h, rfl⟩
  obtain ⟨s, hs, hfile⟩ := List.mem_map.1 hmem
  obtain ⟨tag', rfl⟩ := untagged_eq_include hfile
  exact ⟨tag', hs⟩

end Statement

open Statement

namespace Library

variable {library : Library} {active : List Place} {home : Option Place} {units next : Units}
  {statements flat : List Statement}

/-- A directive leads into the same file, whatever the units before it are. -/
theorem Enters.alike {tag : Option Tag} {file : String} {path : Path} {place : Place}
    {text : List Char} (h : library.Enters active home units tag file path place text statements)
    (others : Units) (otherTag : Option Tag) :
    ∃ statements', library.Enters active home others otherTag file path place text statements' ∧
      statements'.map untagged = statements.map untagged := by
  obtain ⟨statements', hparse, halike⟩ := parse_alike h.parse others.length
  exact ⟨statements', ⟨opened_eq_ok_iff.2 (opened_eq_ok_iff.1 h.opened), hparse⟩, halike⟩

/-- Statements are flattened in the same way, whatever the units before them are. -/
theorem Flattens.alike (h : library.Flattens active home units statements next flat)
    (others : Units) {statements' : List Statement}
    (halike : statements'.map untagged = statements.map untagged) :
    ∃ next' flat', library.Flattens active home others statements' next' flat' ∧
      flat'.map untagged = flat.map untagged := by
  induction h generalizing others statements' with
  | nil =>
      obtain rfl := List.map_eq_nil_iff.1 halike
      exact ⟨others, [], .nil, rfl⟩
  | @plain _ _ _ _ s rest flat hs _ ih =>
      obtain ⟨s', rest', rfl, hs', hrest'⟩ := List.map_eq_cons_iff.1 halike
      obtain ⟨next', flat', hflat', hsame⟩ := ih others hrest'
      have hplain : s'.isInclude = false := by
        rw [← isInclude_untagged, hs', isInclude_untagged, hs]
      refine ⟨next', s' :: flat', .plain hplain hflat', ?_⟩
      rw [List.map_cons, List.map_cons, hs', hsame]
  | included henters _ _ ihinner ihrest =>
      obtain ⟨s', rest', rfl, hs', hrest'⟩ := List.map_eq_cons_iff.1 halike
      obtain ⟨tag', rfl⟩ := untagged_eq_include hs'
      obtain ⟨inner', henters', hinner'⟩ := henters.alike others tag'
      obtain ⟨middle', flat', hflat', hsame⟩ := ihinner _ hinner'
      obtain ⟨next', back', hback', hsameBack⟩ := ihrest middle' hrest'
      refine ⟨next', _, .included henters' hflat' hback', ?_⟩
      simp only [List.map_cons, List.map_append, hsame, hsameBack, untagged]

/-- A unit that can be read can be read behind any other units, as the same statements apart from
places. -/
theorem Reads.alike {name : String} {text : List Char}
    (h : library.Reads active home name text units next (.ok flat)) (others : Units) :
    ∃ next' flat', library.Reads active home name text others next' (.ok flat') ∧
      flat'.map untagged = flat.map untagged := by
  obtain _ | ⟨hparse, hflat⟩ := h
  obtain ⟨statements', hparse', halike⟩ := parse_alike hparse others.length
  obtain ⟨next', flat', hflat', hsame⟩ := hflat.alike (others ++ [⟨name, text⟩]) halike
  exact ⟨next', flat', .flat hparse' hflat', hsame⟩

end Library

end Asm65
