import Asm65.File.Tree

/-!
# Writing to a file tree

Writing a file changes what stands at one place, and the path leads to this place afterwards.  A
file never takes the place of a directory, so that every path that led somewhere still leads there.
From this follows what a tree is like after files are written one after the other: what is read
from a path is the last file that was written where it leads to, and where none of the paths leads
to, everything is as before.
-/

namespace Asm65.FileTree

variable {tree next : FileTree} {path : String} {data : Bytes}

/-! ## One entry -/

theorem lookup_filter_ne (entries : List (Place × FileEntry)) (place q : Place) :
    (entries.filter fun e => e.1 != place).lookup q =
      if q = place then none else entries.lookup q := by
  induction entries with
  | nil => simp
  | cons e entries ih =>
      obtain ⟨found, entry⟩ := e
      by_cases hfound : found = place
      · subst hfound
        rw [List.filter_cons_of_neg (by simp), ih]
        by_cases hq : q = found
        · rw [if_pos hq, if_pos hq]
        · rw [if_neg hq, if_neg hq, List.lookup_cons, beq_false_of_ne hq]
      · rw [List.filter_cons_of_pos (by simpa using hfound), List.lookup_cons, List.lookup_cons, ih]
        by_cases hq : q = found
        · subst hq
          simp [hfound]
        · rw [beq_false_of_ne hq]

/-- An entry that is set where no directory stands is all that changes. -/
theorem entry?_set {place : Place} (h : tree.entry? place ≠ some .directory) (entry : FileEntry)
    (q : Place) :
    FileTree.entry? (tree.set place entry) q =
      if q = place then some entry else tree.entry? q := by
  have hplace : ¬ place.isPrefixOf tree.workDir = true := by
    intro hstarts
    unfold entry? at h
    rw [if_pos hstarts] at h
    exact h rfl
  show (if q.isPrefixOf tree.workDir then some .directory else
    (tree.entries.filter (fun e => e.1 != place) ++ [(place, entry)]).lookup q) = _
  rw [List.lookup_append, lookup_filter_ne]
  by_cases hq : q = place
  · subst hq
    simp [hplace]
  · rw [if_neg hq, if_neg hq, List.lookup_cons, beq_false_of_ne hq]
    simp [ entry?]

theorem read_eq_ok_iff :
    tree.read path = .ok data ↔
      ∃ place, tree.locate path = .ok place ∧ tree.entry? place = some (.file data) := by
  unfold read readAt
  cases tree.locate path with
  | error obstacle => simp [Except.map]
  | ok place =>
      cases hentry : tree.entry? place with
      | none => simp [Except.map, hentry]
      | some entry => cases entry <;> simp [Except.map, hentry]

/-! ## Following paths -/

theorem follow_append (place : Place) (names more : List String) :
    tree.follow place (names ++ more) =
      tree.follow place names >>= fun q => tree.follow q more := by
  induction names generalizing place with
  | nil => rfl
  | cons name names ih =>
      rw [List.cons_append]
      simp only [follow]
      cases tree.entry? place with
      | none => rfl
      | some entry =>
          cases entry with
          | file data => rfl
          | directory =>
              simp only [ih]
              repeat' split
              all_goals rfl

/-- What stands somewhere stays, and directories stay directories. -/
structure Grows (before after : FileTree) : Prop where
  workDir : after.workDir = before.workDir
  isSome : ∀ place, (before.entry? place).isSome = true → (after.entry? place).isSome = true
  directory : ∀ place, before.entry? place = some .directory → after.entry? place = some .directory

/-- Names still lead where they led. -/
theorem Grows.follow {place q : Place} {names : List String} (h : tree.Grows next)
    (hfollow : tree.follow place names = .ok q) : next.follow place names = .ok q := by
  induction names generalizing place with
  | nil => exact hfollow
  | cons name names ih =>
      unfold FileTree.follow at hfollow ⊢
      split at hfollow
      · next hdirectory =>
          rw [h.directory place hdirectory]
          simp only
          by_cases hstay : name = "" ∨ name = "."
          · rw [if_pos hstay] at hfollow ⊢
            exact ih hfollow
          rw [if_neg hstay] at hfollow ⊢
          by_cases hup : name = ".."
          · rw [if_pos hup] at hfollow ⊢
            exact ih hfollow
          rw [if_neg hup] at hfollow ⊢
          by_cases hlong : name.utf8ByteSize > nameLimit
          · rw [if_pos hlong] at hfollow
            cases hfollow
          rw [if_neg hlong] at hfollow ⊢
          by_cases hsome : (tree.entry? (place ++ [name])).isSome = true
          · rw [if_pos hsome] at hfollow
            rw [if_pos (h.isSome _ hsome)]
            exact ih hfollow
          · rw [if_neg hsome] at hfollow
            cases hfollow
      · cases hfollow
      · cases hfollow

theorem Grows.locate {place : Place} (h : tree.Grows next)
    (hlocate : tree.locate path = .ok place) : next.locate path = .ok place := by
  unfold FileTree.locate at hlocate ⊢
  split at hlocate
  · cases hlocate
  · next htext =>
      rw [startOf, h.workDir]
      exact h.follow hlocate

/-- Empty names and dots stay in a directory. -/
theorem follow_of_stay {place : Place} {names : List String}
    (hplace : tree.entry? place = some .directory) (h : ∀ name ∈ names, name = "" ∨ name = ".") :
    tree.follow place names = .ok place := by
  induction names with
  | nil => rfl
  | cons name names ih =>
      obtain ⟨hname, hnames⟩ := List.forall_mem_cons.1 h
      unfold FileTree.follow
      rw [hplace]
      simp only
      rw [if_pos hname]
      exact ih hnames

/-- A file has a name. -/
theorem names_ne_nil_of_read {p : Path} (h : tree.read p.text = .ok data) : p.names ≠ [] := by
  intro hnames
  obtain ⟨root, names⟩ := p
  obtain rfl : names = [] := hnames
  -- without names, a path leads to the root or to the working directory
  have hstay : ∀ name ∈ pathComponents (Path.text ⟨root, []⟩), name = "" ∨ name = "." := by
    cases root <;> decide +kernel
  have htext : textObstacle? (Path.text ⟨root, []⟩) = none := by cases root <;> decide +kernel
  have hstart : tree.entry? (tree.startOf (Path.text ⟨root, []⟩)) = some .directory := by
    unfold startOf entry?
    split
    · exact if_pos rfl
    · exact if_pos (List.isPrefixOf_iff_prefix.2 (List.prefix_refl _))
  obtain ⟨place, hplace, hentry⟩ := read_eq_ok_iff.1 h
  unfold FileTree.locate at hplace
  rw [htext] at hplace
  obtain rfl := Except.ok.inj ((follow_of_stay hstart hstay).symm.trans hplace)
  rw [hstart] at hentry
  cases hentry

/-! ## Writing one file -/

theorem targetIn_eq_ok {parent place : Place} {name : String} {slashed : Bool}
    (h : tree.targetIn path parent name slashed = .ok place) :
    tree.entry? parent = some .directory ∧ slashed = false ∧ name ≠ "." ∧ name ≠ ".." ∧
      ¬ name.utf8ByteSize > nameLimit ∧ place = parent ++ [name] ∧
      tree.entry? place ≠ some .directory := by
  unfold targetIn at h
  by_cases hparent : tree.entry? parent = some .directory
  · rw [if_neg (by simpa using hparent)] at h
    by_cases hname : slashed ∨ name = "." ∨ name = ".."
    · rw [if_pos hname] at h
      cases h
    · rw [if_neg hname] at h
      obtain ⟨hslashed, hname⟩ := not_or.1 hname
      obtain ⟨hdot, hup⟩ := not_or.1 hname
      by_cases hlong : name.utf8ByteSize > nameLimit
      · rw [if_pos hlong] at h
        cases h
      · rw [if_neg hlong] at h
        by_cases hdirectory : tree.entry? (parent ++ [name]) = some .directory
        · rw [if_pos hdirectory] at h
          cases h
        · rw [if_neg hdirectory] at h
          obtain rfl := Except.ok.inj h
          exact ⟨hparent, by simpa using hslashed, hdot, hup, hlong, rfl, hdirectory⟩
  · rw [if_pos (by simpa using hparent)] at h
    cases h

/-- A path that a file can be written to leads to a directory and on to a name. -/
theorem target_eq_ok {place : Place} (h : tree.target path = .ok place) :
    ∃ parent before name, textObstacle? path = none ∧ pathComponents path = before ++ [name] ∧
      tree.follow (tree.startOf path) before = .ok parent ∧ name ≠ "" ∧
      tree.targetIn path parent name false = .ok place := by
  unfold target at h
  split at h
  · cases h
  · next htext =>
      simp only at h
      split at h
      · cases h
      · next name before hnames =>
          split at h
          · cases h
          · next parent hparent =>
              have hslashed := (targetIn_eq_ok h).2.1
              rw [hslashed] at h
              -- no slash stands behind the last name, so that this is the last component
              have hreversed : (pathComponents path).reverse = name :: before := by
                rw [← hnames]
                cases hcomponents : (pathComponents path).reverse with
                | nil => rfl
                | cons last others =>
                    rw [hcomponents] at hslashed
                    rw [List.dropWhile_cons_of_neg (by simpa using hslashed)]
              have hname : name ≠ "" := by
                rintro rfl
                rw [hreversed] at hslashed
                cases hslashed
              refine ⟨parent, before.reverse, name, htext, ?_, hparent, hname, h⟩
              rw [← List.reverse_reverse (pathComponents path), hreversed, List.reverse_cons]

theorem grows_set {place : Place} (h : tree.entry? place ≠ some .directory) (data : Bytes) :
    tree.Grows (tree.set place (.file data)) := by
  refine ⟨rfl, ?_, ?_⟩
  · intro q hq
    rw [entry?_set h]
    split
    · rfl
    · exact hq
  · intro q hq
    have hother : q ≠ place := by
      rintro rfl
      exact h hq
    rw [entry?_set h, if_neg hother, hq]

/-- After a file is written, its path leads to the place where it stands, and nothing has changed
elsewhere. -/
theorem write_eq_ok (h : tree.write path data = .ok next) :
    tree.Grows next ∧ ∃ place, next.locate path = .ok place ∧
      ∀ q, next.entry? q = if q = place then some (.file data) else tree.entry? q := by
  unfold write at h
  cases htarget : tree.target path with
  | error fault =>
      rw [htarget] at h
      cases h
  | ok place =>
      rw [htarget] at h
      obtain rfl := Except.ok.inj h
      obtain ⟨parent, before, name, htext, hnames, hbefore, hname, hin⟩ := target_eq_ok htarget
      obtain ⟨hparent, -, hdot, hup, hlong, rfl, hdirectory⟩ := targetIn_eq_ok hin
      have hgrows := grows_set hdirectory data
      refine ⟨hgrows, parent ++ [name], ?_, entry?_set hdirectory _⟩
      have hentry : (FileTree.entry? (tree.set (parent ++ [name]) (.file data))
          (parent ++ [name])).isSome = true := by
        rw [entry?_set hdirectory, if_pos rfl]
        rfl
      unfold locate
      rw [htext, hnames]
      show follow _ (tree.startOf path) (before ++ [name]) = _
      rw [follow_append, hgrows.follow hbefore]
      show follow _ parent [name] = _
      unfold follow
      rw [hgrows.directory parent hparent]
      simp only
      rw [if_neg (not_or.2 ⟨hname, hdot⟩), if_neg hup, if_neg hlong, if_pos hentry]
      rfl

/-! ## Writing files one after the other -/

/-- A tree is what another one has become by writing files, in order. -/
structure Wrote (before after : FileTree) (files : List (String × Bytes)) : Prop where
  workDir : after.workDir = before.workDir
  /-- Every path leads somewhere. -/
  located : ∀ file ∈ files, ∃ place, after.locate file.1 = .ok place
  /-- A file reads as it was written, unless a later one was written to the same place. -/
  read : ∀ front path data back, files = front ++ (path, data) :: back →
    (∀ file ∈ back, after.locate file.1 ≠ after.locate path) → after.read path = .ok data
  /-- Other places are as before. -/
  frame : ∀ place, (∀ file ∈ files, after.locate file.1 ≠ .ok place) →
    after.entry? place = before.entry? place

namespace Wrote

variable {before after : FileTree} {files : List (String × Bytes)}

theorem nil (tree : FileTree) : tree.Wrote tree [] where
  workDir := rfl
  located := by simp
  read := by simp
  frame := fun _ _ => rfl

/-- One more file. -/
theorem concat (h : before.Wrote after files) (hwrite : after.write path data = .ok next) :
    before.Wrote next (files ++ [(path, data)]) := by
  obtain ⟨hgrows, place, hplace, hentry⟩ := write_eq_ok hwrite
  refine ⟨hgrows.workDir.trans h.workDir, ?_, ?_, ?_⟩
  · intro file hfile
    rcases List.mem_append.1 hfile with hfile | hfile
    · obtain ⟨q, hq⟩ := h.located file hfile
      exact ⟨q, hgrows.locate hq⟩
    · rw [List.mem_singleton.1 hfile]
      exact ⟨place, hplace⟩
  · intro front path' data' back hfiles hback
    rw [read_eq_ok_iff]
    cases hlast : back.reverse with
    | nil =>
        rw [List.reverse_eq_nil_iff] at hlast
        subst hlast
        obtain ⟨-, hsame⟩ := List.append_inj' hfiles rfl
        obtain ⟨rfl, rfl⟩ := Prod.mk.inj (List.cons.inj hsame).1
        exact ⟨place, hplace, by rw [hentry, if_pos rfl]⟩
    | cons last rest =>
        obtain rfl : back = rest.reverse ++ [last] := by
          rw [← List.reverse_reverse back, hlast, List.reverse_cons]
        rw [← List.cons_append, ← List.append_assoc] at hfiles
        obtain ⟨rfl, hsame⟩ := List.append_inj' hfiles rfl
        obtain rfl := (List.cons.inj hsame).1
        -- the paths behind led elsewhere before the last file was written, too
        have hearlier : ∀ file ∈ rest.reverse, after.locate file.1 ≠ after.locate path' := by
          intro file hfile heq
          obtain ⟨q, hq⟩ := h.located file (by simp [hfile])
          apply hback file (List.mem_append_left _ hfile)
          rw [hgrows.locate hq, hgrows.locate (heq.symm.trans hq)]
        obtain ⟨q, hq, hdata⟩ := read_eq_ok_iff.1 (h.read front path' data' _ rfl hearlier)
        have hother : q ≠ place := by
          rintro rfl
          apply hback (path, data) (by simp)
          rw [hplace, hgrows.locate hq]
        exact ⟨q, hgrows.locate hq, by rw [hentry, if_neg hother, hdata]⟩
  · intro q hq
    have hother : q ≠ place := by
      rintro rfl
      exact hq (path, data) (by simp) hplace
    rw [hentry, if_neg hother]
    apply h.frame
    intro file hfile hlocate
    exact hq file (List.mem_append_left _ hfile) (hgrows.locate hlocate)

end Wrote

end Asm65.FileTree
