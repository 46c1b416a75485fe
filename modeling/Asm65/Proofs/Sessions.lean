import Asm65.Proofs.Image
import Asm65.Session

/-!
# What sessions have read

However a session comes about, its statements are well formed, and every place in them lies in one
of the units it has registered.  Reading a unit, with all the files it includes, only adds units;
so a place that lies in a unit goes on doing so, and the message of a problem can always name it.
-/

namespace Asm65

/-! ## Places in units -/

/-- A place in one of the units. -/
def Units.Covers (units : Units) (t : Tag) : Prop :=
  ∃ (id : Nat) (unit : SourceUnit), units[id]? = some unit ∧ t.Within id unit.text.length

namespace Units

variable {units more : Units} {t : Tag}

/-- Units that were added leave the places in the others. -/
theorem Covers.mono (hmore : units <+: more) (h : units.Covers t) : more.Covers t := by
  obtain ⟨id, unit, hunit, hwithin⟩ := h
  obtain ⟨added, rfl⟩ := hmore
  have hid : id < units.length := (List.getElem?_eq_some_iff.1 hunit).1
  exact ⟨id, unit, by rw [List.getElem?_append_left hid, hunit], hwithin⟩

theorem find_of_covers (h : units.Covers t) : ∃ unit, units.find t.unit = .ok unit := by
  obtain ⟨id, unit, hunit, hwithin⟩ := h
  have hid : ¬ (id : Int) < 0 := by omega
  refine ⟨unit, ?_⟩
  simp only [find, findNumbered, hwithin.unit_eq, if_neg hid, Int.toNat_natCast, hunit]
  rfl

/-- The message of a problem at a place in the units can be written. -/
theorem describe_ok {problem : Problem} {tag : Option Tag} (h : Placed units.Covers tag) :
    ∃ message, units.describe problem tag = .ok message := by
  obtain ⟨t, rfl, hcovers⟩ := h
  obtain ⟨unit, hunit⟩ := find_of_covers hcovers
  simp only [describe, labelled, hunit]
  exact ⟨_, rfl⟩

end Units

/-! ## Reading -/

/-- What reading adds to a reading: more units, and statements with places in the units. -/
structure Reading.Gathers (reading : Reading) (result : Reading × Except Error (List Statement)) :
    Prop where
  units : reading.units <+: result.1.units
  statements : ∀ found, result.2 = .ok found → ∀ s ∈ found, s.WellFormed result.1.units.Covers

theorem Reading.Gathers.of_error {reading next : Reading} (e : Error)
    (hmore : reading.units <+: next.units) : reading.Gathers (next, .error e) where
  units := hmore
  statements := by
    intro found h
    cases h

/-- What is gathered after some units were added is gathered together with them. -/
theorem Reading.Gathers.trans {reading next : Reading}
    {result : Reading × Except Error (List Statement)} (hmore : reading.units <+: next.units)
    (h : next.Gathers result) : reading.Gathers result where
  units := List.IsPrefix.trans hmore h.units
  statements := h.statements

namespace Library

variable {library : Library} {reading : Reading} {active : List Place} {home : Option Place}

/-- A reader gathers, whatever it is asked to read. -/
def Gathers (reader : Reader) : Prop :=
  ∀ active home name text reading,
    Reading.Gathers reading (reader active home name text reading)

theorem readIncluded_gathers {nested : Option Reader} {tag : Option Tag} {file : String}
    (hnested : ∀ reader ∈ nested, Gathers reader) :
    reading.Gathers (library.readIncluded nested active home tag file reading) := by
  have hsame : reading.units <+: reading.units := List.prefix_refl _
  unfold readIncluded
  split
  · exact .of_error _ hsame
  · exact .of_error _ hsame
  · split
    · exact .of_error _ hsame
    · split
      · exact .of_error _ hsame
      · next reader =>
          simp only
          split
          · exact .of_error _ hsame
          · refine .trans ?_ (hnested reader rfl _ _ _ _ _)
            exact hsame

/-- Statements go on being well formed when units are added. -/
theorem wellFormed_mono {units more : Units} {statements : List Statement}
    (hmore : units <+: more) (h : ∀ s ∈ statements, s.WellFormed units.Covers) :
    ∀ s ∈ statements, s.WellFormed more.Covers :=
  fun s hs => (h s hs).mono fun _ => Units.Covers.mono hmore

theorem splice_gathers {nested : Option Reader} {flat statements : List Statement}
    (hnested : ∀ reader ∈ nested, Gathers reader)
    (hflat : ∀ s ∈ flat, s.WellFormed reading.units.Covers)
    (hstatements : ∀ s ∈ statements, s.WellFormed reading.units.Covers) :
    reading.Gathers (library.splice nested active home flat reading statements) := by
  induction statements generalizing flat reading with
  | nil =>
      refine ⟨List.prefix_refl _, ?_⟩
      intro found h s hs
      cases h
      exact hflat s (List.mem_reverse.1 hs)
  | cons s rest ih =>
      obtain ⟨hs, hrest⟩ := List.forall_mem_cons.1 hstatements
      have hkeep : ∀ u ∈ s :: flat, u.WellFormed reading.units.Covers :=
        List.forall_mem_cons.2 ⟨hs, hflat⟩
      unfold splice
      split
      · next heq => cases heq
      · next tag file _ heq =>
          cases heq
          have hincluded := @readIncluded_gathers library reading active home _ tag file hnested
          split
          · next after e hread =>
              rw [hread] at hincluded
              exact .of_error e hincluded.units
          · next after inner hread =>
              rw [hread] at hincluded
              -- the file has added units, and what was read before has to be carried over to them
              have hmore : reading.units <+: after.units := hincluded.units
              refine .trans hmore (ih ?_ (wellFormed_mono hmore hrest))
              intro u hu
              rw [List.reverseAux_eq] at hu
              rcases List.mem_append.1 hu with hu | hu
              · exact hincluded.statements inner rfl u (List.mem_reverse.1 hu)
              · exact wellFormed_mono hmore hkeep u hu
      · next heq =>
          cases heq
          exact ih hkeep hrest

theorem readUnit_gathers {nested : Option Reader} (hnested : ∀ reader ∈ nested, Gathers reader) :
    Gathers (library.readUnit nested) := by
  intro active home name text reading
  have hpush : reading.units <+: reading.units ++ [⟨name, text⟩] := List.prefix_append _ _
  unfold readUnit
  simp only [Units.push]
  split
  · exact .of_error _ hpush
  · next statements hparse =>
      refine .trans hpush (splice_gathers hnested (by simp) ?_)
      intro s hs
      refine (Statement.parse_wellFormed hparse s hs).mono fun t ht => ?_
      exact ⟨reading.units.length, ⟨name, text⟩, by simp [Reading.note], ht⟩

theorem readLevels_gathers (levels : Nat) : Gathers (library.readLevels levels) := by
  induction levels with
  | zero => exact readUnit_gathers (by simp)
  | succ levels ih => exact readUnit_gathers (by simpa using ih)

/-- Reading a unit and the files it includes adds units, and statements with places in them. -/
theorem read_gathers (library : Library) (name : String) (text : List Char) (reading : Reading) :
    reading.Gathers (library.read name text reading) := by
  unfold read
  split
  · exact .of_error _ (List.prefix_refl _)
  · exact readLevels_gathers _ _ _ _ _ _

end Library

/-! ## Sessions -/

namespace Session

/-- The sessions that come about by reading texts and files. -/
inductive Reachable : Session → Prop
  | start (searchPaths : List String) : Reachable (Session.start searchPaths)
  | addText {session : Session} (tree : FileTree) (name : String) (text : List Char) :
      Reachable session → Reachable (session.addText tree name text).session
  | addFile {session : Session} (tree : FileTree) (path : String) :
      Reachable session → Reachable (session.addFile tree path).session

/-- All places in the statements of a session lie in its units. -/
def Covered (session : Session) : Prop :=
  ∀ s ∈ session.statements, s.WellFormed session.units.Covers

theorem Covered.addText {session : Session} (h : session.Covered) (tree : FileTree)
    (name : String) (text : List Char) : (session.addText tree name text).session.Covered := by
  have hgathers := Library.read_gathers ⟨tree, session.searchPaths⟩ name text ⟨session.units, []⟩
  unfold Session.addText
  simp only
  split
  · next reading statements hread =>
      rw [hread] at hgathers
      intro s hs
      rcases List.mem_append.1 hs with hs | hs
      · exact Library.wellFormed_mono hgathers.units h s hs
      · exact hgathers.statements statements rfl s hs
  · next reading e hread =>
      rw [hread] at hgathers
      exact Library.wellFormed_mono hgathers.units h

theorem Covered.addFile {session : Session} (h : session.Covered) (tree : FileTree)
    (path : String) : (session.addFile tree path).session.Covered := by
  unfold Session.addFile
  simp only
  split
  · exact h
  · exact h.addText tree _ _

theorem Reachable.covered {session : Session} (h : session.Reachable) : session.Covered := by
  induction h with
  | start searchPaths =>
      intro s hs
      cases hs
  | addText tree name text _ ih => exact ih.addText tree name text
  | addFile tree path _ ih => exact ih.addFile tree path

/-- A problem of a session becomes a failure that names its place. -/
theorem ofError_located {units : Units} {e : Error}
    (h : e = .problem .capacity none ∨ e.Located units.Covers) :
    ∃ message problem tag, Failure.ofError units e = .problem message problem tag := by
  rcases h with rfl | ⟨problem, tag, rfl, hplaced⟩
  · exact ⟨_, _, _, rfl⟩
  · obtain ⟨message, hmessage⟩ := @Units.describe_ok units problem tag hplaced
    refine ⟨message, problem, tag, ?_⟩
    simp only [Failure.ofError, hmessage]

end Session

end Asm65
