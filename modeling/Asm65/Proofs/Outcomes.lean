import Asm65.Proofs.Failures
import Asm65.Proofs.Image
import Asm65.Session

/-!
# Outcomes

What building, layout and image come to together.  All of it can be read off the statements: what
stops them first, how large their image is, and, if nothing stops them and the image fits, the
addresses of the flat walk and the bytes of the pass over the pieces.  Laws about two runs compare
these instead of blocks.
-/

namespace Asm65

/-- Binding a label leaves all others as they are. -/
theorem Labels.getElem?_insert (labels : Labels) (name other : String) (address : Int) :
    (labels.insert name address)[other]? =
      if other = name then some address else labels[other]? := by
  rw [Std.TreeMap.getElem?_insert]
  simp only [Std.compare_eq_iff_eq, @eq_comm _ name other]

/-- The statements of a text are well-formed, wherever their places are. -/
theorem Statement.wellFormed_of_parse {unit : Int} {text : List Char}
    {statements : List Statement} (h : parse unit text = .ok statements) :
    ∀ s ∈ statements, s.WellFormed fun _ => True := by
  intro s hs
  exact (parse_wellFormed h s hs).mono fun _ _ => trivial

namespace Output

/-- What statements are assembled to. -/
def ofStatements (statements : List Statement) : Except Error Output := do
  let program ← Program.ofStatements statements
  let labels ← (Program.layout program).labels
  match Program.image (Program.layout program).program with
  | .ok code => return ⟨statements, (Program.layout program).program, code, labels⟩
  | .error fault => .error (.fault fault)

end Output

/-- A session assembles its statements, and words what goes wrong. -/
theorem Session.assemble_eq (session : Session) :
    session.assemble.2 =
      (Output.ofStatements session.statements).mapError (.ofError session.units) := by
  unfold assemble Output.ofStatements
  cases Program.ofStatements session.statements with
  | error e => rfl
  | ok program =>
      simp only [bind, Except.bind]
      cases (Program.layout program).labels with
      | error e => rfl
      | ok labels =>
          simp only
          cases Program.image (Program.layout program).program with
          | error fault => rfl
          | ok code => rfl

namespace Statement

/-- Whether a statement moves to another address. -/
def isMove : Statement → Bool
  | org _ _ | pad _ _ => true
  | _ => false

/-- What stops statements before they have an image: the first that cannot be built, else their
size, else the first with something wrong with its reference. -/
def firstError? (statements : List Statement) : Option Error :=
  (statements.findSome? buildError?).or
    (if capacity < (statements.map size).sum then some (.problem .capacity none)
    else FlatWalk.start.firstProblem? (FlatWalk.across statements).labels statements)

/-- Statements that nothing stops can be built one by one. -/
theorem piece_of_firstError? {statements : List Statement} (h : firstError? statements = none) :
    ∀ s ∈ statements, ∃ p, s.piece = .ok p := by
  intro s hs
  have hnone := List.findSome?_eq_none_iff.1 (Option.or_eq_none_iff.1 h).1 s hs
  unfold buildError? at hnone
  split at hnone
  · next added hadded => exact ⟨added, hadded⟩
  · cases hnone

/-- Statements that nothing stops are not too large. -/
theorem size_of_firstError? {statements : List Statement} (h : firstError? statements = none) :
    (statements.map size).sum ≤ capacity := by
  apply Int.not_lt.1
  intro hlarge
  have hnone := (Option.or_eq_none_iff.1 h).2
  rw [if_pos hlarge] at hnone
  cases hnone

end Statement

namespace Output

variable {good : Tag → Prop} {statements : List Statement}

/-- What an assembly that succeeds has gone through. -/
theorem ofStatements_eq_ok {output : Output} (h : ofStatements statements = .ok output) :
    ∃ program, Program.ofStatements statements = .ok program ∧
      (Program.layout program).labels = .ok output.labels ∧
      Program.image (Program.layout program).program = .ok output.code ∧
      output.program = (Program.layout program).program := by
  obtain ⟨program, hbuild, h⟩ := bind_ok_inv h
  obtain ⟨labels, hlayout, h⟩ := bind_ok_inv h
  split at h
  · next code himage =>
      cases h
      exact ⟨program, hbuild, hlayout, himage, rfl⟩
  · cases h

/-- An output is what its statements say: their labels and instructions where the flat walk meets
them, and the bytes of the pass over their pieces. -/
structure Renders (output : Output) (statements : List Statement) : Prop where
  labels_eq : output.labels = (FlatWalk.across statements).labels
  entries_eq : output.mapEntries = (FlatWalk.across statements).instructions
  origin_eq : output.origin = Statement.imageStart statements
  code_eq : output.code = Piece.output (FlatWalk.across statements).labels
    (Statement.imageStart statements) 0 0 (statements.filterMap Statement.piece?)
  settles : ∀ site ∈ Piece.listing 0 (statements.filterMap Statement.piece?),
    Chunk.Settles (FlatWalk.across statements).labels site
  encodes : Piece.Encodes (FlatWalk.across statements).labels 0
    (statements.filterMap Statement.piece?)
  inSpace : (FlatWalk.across statements).InSpace

/-- Building and layout fail exactly as the first error says. -/
theorem ofStatements_eq_error {e : Error} (hform : ∀ s ∈ statements, s.WellFormed good)
    (h : Statement.firstError? statements = some e) : ofStatements statements = .error e := by
  unfold ofStatements
  cases hbuild : Program.ofStatements statements with
  | error e' =>
      have hfound := Program.ofStatements_eq_error_iff.1 hbuild
      rw [Statement.firstError?, hfound] at h
      cases h
      rfl
  | ok program =>
      have hnone : statements.findSome? Statement.buildError? = none := by
        apply Option.eq_none_iff_forall_ne_some.2
        intro e' he'
        rw [Program.ofStatements_eq_error_iff.2 he'] at hbuild
        cases hbuild
      rw [Statement.firstError?, hnone, Option.none_or] at h
      have hsize := Program.size_of_statements hbuild
      have hlayout : (Program.layout program).labels = .error e := by
        split at h
        · next hlarge =>
            cases h
            exact Program.layout_of_too_large (Program.ofStatements_fitting hbuild)
              (hsize ▸ hlarge)
        · next hfits =>
            rw [Program.layout_labels_eq hform hbuild (hsize ▸ Int.not_lt.1 hfits), h]
      simp only [bind, Except.bind, hlayout]

/-- Statements that nothing stops are built and laid out. -/
theorem exists_layout (hform : ∀ s ∈ statements, s.WellFormed good)
    (h : Statement.firstError? statements = none) :
    ∃ program, Program.ofStatements statements = .ok program ∧
      (Program.layout program).labels = .ok (FlatWalk.across statements).labels := by
  obtain ⟨hbuilds, hrest⟩ := Option.or_eq_none_iff.1 h
  rw [if_neg (Int.not_lt.2 (Statement.size_of_firstError? h))] at hrest
  cases hbuild : Program.ofStatements statements with
  | error e =>
      rw [Program.ofStatements_eq_error_iff.1 hbuild] at hbuilds
      cases hbuilds
  | ok program =>
      have hsize := Program.size_of_statements hbuild
      have hfits := Statement.size_of_firstError? h
      refine ⟨program, rfl, ?_⟩
      rw [Program.layout_labels_eq hform hbuild (hsize ▸ hfits), hrest]

theorem ofStatements_too_large (hform : ∀ s ∈ statements, s.WellFormed good)
    (h : Statement.firstError? statements = none)
    (hlarge : addressSpace <
      (ImageWalk.across (Statement.imageStart statements) statements).size) :
    ∃ n, ofStatements statements = .error (.fault (.imageTooLarge n)) := by
  obtain ⟨program, hbuild, hlayout⟩ := exists_layout hform h
  obtain ⟨-, -, hover⟩ := Program.image_statements hform hbuild hlayout
  obtain ⟨n, -, himage⟩ := hover hlarge
  refine ⟨n, ?_⟩
  simp only [ofStatements, hbuild, bind, Except.bind, hlayout, himage]

theorem ofStatements_fits (hform : ∀ s ∈ statements, s.WellFormed good)
    (h : Statement.firstError? statements = none)
    (hfits : (ImageWalk.across (Statement.imageStart statements) statements).size ≤
      addressSpace) :
    ∃ output, ofStatements statements = .ok output ∧ output.Renders statements := by
  obtain ⟨program, hbuild, hlayout⟩ := exists_layout hform h
  obtain ⟨hencodes, himage, -⟩ := Program.image_statements hform hbuild hlayout
  obtain ⟨hentries, -⟩ := Program.layout_eq_across hform hbuild hlayout
  have horigin := Program.origin_layout hform hbuild hlayout
  obtain ⟨-, -, hsettles⟩ := Program.layout_ok (Program.ofStatements_sound hform hbuild) hlayout
  rw [Program.listing_pieces hbuild] at hsettles
  generalize hcode : Piece.output (FlatWalk.across statements).labels
    (Statement.imageStart statements) 0 0 (statements.filterMap Statement.piece?) = code at himage
  refine ⟨⟨statements, (Program.layout program).program, code, _⟩, ?_,
    rfl, hentries, horigin, hcode.symm, hsettles, hencodes,
    FlatWalk.across_inSpace hform hbuild⟩
  simp only [ofStatements, hbuild, bind, Except.bind, hlayout, himage hfits]
  rfl

end Output

end Asm65
