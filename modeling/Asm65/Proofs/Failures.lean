import Asm65.Proofs.Contract
import Asm65.Proofs.References

/-!
# What stops an assembly

Statements fail in a fixed order.  The first statement that cannot be built decides, and each is
built as if it stood alone.  If all can be built, their sizes decide next.  If they fit, the first
statement decides that uses a label which is defined nowhere, or branches to one that is too far
away.  If there is none, the layout succeeds.
-/

namespace Asm65

/-! ## Sizes -/

/-- How many bytes a piece takes. -/
def Piece.size : Piece → Int
  | .chunk c => c.size
  | .block _ _ => 0

theorem Statement.size_of_added {s : Statement} {added : Option Piece} (h : s.piece = .ok added) :
    (added.toList.map Piece.size).sum = s.size := by
  cases Statement.adds_of_piece h with
  | comment tag => rfl
  | includeFile tag path => rfl
  | label tag name => rfl
  | org tag address hwidth => rfl
  | pad tag address hwidth => rfl
  | instruction tag mnemonic operand code param hmade =>
      simpa [Piece.size] using Statement.size_of_piece h
  | bytes tag values data hlength => simpa [Piece.size] using Statement.size_of_piece h
  | words tag values data hlength => simpa [Piece.size] using Statement.size_of_piece h
  | vector tag label => simpa [Piece.size] using Statement.size_of_piece h

theorem Statement.sum_size_filterMap {statements : List Statement}
    (hall : ∀ s ∈ statements, ∃ p, s.piece = .ok p) :
    ((statements.filterMap Statement.piece?).map Piece.size).sum =
      (statements.map Statement.size).sum := by
  induction statements with
  | nil => rfl
  | cons s rest ih =>
      obtain ⟨⟨added, hadded⟩, hrest⟩ := List.forall_mem_cons.1 hall
      rw [Statement.filterMap_piece?_cons hadded, List.map_append, List.sum_append,
        Statement.size_of_added hadded, ih hrest, List.map_cons, List.sum_cons]

namespace Program

theorem sum_size_pieces (program : Program) :
    ((pieces program).map Piece.size).sum = size program := by
  induction program with
  | nil => rfl
  | cons b rest ih =>
      have hblock : (b.pieces.map Piece.size).sum = b.size := by
        simp [Block.pieces, Block.size, Piece.size, Function.comp_def]
      rw [pieces_cons, List.map_append, List.sum_append, hblock, ih, size_cons]

/-- A program has the size of its statements. -/
theorem size_of_statements {statements : List Statement} {program : Program}
    (hbuild : ofStatements statements = .ok program) :
    size program = (statements.map Statement.size).sum := by
  obtain ⟨rfl, hall⟩ := ofStatements_ok hbuild
  rw [← sum_size_pieces, ← Statement.sum_size_filterMap hall]
  rcases pieces_ofPieces (statements.filterMap Statement.piece?) with heq | ⟨-, heq⟩
  · rw [heq]
  · rw [heq]
    -- the block that opens a program takes no bytes
    exact Int.zero_add _

end Program

/-! ## References of statements -/

namespace Statement

/-- The label that a statement uses.  A conditional branch to a label as it stands, without a
modifier, means the distance to it. -/
def reference? : Statement → Option Reference
  | instruction _ mnemonic ⟨_, modifier, some (.name tag name)⟩ =>
      some ⟨name, tag, modifier = .none ∧ (Op.ofMnemonic? mnemonic).any Op.isConditional⟩
  | vector tag name => some ⟨name, tag, false⟩
  | _ => none

end Statement

namespace Param

/-- Without a label there is nothing to replace. -/
theorem ofOperand_reference? {operand : Operand} {param : Param}
    (hterm : ∀ tag name, operand.term ≠ some (.name tag name))
    (h : ofOperand operand = .ok param) : param.reference? = none := by
  unfold ofOperand at h
  split at h
  · cases h
    rfl
  · simp only at h
    split at h
    · unfold ofNumber at h
      split at h
      · split at h <;> cases h
        rfl
      · simp only at h
        split at h <;> cases h <;> rfl
      · cases h
    · next tag name hname => exact absurd hname (hterm tag name)
    · cases h

theorem reference?_withMode {param : Param} (newMode : Mode) (h : param.reference? = none) :
    (param.withMode newMode).reference? = none := by
  cases param with
  | resolved mode value => rfl
  | unknown => rfl
  | address mode tag name => cases h
  | lowByte mode tag name | highByte mode tag name => cases h

theorem reference?_ofName (tag : Option Tag) (name : String) (modifier : Modifier) (mode : Mode) :
    (ofName tag name modifier mode).reference? =
      some ⟨name, tag, modifier = .none ∧ mode = .pcRelative⟩ := by
  cases modifier <;> simp [ofName, reference?]

end Param

theorem OperandKind.mode_ne_pcRelative (kind : OperandKind) : kind.mode ≠ .pcRelative := by
  cases kind <;> decide

theorem Chunk.ofInstruction_reference? {tag : Option Tag} {mnemonic : String} {operand : Operand}
    {c : Chunk} (hterm : ∀ place name, operand.term ≠ some (.name place name))
    (h : ofInstruction tag mnemonic operand = .ok c) : c.reference? = none := by
  obtain ⟨operation, written, param, code, -, hwritten, hparam, -, -, rfl⟩ := ofInstruction_eq_ok h
  have hnone := Param.ofOperand_reference? hterm hwritten
  rw [reference?, hparam]
  split
  · exact Param.reference?_withMode _ hnone
  · exact hnone

/-- The chunk of a statement uses the label that the statement uses. -/
theorem Statement.reference?_of_piece {good : Tag → Prop} {s : Statement} {c : Chunk}
    (hform : s.WellFormed good) (h : s.piece = .ok (some (.chunk c))) :
    c.reference? = s.reference? := by
  cases Statement.adds_of_piece h with
  | bytes tag values data hlength => rfl
  | words tag values data hlength => rfl
  | vector tag label => rfl
  | instruction tag mnemonic operand code param hmade =>
      obtain ⟨kind, modifier, term⟩ := operand
      cases term with
      | none => exact Chunk.ofInstruction_reference? (by simp) hmade
      | some term =>
          cases term with
          | number place number => exact Chunk.ofInstruction_reference? (by simp) hmade
          | name place name =>
              obtain ⟨found, hmnemonic, hop⟩ := Chunk.ofInstruction_name hform.2 hmade
              cases hop
              rw [Chunk.reference?, Param.reference?_ofName, reference?, hmnemonic]
              -- only a conditional branch turns its operand into a distance
              cases hconditional : code.op.isConditional with
              | true => simp [hconditional]
              | false => simp [hconditional, kind.mode_ne_pcRelative]

/-! ## The first problem -/

namespace FlatWalk

/-- What is wrong with the reference of a statement at the cursor. -/
def problem? (labels : Labels) (walk : FlatWalk) (s : Statement) : Option Error :=
  s.reference?.bind (·.problem? labels walk.cursor)

/-- What is wrong with the first statement that has something wrong with its reference. -/
def firstProblem? (labels : Labels) (walk : FlatWalk) : List Statement → Option Error
  | [] => none
  | s :: rest => (walk.problem? labels s).or (firstProblem? labels (walk.step s) rest)

variable {labels : Labels} {walk : FlatWalk} {statements : List Statement}

/-- A statement at the cursor has something wrong with its reference exactly if its chunk cannot
be settled there. -/
theorem findSome?_settleError?_added {good : Tag → Prop} {s : Statement} {added : Option Piece}
    (hform : s.WellFormed good) (h : s.piece = .ok added) :
    (Piece.listing walk.cursor added.toList).findSome? (Chunk.settleError? labels) =
      walk.problem? labels s := by
  cases added with
  | none => cases Statement.adds_of_piece h <;> rfl
  | some p =>
      cases p with
      | block position label => cases Statement.adds_of_piece h <;> rfl
      | chunk c =>
          have hfit := Statement.piece_fitting h
          rw [problem?, ← Statement.reference?_of_piece hform h, ← hfit.settleError?_eq]
          simp [Piece.listing]

/-- The first problem of statements is what stops the first chunk that cannot be settled. -/
theorem findSome?_settleError?_listing {good : Tag → Prop}
    (hform : ∀ s ∈ statements, s.WellFormed good)
    (hall : ∀ s ∈ statements, ∃ p, s.piece = .ok p) :
    (Piece.listing walk.cursor (statements.filterMap Statement.piece?)).findSome?
      (Chunk.settleError? labels) = walk.firstProblem? labels statements := by
  induction statements generalizing walk with
  | nil => rfl
  | cons s rest ih =>
      obtain ⟨⟨added, hadded⟩, hrest⟩ := List.forall_mem_cons.1 hall
      obtain ⟨hs, hforms⟩ := List.forall_mem_cons.1 hform
      have hcursor : (walk.step s).cursor = added.toList.foldl Piece.advance walk.cursor := by
        rw [step_eq_pass hadded]
        rfl
      rw [Statement.filterMap_piece?_cons hadded, Piece.listing_append, List.findSome?_append,
        findSome?_settleError?_added hs hadded, ← hcursor, ih hforms hrest]
      rfl

theorem firstProblem?_eq_some_iff {e : Error} :
    walk.firstProblem? labels statements = some e ↔
      ∃ i, (∃ s, statements[i]? = some s ∧
          ((statements.take i).foldl step walk).problem? labels s = some e) ∧
        ∀ j < i, ∀ s, statements[j]? = some s →
          ((statements.take j).foldl step walk).problem? labels s = none := by
  induction statements generalizing walk with
  | nil => simp [firstProblem?]
  | cons s rest ih =>
      rw [firstProblem?]
      cases hs : walk.problem? labels s with
      | some found =>
          constructor
          · intro hfound
            cases hfound
            exact ⟨0, ⟨s, rfl, hs⟩, fun j hj => absurd hj (Nat.not_lt_zero j)⟩
          · rintro ⟨i, ⟨u, hu, hproblem⟩, hbefore⟩
            cases i with
            | zero =>
                cases hu
                exact hs.symm.trans hproblem
            | succ i =>
                -- the first statement would have to be right, but it is not
                have hnone := hbefore 0 (Nat.succ_pos i) s rfl
                cases hs.symm.trans hnone
      | none =>
          rw [Option.none_or, ih]
          constructor
          · rintro ⟨i, hi, hbefore⟩
            refine ⟨i + 1, hi, ?_⟩
            intro j hj u hu
            cases j with
            | zero =>
                cases hu
                exact hs
            | succ j => exact hbefore j (Nat.lt_of_succ_lt_succ hj) u hu
          · rintro ⟨i, ⟨u, hu, hproblem⟩, hbefore⟩
            cases i with
            | zero =>
                cases hu
                cases hs.symm.trans hproblem
            | succ i =>
                exact ⟨i, ⟨u, hu, hproblem⟩,
                  fun j hj v hv => hbefore (j + 1) (Nat.succ_lt_succ hj) v hv⟩

theorem firstProblem?_eq_none_iff :
    walk.firstProblem? labels statements = none ↔
      ∀ i s, statements[i]? = some s →
        ((statements.take i).foldl step walk).problem? labels s = none := by
  induction statements generalizing walk with
  | nil => simp [firstProblem?]
  | cons s rest ih =>
      rw [firstProblem?, Option.or_eq_none_iff, ih]
      constructor
      · rintro ⟨hs, hrest⟩ i u hu
        cases i with
        | zero =>
            cases hu
            exact hs
        | succ i => exact hrest i u hu
      · intro hall
        exact ⟨hall 0 s rfl, fun i u hu => hall (i + 1) u hu⟩

end FlatWalk

/-! ## Labels that are defined -/

/-- A label is defined nowhere, or there is a last definition of it. -/
theorem Statement.exists_last_label (name : String) (statements : List Statement) :
    (∀ s ∈ statements, ∀ tag, s ≠ .label tag name) ∨
      ∃ before tag after, statements = before ++ .label tag name :: after ∧
        ∀ s ∈ after, ∀ tag, s ≠ .label tag name := by
  induction statements with
  | nil => exact Or.inl (List.forall_mem_nil _)
  | cons s rest ih =>
      rcases ih with hnowhere | ⟨before, tag, after, rfl, hafter⟩
      · by_cases hs : ∃ tag, s = .label tag name
        · obtain ⟨tag, rfl⟩ := hs
          exact Or.inr ⟨[], tag, rest, rfl, hnowhere⟩
        · exact Or.inl (List.forall_mem_cons.2 ⟨fun tag htag => hs ⟨tag, htag⟩, hnowhere⟩)
      · exact Or.inr ⟨s :: before, tag, after, rfl, hafter⟩

theorem FlatWalk.across_labels_nowhere {name : String} {statements : List Statement}
    (hnowhere : ∀ s ∈ statements, ∀ tag, s ≠ .label tag name) :
    (across statements).labels[name]? = none := by
  rw [across, foldl_step_labels_of_ne hnowhere]
  simp [start]

/-- The statement at an index has something wrong with its reference: it uses a label that is
defined nowhere, or it branches to a label whose last definition is too far away. -/
inductive Statement.Misrefers (statements : List Statement) (i : Nat) : Error → Prop
  | undefined (s : Statement) (r : Reference) (hs : statements[i]? = some s)
      (hr : s.reference? = some r) (hnowhere : ∀ u ∈ statements, ∀ tag, u ≠ .label tag r.name) :
      Misrefers statements i (.problem (.unknownLabel r.name) r.tag)
  | tooFar (s : Statement) (r : Reference) (before after : List Statement) (tag : Option Tag)
      (distance : Int) (hs : statements[i]? = some s) (hr : s.reference? = some r)
      (hrelative : r.relative = true) (hlast : statements = before ++ .label tag r.name :: after)
      (hafter : ∀ u ∈ after, ∀ tag, u ≠ .label tag r.name)
      (hdistance : distance = Reference.distance (FlatWalk.across (statements.take i)).cursor
        (FlatWalk.across before).cursor)
      (hfar : distance < -128 ∨ 127 < distance) :
      Misrefers statements i (.problem (.branchRange r.name distance) r.tag)

/-- What the walk finds wrong with a reference is wrong with it. -/
theorem Statement.misrefers_iff {statements : List Statement} {i : Nat} {e : Error} :
    Misrefers statements i e ↔
      ∃ s, statements[i]? = some s ∧ (FlatWalk.across (statements.take i)).problem?
        (FlatWalk.across statements).labels s = some e := by
  constructor
  · intro h
    cases h with
    | undefined s r hs hr hnowhere =>
        refine ⟨s, hs, ?_⟩
        have hname := FlatWalk.across_labels_nowhere hnowhere
        simp only [FlatWalk.problem?, hr, Option.bind_some, Reference.problem?, hname]
    | tooFar s r before after tag distance hs hr hrelative hlast hafter hdistance hfar =>
        refine ⟨s, hs, ?_⟩
        subst hlast
        simp only [FlatWalk.problem?, hr, Option.bind_some, Reference.problem?,
          FlatWalk.across_labels_last hafter, ← hdistance, hrelative, hfar, and_self, if_true]
  · rintro ⟨s, hs, hproblem⟩
    obtain ⟨r, hr, hproblem⟩ := Option.bind_eq_some_iff.1 hproblem
    -- the walk knows a label by its last definition, if there is one
    rcases exists_last_label r.name statements with
      hnowhere | ⟨before, tag, after, rfl, hafter⟩
    · simp only [Reference.problem?, FlatWalk.across_labels_nowhere hnowhere] at hproblem
      cases hproblem
      exact .undefined s r hs hr hnowhere
    · simp only [Reference.problem?, FlatWalk.across_labels_last hafter] at hproblem
      split at hproblem
      · next hfar =>
          cases hproblem
          exact .tooFar s r before after tag _ hs hr hfar.1 rfl hafter rfl hfar.2
      · cases hproblem

theorem Statement.forall_not_misrefers_iff {statements : List Statement} {i : Nat} :
    (∀ e, ¬ Misrefers statements i e) ↔
      ∀ s, statements[i]? = some s → (FlatWalk.across (statements.take i)).problem?
        (FlatWalk.across statements).labels s = none := by
  constructor
  · intro hnone s hs
    apply Option.eq_none_iff_forall_ne_some.2
    intro e hproblem
    exact hnone e (misrefers_iff.2 ⟨s, hs, hproblem⟩)
  · intro hnone e hwrong
    obtain ⟨s, hs, hproblem⟩ := misrefers_iff.1 hwrong
    cases (hnone s hs).symm.trans hproblem

theorem FlatWalk.start_firstProblem?_eq_some_iff {statements : List Statement} {e : Error} :
    start.firstProblem? (across statements).labels statements = some e ↔
      ∃ i, Statement.Misrefers statements i e ∧
        ∀ j < i, ∀ e', ¬ Statement.Misrefers statements j e' := by
  simp only [Statement.forall_not_misrefers_iff]
  simp only [Statement.misrefers_iff]
  exact firstProblem?_eq_some_iff

theorem FlatWalk.start_firstProblem?_eq_none_iff {statements : List Statement} :
    start.firstProblem? (across statements).labels statements = none ↔
      ∀ i e, ¬ Statement.Misrefers statements i e := by
  simp only [Statement.forall_not_misrefers_iff]
  exact firstProblem?_eq_none_iff

/-! ## The order of failures -/

namespace Program

variable {good : Tag → Prop} {statements : List Statement} {program : Program}

/-- The layout of statements that fit is stopped by their first problem, and by nothing else. -/
theorem layout_labels_eq (hform : ∀ s ∈ statements, s.WellFormed good)
    (hbuild : ofStatements statements = .ok program) (hsize : size program ≤ capacity) :
    (layout program).labels =
      match FlatWalk.start.firstProblem? (FlatWalk.across statements).labels statements with
      | some e => .error e
      | none => .ok (FlatWalk.across statements).labels := by
  have hsound := ofStatements_sound hform hbuild
  obtain ⟨-, hall⟩ := ofStatements_ok hbuild
  have hlabels : Piece.bindings 0 ∅ (pieces program) = (FlatWalk.across statements).labels := by
    rw [FlatWalk.across_eq_pass hbuild]
    rfl
  have hfirst := @FlatWalk.findSome?_settleError?_listing (FlatWalk.across statements).labels
    FlatWalk.start statements good hform hall
  rw [← hfirst]
  have hlayout := layout_eq hsound hsize
  rw [hlabels, listing_pieces hbuild] at hlayout
  rcases hlayout with ⟨hok, -, hsettles⟩ | ⟨e, herror, hstop⟩
  · have hnone : (Piece.listing 0 (statements.filterMap Statement.piece?)).findSome?
        (Chunk.settleError? (FlatWalk.across statements).labels) = none :=
      List.findSome?_eq_none_iff.2 fun site hsite => (hsettles site hsite).settleError?_eq
    rw [hok]
    simp only [FlatWalk.start, hnone]
  · rw [herror]
    simp only [FlatWalk.start, hstop]

theorem layout_eq_error_iff (hform : ∀ s ∈ statements, s.WellFormed good)
    (hbuild : ofStatements statements = .ok program) (hsize : size program ≤ capacity)
    {e : Error} :
    (layout program).labels = .error e ↔
      ∃ i, Statement.Misrefers statements i e ∧
        ∀ j < i, ∀ e', ¬ Statement.Misrefers statements j e' := by
  rw [layout_labels_eq hform hbuild hsize, ← FlatWalk.start_firstProblem?_eq_some_iff]
  cases FlatWalk.start.firstProblem? (FlatWalk.across statements).labels statements with
  | some found => simp
  | none => simp

theorem layout_ok_iff (hform : ∀ s ∈ statements, s.WellFormed good)
    (hbuild : ofStatements statements = .ok program) (hsize : size program ≤ capacity) :
    (∃ labels, (layout program).labels = .ok labels) ↔
      ∀ i e, ¬ Statement.Misrefers statements i e := by
  rw [layout_labels_eq hform hbuild hsize, ← FlatWalk.start_firstProblem?_eq_none_iff]
  cases FlatWalk.start.firstProblem? (FlatWalk.across statements).labels statements with
  | some found => simp
  | none => simp

/-- A program is refused for its size exactly if its statements are too large, whatever else is
wrong with them. -/
theorem layout_eq_capacity_iff (hform : ∀ s ∈ statements, s.WellFormed good)
    (hbuild : ofStatements statements = .ok program) :
    (layout program).labels = .error (.problem .capacity none) ↔ capacity < size program := by
  constructor
  · intro herror
    apply Int.not_le.1
    intro hsize
    -- a program of the right size fails only for its references, never for its size
    obtain ⟨i, hwrong, -⟩ := (layout_eq_error_iff hform hbuild hsize).1 herror
    cases hwrong
  · exact layout_of_too_large (ofStatements_fitting hbuild)

/-- A statement that stands alone is built as it is among others. -/
theorem ofStatements_singleton_eq_error_iff {s : Statement} {e : Error} :
    ofStatements [s] = .error e ↔ s.buildError? = some e := by
  rw [ofStatements_eq_error_iff, List.findSome?_cons]
  cases s.buildError? <;> simp

theorem ofStatements_singleton_ok_iff {s : Statement} :
    (∃ program, ofStatements [s] = .ok program) ↔ s.buildError? = none := by
  cases hbuild : ofStatements [s] with
  | ok program =>
      have hnone : s.buildError? = none := by
        apply Option.eq_none_iff_forall_ne_some.2
        intro e he
        rw [ofStatements_singleton_eq_error_iff.2 he] at hbuild
        cases hbuild
      simp [hnone]
  | error e => simp [ofStatements_singleton_eq_error_iff.1 hbuild]

end Program

/-- What stops an assembly of a text, exactly.  Building stops if and only if a statement cannot
be built on its own, with the failure of the first such statement.  Then the layout stops because
of the size if and only if the statements ask for more than 65535 bytes, whatever else is wrong.
Otherwise it stops with the failure of the first statement that uses a label which is defined
nowhere, or branches to one that is too far away; and if there is none, it succeeds. -/
theorem assembly_stops_at_first_failure {unit : Int} {text : List Char}
    {statements : List Statement} (hparse : Statement.parse unit text = .ok statements) :
    ((∃ e, Program.ofStatements statements = .error e) ↔
        ∃ s ∈ statements, ∃ e, Program.ofStatements [s] = .error e) ∧
      (∀ e, Program.ofStatements statements = .error e ↔
        ∃ front s back, statements = front ++ s :: back ∧ Program.ofStatements [s] = .error e ∧
          ∀ u ∈ front, ∃ program, Program.ofStatements [u] = .ok program) ∧
      ∀ program, Program.ofStatements statements = .ok program →
        ((Program.layout program).labels = .error (.problem .capacity none) ↔
          0xFFFF < (statements.map Statement.size).sum) ∧
        ((statements.map Statement.size).sum ≤ 0xFFFF →
          (∀ e, (Program.layout program).labels = .error e ↔
            ∃ i, Statement.Misrefers statements i e ∧
              ∀ j < i, ∀ e', ¬ Statement.Misrefers statements j e') ∧
          ((∃ labels, (Program.layout program).labels = .ok labels) ↔
            ∀ i e, ¬ Statement.Misrefers statements i e)) := by
  have hform := Statement.parse_wellFormed hparse
  refine ⟨?_, ?_, ?_⟩
  · simp only [Program.ofStatements_singleton_eq_error_iff]
    simp only [Program.ofStatements_eq_error_iff, ← Option.isSome_iff_exists]
    exact List.findSome?_isSome_iff
  · intro e
    simp only [Program.ofStatements_singleton_eq_error_iff, Program.ofStatements_singleton_ok_iff]
    rw [Program.ofStatements_eq_error_iff]
    exact List.findSome?_eq_some_iff
  · intro program hbuild
    have hsize := Program.size_of_statements hbuild
    refine ⟨?_, fun hfits => ⟨fun e => ?_, ?_⟩⟩
    · rw [Program.layout_eq_capacity_iff hform hbuild, hsize]
      rfl
    · exact Program.layout_eq_error_iff hform hbuild (hsize ▸ hfits)
    · exact Program.layout_ok_iff hform hbuild (hsize ▸ hfits)

/-- Two failures in one text: a branch that leads too far, and behind it a vector to a label that is
defined nowhere. -/
theorem far_branch_stops_before_missing_label :
    ∃ statements program,
      Statement.parse 0 ".org $1000\nbeq x\n.vector y\n.org $2000\nx: nop".toList =
        .ok statements ∧
      Program.ofStatements statements = .ok program ∧
      Statement.Misrefers statements 2 (.problem (.unknownLabel "y") (some ⟨0, 17⟩)) ∧
      (Program.layout program).labels =
        .error (.problem (.branchRange "x" 0xFFE) (some ⟨0, 15⟩)) := by
  let branch : Statement :=
    .instruction (some ⟨0, 11⟩) "beq" (.plain .address (.name (some ⟨0, 15⟩) "x"))
  let before : List Statement :=
    [.org (some ⟨0, 0⟩) ⟨.word, 0x1000⟩, branch, .vector (some ⟨0, 17⟩) "y",
      .org (some ⟨0, 27⟩) ⟨.word, 0x2000⟩]
  let after : List Statement := [.instruction (some ⟨0, 41⟩) "nop" .none]
  let statements : List Statement := before ++ .label (some ⟨0, 38⟩) "x" :: after
  have hparse : Statement.parse 0 ".org $1000\nbeq x\n.vector y\n.org $2000\nx: nop".toList =
      .ok statements := rfl
  have hrun : (Program.ofStatements statements).isOk = true := by decide +kernel
  obtain ⟨program, hbuild⟩ := ok_of_isOk hrun
  have hmissing : Statement.Misrefers statements 2
      (.problem (.unknownLabel "y") (some ⟨0, 17⟩)) := by
    refine .undefined _ ⟨"y", some ⟨0, 17⟩, false⟩ rfl rfl ?_
    intro u hu tag
    simp only [statements, before, after, branch, List.cons_append, List.nil_append, List.mem_cons,
      List.not_mem_nil, or_false] at hu
    rcases hu with rfl | rfl | rfl | rfl | rfl | rfl <;> simp
  have hfar : Statement.Misrefers statements 1
      (.problem (.branchRange "x" 0xFFE) (some ⟨0, 15⟩)) := by
    refine .tooFar branch ⟨"x", some ⟨0, 15⟩, true⟩ before after _ _ rfl rfl rfl rfl ?_ ?_ ?_
    · intro u hu tag
      rw [List.mem_singleton.1 hu]
      exact Statement.noConfusion
    · decide +kernel
    · decide
  have hfirst : ∀ j < 1, ∀ e, ¬ Statement.Misrefers statements j e := by
    intro j hj e hwrong
    obtain rfl : j = 0 := by omega
    cases hwrong with
    | undefined s r hs hr =>
        cases hs
        cases hr
    | tooFar s r _ _ _ _ hs hr =>
        cases hs
        cases hr
  obtain ⟨-, -, hlayouts⟩ := assembly_stops_at_first_failure hparse
  obtain ⟨-, hfits⟩ := hlayouts program hbuild
  obtain ⟨herrors, -⟩ := hfits (by decide +kernel)
  exact ⟨statements, program, hparse, hbuild, hmissing, (herrors _).2 ⟨1, hfar, hfirst⟩⟩

end Asm65
