import Asm65.Proofs.Layout

/-!
# What the layout relies on

A program that is built from statements, also from statements put together by hand, fits: every
instruction is the form that the instruction set has for its operation in the mode of its
parameter, and the parameter has the width of this form.  The passes of the layout keep this.  So
a layout never finds a parameter of the wrong width or an item of no known kind in such a program;
it fails only where the program itself is mistaken.
-/

namespace Asm65

/-! ## Parameters -/

namespace Param

theorem ofNumber_ne_unknown {tag : Option Tag} {number : Number} {modifier : Modifier}
    {mode : Mode} {param : Param} (h : ofNumber tag number modifier mode = .ok param) :
    param ≠ .unknown := by
  unfold ofNumber at h
  rintro rfl
  split at h
  · split at h <;> cases h
  · simp only at h
    split at h <;> cases h
  · cases h

theorem ofOperand_ne_unknown {operand : Operand} {param : Param}
    (h : ofOperand operand = .ok param) : param ≠ .unknown := by
  unfold ofOperand at h
  split at h
  · cases h
    nofun
  · simp only at h
    split at h
    · exact ofNumber_ne_unknown h
    · next tag name _ =>
        cases h
        cases (if operand.kind.takesModifier then operand.modifier else .none) <;> nofun
    · cases h

theorem withMode_ne_unknown {param : Param} (newMode : Mode) (h : param ≠ .unknown) :
    param.withMode newMode ≠ .unknown := by
  cases param with
  | unknown => exact absurd rfl h
  | resolved mode value => nofun
  | address mode tag name => nofun
  | lowByte mode tag name => nofun
  | highByte mode tag name => nofun

end Param

/-! ## References -/

/-- A use of a label. -/
structure Reference where
  name : String
  tag : Option Tag
  /-- Whether the distance to the label is meant. -/
  relative : Bool

namespace Reference

/-- The distance from behind a branch to its target, along the shorter way around the address
space. -/
def distance (position target : Int) : Int :=
  Int.bmod (target - (position + 2)) 0x10000

theorem branchOffset_eq_distance (position target : Int) :
    branchOffset position target = distance position target := by
  simp only [branchOffset, distance, wrap_eq, addressSpace, Int.bmod_def]
  omega

/-- What is wrong with a reference at a position: its label is missing, or too far away. -/
def problem? (labels : Labels) (position : Int) (r : Reference) : Option Error :=
  match labels[r.name]? with
  | none => some (.problem (.unknownLabel r.name) r.tag)
  | some target =>
      if r.relative ∧ (distance position target < -128 ∨ 127 < distance position target) then
        some (.problem (.branchRange r.name (distance position target)) r.tag)
      else none

end Reference

/-- The label that a parameter uses. -/
def Param.reference? : Param → Option Reference
  | .address mode tag name => some ⟨name, tag, mode = .pcRelative⟩
  | .lowByte _ tag name | .highByte _ tag name => some ⟨name, tag, false⟩
  | .resolved _ _ | .unknown => none

/-- The label that a chunk uses. -/
def Chunk.reference? : Chunk → Option Reference
  | .op _ _ param _ => param.reference?
  | .vector tag label _ => some ⟨label, tag, false⟩
  | .bytes _ | .unknown => none

/-- A parameter cannot be replaced exactly if something is wrong with its reference. -/
theorem Param.resolve_eq_error_iff {labels : Labels} {position : Int} {param : Param} {e : Error}
    (hknown : param ≠ .unknown) :
    param.resolve labels position = .error e ↔
      param.reference?.bind (·.problem? labels position) = some e := by
  cases param with
  | unknown => exact absurd rfl hknown
  | resolved mode value => simp [resolve, reference?]
  | address mode tag name =>
      simp only [resolve, reference?, Option.bind_some, Reference.problem?, Labels.find,
        Reference.branchOffset_eq_distance]
      cases labels[name]? with
      | none => simp [bind, Except.bind]
      | some target =>
          simp only [bind, Except.bind]
          by_cases hmode : mode = .pcRelative
          · by_cases hnear : -128 ≤ Reference.distance position target ∧
              Reference.distance position target ≤ 127
            · have hreach : ¬ (Reference.distance position target < -128 ∨
                  127 < Reference.distance position target) := by omega
              simp [hmode, hnear, hreach, pure, Except.pure]
            · have hfar : Reference.distance position target < -128 ∨
                  127 < Reference.distance position target := by omega
              simp [hmode, hnear, hfar]
          · simp [hmode, pure, Except.pure]
  | lowByte mode tag name | highByte mode tag name =>
      simp only [resolve, reference?, Option.bind_some, Reference.problem?, Labels.find]
      cases labels[name]? with
      | none => simp [bind, Except.bind]
      | some target => simp [bind, Except.bind, pure, Except.pure]

/-- A chunk cannot be settled exactly if something is wrong with its reference. -/
theorem Chunk.Fitting.settleError?_eq {labels : Labels} {address : Int} {c : Chunk}
    (hfit : c.Fitting) :
    Chunk.settleError? labels (address, c) = c.reference?.bind (·.problem? labels address) := by
  cases c with
  | op tag code param position =>
      obtain ⟨-, -, hknown⟩ := hfit
      simp only [Chunk.settleError?, Chunk.settle, Chunk.reference?]
      cases hresolve : param.resolve labels address with
      | ok resolved =>
          symm
          apply Option.eq_none_iff_forall_ne_some.2
          intro e he
          rw [(Param.resolve_eq_error_iff hknown).2 he] at hresolve
          cases hresolve
      | error e => exact ((Param.resolve_eq_error_iff hknown).1 hresolve).symm
  | bytes data => rfl
  | vector tag label value =>
      simp only [Chunk.settleError?, Chunk.settle, Chunk.reference?, Option.bind_some,
        Reference.problem?, Labels.find]
      cases labels[label]? with
      | none => rfl
      | some target => simp
  | unknown => exact hfit.elim

/-- The two things that can be wrong with a reference. -/
theorem Reference.problem?_eq_some {labels : Labels} {position : Int} {r : Reference} {e : Error}
    (h : r.problem? labels position = some e) :
    (labels[r.name]? = none ∧ e = .problem (.unknownLabel r.name) r.tag) ∨
      ∃ target, labels[r.name]? = some target ∧ r.relative = true ∧
        (distance position target < -128 ∨ 127 < distance position target) ∧
        e = .problem (.branchRange r.name (distance position target)) r.tag := by
  unfold problem? at h
  split at h
  · next hname =>
      cases h
      exact Or.inl ⟨hname, rfl⟩
  · next target hname =>
      split at h
      · next hfar =>
          cases h
          exact Or.inr ⟨target, hname, hfar.1, hfar.2, rfl⟩
      · cases h

theorem Param.mode_of_relative {param : Param} {r : Reference} (h : param.reference? = some r)
    (hrelative : r.relative = true) : param.mode = .pcRelative := by
  cases param with
  | address mode tag name =>
      cases h
      exact of_decide_eq_true hrelative
  | lowByte mode tag name | highByte mode tag name =>
      cases h
      cases hrelative
  | resolved mode value => cases h
  | unknown => cases h

/-- What replacing a label can come to: a value of the mode and the width that the parameter had,
or a failure because the label is missing, or because it is too far away from a branch. -/
theorem Param.resolve_outcome {param : Param} (hknown : param ≠ .unknown) (labels : Labels)
    (position : Int) :
    (∃ value, param.resolve labels position = .ok (.resolved param.mode value) ∧
        value.width = param.width) ∨
      ∃ r, param.reference? = some r ∧
        ((labels[r.name]? = none ∧
            param.resolve labels position = .error (.problem (.unknownLabel r.name) r.tag)) ∨
          ∃ target offset, labels[r.name]? = some target ∧ param.mode = .pcRelative ∧
            offset = Reference.distance position target ∧ (offset < -128 ∨ 127 < offset) ∧
            param.resolve labels position =
              .error (.problem (.branchRange r.name offset) r.tag)) := by
  cases hresolve : param.resolve labels position with
  | ok resolved =>
      obtain ⟨value, rfl, hwidth, -⟩ := resolve_eq_ok hresolve
      exact Or.inl ⟨value, rfl, hwidth⟩
  | error e =>
      obtain ⟨r, hr, hproblem⟩ := Option.bind_eq_some_iff.1
        ((resolve_eq_error_iff hknown).1 hresolve)
      refine Or.inr ⟨r, hr, ?_⟩
      rcases Reference.problem?_eq_some hproblem with
        ⟨hname, rfl⟩ | ⟨target, hname, hrelative, hfar, rfl⟩
      · exact Or.inl ⟨hname, rfl⟩
      · exact Or.inr ⟨target, _, hname, mode_of_relative hr hrelative, rfl, hfar, rfl⟩

/-! ## Built programs -/

theorem Statement.piece_fitting {s : Statement} {c : Chunk}
    (h : s.piece = .ok (some (.chunk c))) : c.Fitting := by
  cases adds_of_piece h with
  | instruction tag mnemonic operand code param hmade =>
      obtain ⟨operation, written, _, _, -, hwritten, hparam, hcode, hwidth, hop⟩ :=
        Chunk.ofInstruction_eq_ok hmade
      cases hop
      obtain ⟨rfl, -⟩ := Opcode.lookup?_eq_some hcode
      refine ⟨hcode, hwidth, ?_⟩
      have hknown := Param.ofOperand_ne_unknown hwritten
      rw [hparam]
      -- a branch takes its parameter over into another mode
      split
      · exact Param.withMode_ne_unknown _ hknown
      · exact hknown
  | bytes tag values data hlength => trivial
  | words tag values data hlength => trivial
  | vector tag label => trivial

namespace Program

/-- Every chunk of a program comes from a statement. -/
theorem exists_statement_of_mem_chunks {statements : List Statement} {program : Program}
    {c : Chunk} (h : ofStatements statements = .ok program) (hc : c ∈ chunks program) :
    ∃ s ∈ statements, s.piece = .ok (some (.chunk c)) := by
  obtain ⟨b, hb, hchunk⟩ := List.mem_flatMap.1 hc
  have hpiece : Piece.chunk c ∈ pieces program :=
    List.mem_flatMap.2 ⟨b, hb, List.mem_cons_of_mem _ (List.mem_map_of_mem hchunk)⟩
  rcases exists_statement_of_mem_pieces h hpiece with hopening | hstatement
  · cases hopening
  · exact hstatement

theorem ofStatements_fitting {statements : List Statement} {program : Program}
    (h : ofStatements statements = .ok program) : program.Fitting := by
  intro b hb c hc
  obtain ⟨s, -, hpiece⟩ := exists_statement_of_mem_chunks h (List.mem_flatMap.2 ⟨b, hb, hc⟩)
  exact Statement.piece_fitting hpiece

end Program

/-! ## The passes keep what they rely on -/

variable {labels : Labels}

theorem Chunk.Fitting.settle {position : Int} {c : Chunk} (hfit : c.Fitting) :
    (c.settle labels position).1.Fitting := by
  cases c with
  | op tag code param old =>
      obtain ⟨hcode, hwidth, hknown⟩ := hfit
      simp only [Chunk.settle]
      split
      · next resolved hresolve =>
          obtain ⟨value, rfl, hvalue, -⟩ := Param.resolve_eq_ok hresolve
          refine ⟨hcode, hvalue.trans hwidth, ?_⟩
          intro hunknown
          cases hunknown
      · exact ⟨hcode, hwidth, hknown⟩
  | bytes data => trivial
  | vector tag label value =>
      simp only [Chunk.settle]
      split <;> trivial
  | unknown => exact hfit.elim

namespace Program

variable {program : Program}

theorem Fitting.measured (hfit : program.Fitting) : (measured program).Fitting := by
  intro b hb
  obtain ⟨unmeasured, hmem, rfl⟩ := List.mem_map.1 hb
  exact hfit unmeasured hmem

theorem Fitting.placeFrom (hfit : program.Fitting) (placement : Placement) :
    Fitting (Block.placeFrom [] placement program).1 := by
  have hwalk := @forall_mem_walk _ _ _ Block.placeStep
    (fun b => ∀ c ∈ b.chunks, c.Fitting) (fun _ _ h => h) placement program hfit
  rwa [walk, Block.walkFrom_placeStep] at hwalk

theorem Fitting.settle (hfit : program.Fitting) :
    Fitting (walk (fun _ b => b.settle labels) () program).1 := by
  refine forall_mem_walk ?_ hfit
  intro _ b hchunks
  exact forall_mem_walk (fun _ _ => Chunk.Fitting.settle) hchunks

/-- The third pass stops only at a reference with something wrong. -/
theorem Fitting.settle_error {settled : Program} {e : Error} (hfit : program.Fitting)
    (h : walk (fun _ b => b.settle labels) () program = (settled, .error e)) :
    ∃ position, ∃ r : Reference, r.problem? labels position = some e := by
  -- the walk over the blocks stops in a block, and the walk over its chunks at a chunk
  obtain ⟨_, b, hb, hblock⟩ := walk_error (congrArg Prod.snd h)
  have hchunks := Block.settle_error (Prod.ext rfl hblock : b.settle labels = (_, .error e))
  obtain ⟨position, c, hc, hchunk⟩ := walk_error (congrArg Prod.snd hchunks)
  have hstop : Chunk.settleError? labels (position, c) = some e := by
    simp only [Chunk.settleError?, hchunk]
  rw [(hfit b hb c hc).settleError?_eq] at hstop
  obtain ⟨r, -, hproblem⟩ := Option.bind_eq_some_iff.1 hstop
  exact ⟨position, r, hproblem⟩

/-- The layout of a program that fits succeeds, or finds the program too large, or a reference
with something wrong. -/
theorem Fitting.layout_outcome (hfit : program.Fitting) :
    (∃ labels, (layout program).labels = .ok labels) ∨
      (layout program).labels = .error (.problem .capacity none) ∨
      ∃ labels position e, ∃ r : Reference, r.problem? labels position = some e ∧
        (layout program).labels = .error e := by
  rcases Int.lt_or_le capacity (size program) with hlarge | hsize
  · exact Or.inr (Or.inl (layout_of_too_large hfit hlarge))
  · obtain ⟨placed, settled, placement, found, hpasses⟩ :=
      exists_passes (measure_of_fits hfit hsize)
    have hplaces := hfit.measured.placeFrom .start
    rw [hpasses.hplace] at hplaces
    have hsettles := @Fitting.settle placement.labels _ hplaces
    rw [hpasses.hsettle] at hsettles
    rw [hpasses.layout_eq]
    cases found with
    | error e =>
        obtain ⟨position, r, hproblem⟩ := hplaces.settle_error hpasses.hsettle
        exact Or.inr (Or.inr ⟨placement.labels, position, e, r, hproblem, rfl⟩)
    | ok done =>
        simp only [finish, checkWidths_ok hsettles]
        exact Or.inl ⟨placement.labels, rfl⟩

end Program

/-- Programs that are built from statements, of a text or put together by hand, never break what
the layout relies on.  Every instruction comes from a statement with its operation, is the form of
the instruction set for this operation in the mode of its parameter, and has a parameter of the
width of this form.  For every table of labels, replacing its label gives a value of the same mode
and width, unless the label is not in the table or too far away from a branch.  So the layout
succeeds, or the program is too large, or uses a label that is missing, or branches too far. -/
theorem built_program_keeps_layout_contract {statements : List Statement} {program : Program}
    (hbuild : Program.ofStatements statements = .ok program) :
    (∀ tag code param position, Chunk.op tag code param position ∈ Program.chunks program →
      (∃ mnemonic operand, Statement.instruction tag mnemonic operand ∈ statements ∧
        Op.ofMnemonic? mnemonic = some code.op) ∧
      Opcode.lookup? code.op param.mode = some code ∧ param.width = code.length - 1 ∧
      ∀ labels address,
        (∃ value, param.resolve labels address = .ok (.resolved param.mode value) ∧
            value.width = param.width) ∨
          ∃ r, param.reference? = some r ∧
            ((labels[r.name]? = none ∧
                param.resolve labels address = .error (.problem (.unknownLabel r.name) r.tag)) ∨
              ∃ target offset, labels[r.name]? = some target ∧ param.mode = .pcRelative ∧
                offset = Reference.distance address target ∧ (offset < -128 ∨ 127 < offset) ∧
                param.resolve labels address =
                  .error (.problem (.branchRange r.name offset) r.tag))) ∧
      ((∃ labels, (Program.layout program).labels = .ok labels) ∨
        (Program.layout program).labels = .error (.problem .capacity none) ∨
        (∃ name place,
          (Program.layout program).labels = .error (.problem (.unknownLabel name) place)) ∨
        ∃ name offset place, (Program.layout program).labels =
          .error (.problem (.branchRange name offset) place)) := by
  refine ⟨?_, ?_⟩
  · intro tag code param position hmem
    obtain ⟨s, hs, hpiece⟩ := Program.exists_statement_of_mem_chunks hbuild hmem
    obtain ⟨hcode, hwidth, hknown⟩ := Statement.piece_fitting hpiece
    refine ⟨?_, hcode, hwidth, Param.resolve_outcome hknown⟩
    cases Statement.adds_of_piece hpiece with
    | instruction _ mnemonic operand _ _ hmade =>
        obtain ⟨operation, _, _, _, hmnemonic, -, -, hlookup, -, hop⟩ :=
          Chunk.ofInstruction_eq_ok hmade
        cases hop
        obtain ⟨rfl, -⟩ := Opcode.lookup?_eq_some hlookup
        exact ⟨mnemonic, operand, hs, hmnemonic⟩
  · rcases (Program.ofStatements_fitting hbuild).layout_outcome with
      hok | hlarge | ⟨labels, position, e, r, hproblem, herror⟩
    · exact Or.inl hok
    · exact Or.inr (Or.inl hlarge)
    · right; right
      rcases Reference.problem?_eq_some hproblem with ⟨-, rfl⟩ | ⟨target, -, -, -, rfl⟩
      · exact Or.inl ⟨r.name, r.tag, herror⟩
      · exact Or.inr ⟨r.name, _, r.tag, herror⟩

/-- Statements without places, with a branch that leads too far. -/
theorem far_branch_keeps_layout_contract :
    ∃ program code, Program.ofStatements
        [.label none "loop", .org none ⟨.word, 0x2000⟩,
          .instruction none "bne" (.plain .address (.name none "loop"))] = .ok program ∧
      Chunk.op none code (.address .pcRelative none "loop") 0 ∈ Program.chunks program ∧
      Opcode.lookup? .bne .pcRelative = some code ∧ code.length = 2 ∧
      (Program.layout program).labels = .error (.problem (.branchRange "loop" (-0x2002)) none) := by
  let code : Opcode := ⟨.bne, .pcRelative, 0xD0, 2⟩
  let branch : Chunk := .op none code (.address .pcRelative none "loop") 0
  let program : Program :=
    [⟨none, some "loop", [], 0⟩, ⟨some 0x2000, none, [branch], 0⟩]
  have hbuild : Program.ofStatements
      [.label none "loop", .org none ⟨.word, 0x2000⟩,
        .instruction none "bne" (.plain .address (.name none "loop"))] = .ok program := rfl
  have hbranch : branch ∈ Program.chunks program := List.mem_singleton.2 rfl
  obtain ⟨hchunks, houtcome⟩ := built_program_keeps_layout_contract hbuild
  obtain ⟨-, hcode, -, -⟩ := hchunks _ _ _ _ hbranch
  have hrun : (match (Program.layout program).labels with
      | .ok _ => none
      | .error e => some e) = some (.problem (.branchRange "loop" (-0x2002)) none) := by
    decide +kernel
  refine ⟨program, code, hbuild, hbranch, hcode, rfl, ?_⟩
  rcases houtcome with
    ⟨labels, hok⟩ | hlarge | ⟨name, place, hmissing⟩ | ⟨name, offset, place, hfar⟩
  · rw [hok] at hrun
    cases hrun
  · rw [hlarge] at hrun
    cases hrun
  · rw [hmissing] at hrun
    cases hrun
  · rw [hfar] at hrun
    cases hrun
    exact hfar

end Asm65
