import Asm65.Proofs.Sessions

/-!
# Images and source maps of sessions

What a session assembles can be read off its statements: where the image has the bytes of an
instruction that the source map tells about, and whether there is an image at all.
-/

namespace Asm65

/-! ## The instructions of a flat walk -/

/-- Whether a statement is an instruction. -/
def Statement.isInstruction : Statement → Bool
  | .instruction _ _ _ => true
  | _ => false

theorem Statement.eq_of_isInstruction {s : Statement} (h : s.isInstruction = true) :
    ∃ tag mnemonic operand, s = .instruction tag mnemonic operand := by
  cases s with
  | instruction tag mnemonic operand => exact ⟨tag, mnemonic, operand, rfl⟩
  | _ => cases h

namespace FlatWalk

theorem step_instructions {walk : FlatWalk} {s : Statement} (h : s.isInstruction = false) :
    (walk.step s).instructions = walk.instructions := by
  cases s <;> first | rfl | cases h

theorem foldl_step_instructions (walk : FlatWalk) (statements : List Statement) :
    walk.instructions <+: (statements.foldl step walk).instructions := by
  induction statements generalizing walk with
  | nil => exact List.prefix_refl _
  | cons s rest ih =>
      refine List.IsPrefix.trans ?_ (ih (walk.step s))
      cases s with
      | instruction tag mnemonic operand => exact List.prefix_append _ _
      | _ => exact List.prefix_refl _

/-- An instruction that a walk finds among some statements is one of them. -/
theorem foldl_step_getElem? {walk : FlatWalk} {statements : List Statement} {i : Nat}
    {entry : MapEntry}
    (h : (statements.foldl step walk).instructions[walk.instructions.length + i]? = some entry) :
    ∃ before after mnemonic operand,
      statements = before ++ .instruction entry.tag mnemonic operand :: after ∧
      before.countP Statement.isInstruction = i ∧
      entry.address = (before.foldl step walk).cursor := by
  induction statements generalizing walk i with
  | nil =>
      rw [List.foldl_nil, List.getElem?_eq_none (Nat.le_add_right _ _)] at h
      cases h
  | cons s rest ih =>
      rw [List.foldl_cons] at h
      cases hs : s.isInstruction with
      | false =>
          rw [← @step_instructions walk s hs] at h
          obtain ⟨before, after, mnemonic, operand, rfl, hcount, haddress⟩ := ih h
          exact ⟨s :: before, after, mnemonic, operand, rfl, by simpa [hs] using hcount, haddress⟩
      | true =>
          obtain ⟨tag, mnemonic, operand, rfl⟩ := Statement.eq_of_isInstruction hs
          generalize hnext : walk.step (.instruction tag mnemonic operand) = next at h
          have hfound : next.instructions = walk.instructions ++ [⟨walk.cursor, tag⟩] := by
            rw [← hnext]
            rfl
          cases i with
          | zero =>
              -- the walk has appended the entry, and nothing changes it later
              obtain ⟨more, hmore⟩ := foldl_step_instructions next rest
              rw [← hmore, hfound, List.append_assoc, Nat.add_zero,
                List.getElem?_append_right (Nat.le_refl _), Nat.sub_self] at h
              cases h
              exact ⟨[], rest, mnemonic, operand, rfl, rfl, rfl⟩
          | succ i =>
              have hlength : walk.instructions.length + (i + 1) = next.instructions.length + i := by
                rw [hfound, List.length_append, List.length_singleton]
                omega
              rw [hlength] at h
              obtain ⟨before, after, mnemonic', operand', rfl, hcount, haddress⟩ := ih h
              refine ⟨_ :: before, after, mnemonic', operand', rfl, ?_, ?_⟩
              · rw [List.countP_cons, hcount]
                rfl
              · rw [haddress, ← hnext]
                rfl

end FlatWalk

/-! ## Outcomes -/

/-- There is an image exactly if the bytes of the statements, with the zeros between them, fit in
the address space; otherwise the image is too large. -/
theorem Program.image_outcome {good : Tag → Prop} {statements : List Statement}
    {program : Program} {labels : Labels} (hform : ∀ s ∈ statements, s.WellFormed good)
    (hbuild : Program.ofStatements statements = .ok program)
    (hlayout : (Program.layout program).labels = .ok labels) :
    ((ImageWalk.across (Statement.imageStart statements) statements).size ≤ addressSpace ∧
        ∃ code, Program.image (Program.layout program).program = .ok code) ∨
      (addressSpace < (ImageWalk.across (Statement.imageStart statements) statements).size ∧
        ∃ n, Program.image (Program.layout program).program = .error (.imageTooLarge n)) := by
  obtain ⟨-, hfits, hover⟩ := Program.image_statements hform hbuild hlayout
  rcases Nat.lt_or_ge addressSpace
    (ImageWalk.across (Statement.imageStart statements) statements).size with hlarge | hsmall
  · obtain ⟨n, -, hn⟩ := hover hlarge
    exact Or.inr ⟨hlarge, n, hn⟩
  · exact Or.inl ⟨hsmall, _, hfits hsmall⟩

namespace Session

variable {session : Session}

/-- What an assembly that succeeds has gone through. -/
theorem assemble_ok {output : Output} (h : session.assemble.2 = .ok output) :
    ∃ program, Program.ofStatements session.statements = .ok program ∧
      (Program.layout program).labels = .ok output.labels ∧
      Program.image (Program.layout program).program = .ok output.code ∧
      output.statements = session.statements ∧
      output.program = (Program.layout program).program := by
  unfold assemble at h
  split at h
  · cases h
  · next program hbuild =>
      simp only at h
      split at h
      · cases h
      · next labels hlayout =>
          split at h
          · cases h
          · next code himage =>
              cases h
              exact ⟨program, hbuild, hlayout, himage, rfl, rfl⟩

/-- The statements of a session can be built and laid out. -/
def LaysOut (session : Session) : Prop :=
  ∃ program labels, Program.ofStatements session.statements = .ok program ∧
    (Program.layout program).labels = .ok labels

/-- How large the image of a session has to be. -/
def extent (session : Session) : Nat :=
  (ImageWalk.across (Statement.imageStart session.statements) session.statements).size

/-- The assembly of a session that came about by reading ends in one of three ways. -/
theorem Reachable.assemble_outcome (hreach : session.Reachable) :
    (session.LaysOut ∧ session.extent ≤ addressSpace ∧
        ∃ output, session.assemble.2 = .ok output) ∨
      (session.LaysOut ∧ addressSpace < session.extent ∧
        ∃ n, session.assemble.2 = .error (.fault (.imageTooLarge n))) ∨
      (¬ session.LaysOut ∧ ∃ message problem tag,
        session.assemble.2 = .error (.problem message problem tag)) := by
  have hcovered := hreach.covered
  unfold assemble
  cases hbuild : Program.ofStatements session.statements with
  | error e =>
      right; right
      refine ⟨?_, ?_⟩
      · rintro ⟨program, labels, hok, -⟩
        rw [hbuild] at hok
        cases hok
      · have hlocated := Program.ofStatements_located hcovered hbuild
        obtain ⟨message, problem, tag, hfailure⟩ := ofError_located (Or.inr hlocated)
        exact ⟨message, problem, tag, congrArg Except.error hfailure⟩
  | ok program =>
      simp only
      cases hlayout : (Program.layout program).labels with
      | error e =>
          right; right
          refine ⟨?_, ?_⟩
          · rintro ⟨built, labels, hok, hlabels⟩
            rw [hbuild] at hok
            cases hok
            rw [hlayout] at hlabels
            cases hlabels
          · have herror := Program.layout_error (Program.ofStatements_sound hcovered hbuild) hlayout
            obtain ⟨message, problem, tag, hfailure⟩ := ofError_located herror
            exact ⟨message, problem, tag, congrArg Except.error hfailure⟩
      | ok labels =>
          have hlays : session.LaysOut := ⟨program, labels, hbuild, hlayout⟩
          rcases Program.image_outcome hcovered hbuild hlayout with
            ⟨hfits, code, hcode⟩ | ⟨hover, n, hn⟩
          · left
            simp only [hcode]
            exact ⟨hlays, hfits, _, rfl⟩
          · right; left
            simp only [hn]
            exact ⟨hlays, hover, n, rfl⟩

end Session

/-! ## The image and the source map -/

/-- The bytes of an instruction: its opcode, then its operand with the lowest byte first. -/
def Opcode.bytes (code : Opcode) (value : OperandValue) : Bytes :=
  UInt8.ofNat code.value.toNat :: Bytes.littleEndian value.width.toNat value.value.toNat

namespace Program

variable {good : Tag → Prop} {front back : List Statement} {program : Program} {labels : Labels}
  {tag : Option Tag} {mnemonic : String} {operand : Operand} {code : Bytes}

/-- The image has the bytes of an instruction behind those of the statements in front of it, and
this is the place of its address exactly if the walk in front of it is aligned. -/
theorem image_instruction
    (hform : ∀ u ∈ front ++ .instruction tag mnemonic operand :: back, u.WellFormed good)
    (hbuild : ofStatements (front ++ .instruction tag mnemonic operand :: back) = .ok program)
    (hlayout : (layout program).labels = .ok labels)
    (himage : image (layout program).program = .ok code) :
    ∃ opcode param mode value,
      Chunk.ofInstruction tag mnemonic operand = .ok (.op tag opcode param 0) ∧
      param.resolve labels (FlatWalk.across front).cursor = .ok (.resolved mode value) ∧
      opcode.bytes value <+:
        code.drop (ImageWalk.across (origin (layout program).program) front).size ∧
      ((ImageWalk.across (origin (layout program).program) front).aligned = true ↔
        (ImageWalk.across (origin (layout program).program) front).size =
          (((FlatWalk.across front).cursor - origin (layout program).program) %
            0x10000).toNat) := by
  obtain ⟨-, hall⟩ := ofStatements_ok hbuild
  obtain ⟨added, hpiece⟩ := hall _ (List.mem_append_right front List.mem_cons_self)
  obtain ⟨c, hc, hadded⟩ := bind_ok_inv hpiece
  cases hadded
  obtain ⟨-, -, param, opcode, -, -, -, -, -, rfl⟩ := Chunk.ofInstruction_eq_ok hc
  obtain ⟨-, hsettles, hsound⟩ := layout_getElem? hform hbuild hlayout hpiece
  obtain ⟨resolved, hresolved, hsettled⟩ := Chunk.settledAt_op hsettles
  obtain ⟨-, hcode, -, hparam, -⟩ := hsound
  obtain ⟨value, rfl, hfits, -⟩ := Param.resolve_ok hparam hresolved
  obtain ⟨hplace, hbound⟩ := image_statement hform hbuild hlayout himage hpiece
  rw [hsettled, Chunk.data_of_encode (Chunk.encode_op hcode hfits)] at hplace
  rw [origin_layout hform hbuild hlayout]
  refine ⟨opcode, param, param.mode, value, hc, hresolved, hplace, ?_⟩
  have hagrees := @ImageWalk.agrees_across front back (.instruction tag mnemonic operand) rfl
  have hpos := hcode.length_pos
  unfold ImageWalk.Agrees at hagrees
  rw [hagrees]
  simp only [Chunk.size, addressSpace] at hbound
  omega

end Program

/-- The image agrees with the source map up to moves that lead back.  Every entry of the source
map belongs to an instruction, and the image has the encoding of this instruction right behind
the bytes of the statements in front of it.  This is at the distance of the address from the origin,
modulo the address space, exactly if the last move in front of the instruction did not lead back
over bytes already written. -/
theorem image_has_mapped_instructions {session : Session} {output : Output} {i : Nat}
    {entry : MapEntry} (hreach : session.Reachable) (hdone : session.assemble.2 = .ok output)
    (hentry : output.mapEntries[i]? = some entry) :
    ∃ before after mnemonic operand opcode param mode value,
      output.statements = before ++ .instruction entry.tag mnemonic operand :: after ∧
      before.countP Statement.isInstruction = i ∧
      entry.address = (FlatWalk.across before).cursor ∧
      Chunk.ofInstruction entry.tag mnemonic operand = .ok (.op entry.tag opcode param 0) ∧
      param.resolve output.labels entry.address = .ok (.resolved mode value) ∧
      Opcode.bytes opcode value <+:
        output.code.drop (ImageWalk.across output.origin before).size ∧
      ((ImageWalk.across output.origin before).aligned = true →
        Opcode.bytes opcode value <+:
          output.code.drop ((entry.address - output.origin) % 0x10000).toNat) ∧
      ((ImageWalk.across output.origin before).aligned = true ↔
        (ImageWalk.across output.origin before).size =
          ((entry.address - output.origin) % 0x10000).toNat) := by
  obtain ⟨program, hbuild, hlayout, himage, hstatements, hprogram⟩ := Session.assemble_ok hdone
  have hform := hreach.covered
  unfold Session.Covered at hform
  obtain ⟨hentries, -⟩ := Program.layout_eq_across hform hbuild hlayout
  rw [Output.mapEntries, hprogram, hentries] at hentry
  rw [Output.origin, hstatements, hprogram]
  obtain ⟨before, after, mnemonic, operand, hsplit, hcount, haddress⟩ :=
    @FlatWalk.foldl_step_getElem? FlatWalk.start session.statements i entry
      (by rw [← hentry]; simp [FlatWalk.across, FlatWalk.start])
  rw [hsplit] at hform hbuild
  obtain ⟨opcode, param, mode, value, hc, hresolved, hplace, haligned⟩ :=
    Program.image_instruction hform hbuild hlayout himage
  have hcursor : entry.address = (FlatWalk.across before).cursor := haddress
  rw [← hcursor] at hresolved haligned
  refine ⟨before, after, mnemonic, operand, opcode, param, mode, value, hsplit, hcount, hcursor, hc,
    hresolved, hplace, ?_, haligned⟩
  intro haligns
  rwa [← haligned.1 haligns]

/-- A session that has read one text, and nothing else. -/
def Session.ofText (text : String) : Session :=
  ((Session.start []).addText ⟨[], []⟩ inputName text.toList).session

/-- An instruction behind a gap. -/
theorem mapped_instruction_behind_gap :
    ∃ session output, session = Session.ofText ".org $8000\nnop\n.org $8004\nrts" ∧
      session.Reachable ∧ session.assemble.2 = .ok output ∧
      output.mapEntries[1]? = some ⟨0x8004, some ⟨0, 26⟩⟩ ∧
      [0x60] <+: output.code.drop 4 := by
  let session := Session.ofText ".org $8000\nnop\n.org $8004\nrts"
  have hreach : session.Reachable := .addText _ _ _ (.start [])
  have hrun : session.assemble.2.toOption.map
      (fun output => (output.statements, output.mapEntries, output.origin)) =
      some ([.org (some ⟨0, 0⟩) ⟨.word, 0x8000⟩, .instruction (some ⟨0, 11⟩) "nop" .none,
        .org (some ⟨0, 15⟩) ⟨.word, 0x8004⟩, .instruction (some ⟨0, 26⟩) "rts" .none],
        [⟨0x8000, some ⟨0, 11⟩⟩, ⟨0x8004, some ⟨0, 26⟩⟩], 0x8000) := by decide +kernel
  cases hdone : session.assemble.2 with
  | error failure =>
      rw [hdone] at hrun
      cases hrun
  | ok output =>
      rw [hdone] at hrun
      obtain ⟨hstatements, hrest⟩ := Prod.mk.inj (Option.some.inj hrun)
      obtain ⟨hentries, horigin⟩ := Prod.mk.inj hrest
      have hentry : output.mapEntries[1]? = some ⟨0x8004, some ⟨0, 26⟩⟩ := by
        rw [hentries]
        rfl
      obtain ⟨before, after, mnemonic, operand, opcode, param, mode, value, hsplit, -, -, hmade,
        hresolved, -, hplace, -⟩ := image_has_mapped_instructions hreach hdone hentry
      refine ⟨session, output, rfl, hreach, hdone, hentry, ?_⟩
      rw [horigin] at hplace
      rw [hstatements] at hsplit
      -- the second instruction is the last of the four statements
      rcases before with _ | ⟨a, _ | ⟨b, _ | ⟨c, _ | ⟨d, rest⟩⟩⟩⟩
      · cases hsplit
      · cases hsplit
      · cases hsplit
      · cases hsplit
        cases hmade
        cases hresolved
        exact hplace rfl
      · simp at hsplit

/-- An instruction behind a move back: the image ends in front of the place of its address. -/
theorem moved_back_instruction_not_at_address :
    ∃ session output, session = Session.ofText ".org $9000\nnop\n.org $8000\nrts\n" ∧
      session.assemble.2 = .ok output ∧
      Statement.instruction (some ⟨0, 26⟩) "rts" .none ∈ output.statements ∧
      output.mapEntries[1]? = some ⟨0x8000, some ⟨0, 26⟩⟩ ∧
      output.code = [0xEA, 0x60] ∧
      output.code.drop ((0x8000 - output.origin) % 0x10000).toNat = [] := by
  let session := Session.ofText ".org $9000\nnop\n.org $8000\nrts\n"
  have hrun : session.assemble.2.toOption.map
      (fun output => (decide (.instruction (some ⟨0, 26⟩) "rts" .none ∈ output.statements),
        output.mapEntries, output.origin, output.code)) =
      some (true, [⟨0x9000, some ⟨0, 11⟩⟩, ⟨0x8000, some ⟨0, 26⟩⟩], 0x9000, [0xEA, 0x60]) := by
    decide +kernel
  cases hdone : session.assemble.2 with
  | error failure =>
      rw [hdone] at hrun
      cases hrun
  | ok output =>
      rw [hdone] at hrun
      obtain ⟨hmem, hrest⟩ := Prod.mk.inj (Option.some.inj hrun)
      obtain ⟨hentries, hrest⟩ := Prod.mk.inj hrest
      obtain ⟨horigin, hcode⟩ := Prod.mk.inj hrest
      refine ⟨session, output, rfl, hdone, of_decide_eq_true hmem, ?_, hcode, ?_⟩
      · rw [hentries]
        rfl
      · rw [horigin, hcode]
        rfl

/-! ## Whether there is an image -/

/-- Where the statements of a text can be built and laid out, there is an image exactly if their
bytes, with the zeros that lead over gaps, fit in the address space; otherwise the image is too
large.  So a session that came about by reading either has an output, or fails with a problem that
it tells about, or stops because of an image that is too large. -/
theorem image_fails_iff_too_large {unit : Int} {text : List Char} {statements : List Statement}
    {program : Program} {labels : Labels} (hparse : Statement.parse unit text = .ok statements)
    (hbuild : Program.ofStatements statements = .ok program)
    (hlayout : (Program.layout program).labels = .ok labels) :
    (((ImageWalk.across (Statement.imageStart statements) statements).size ≤ 0x10000 ∧
        ∃ code, Program.image (Program.layout program).program = .ok code) ∨
      (0x10000 < (ImageWalk.across (Statement.imageStart statements) statements).size ∧
        ∃ n, Program.image (Program.layout program).program = .error (.imageTooLarge n))) ∧
      ∀ session : Session, session.Reachable →
        (session.LaysOut ∧ session.extent ≤ 0x10000 ∧
            ∃ output, session.assemble.2 = .ok output) ∨
          (session.LaysOut ∧ 0x10000 < session.extent ∧
            ∃ n, session.assemble.2 = .error (.fault (.imageTooLarge n))) ∨
          (¬ session.LaysOut ∧ ∃ message problem tag,
            session.assemble.2 = .error (.problem message problem tag)) := by
  have hform := Statement.parse_wellFormed hparse
  exact ⟨Program.image_outcome hform hbuild hlayout, fun _ hreach => hreach.assemble_outcome⟩

/-- Three bytes with a gap between them that need one place more than there is. -/
theorem image_too_large_of_three_bytes :
    ∃ statements program labels,
      Statement.parse 0 ".byte 1\n.org $FFFF\n.byte 2, 3\n".toList = .ok statements ∧
      Program.ofStatements statements = .ok program ∧
      (Program.layout program).labels = .ok labels ∧
      (∃ n, Program.image (Program.layout program).program = .error (.imageTooLarge n)) ∧
      ∃ n, (Session.ofText ".byte 1\n.org $FFFF\n.byte 2, 3\n").assemble.2 =
        .error (.fault (.imageTooLarge n)) := by
  let session := Session.ofText ".byte 1\n.org $FFFF\n.byte 2, 3\n"
  let statements : List Statement :=
    [.bytes (some ⟨0, 0⟩) [⟨.byte, 1⟩], .org (some ⟨0, 8⟩) ⟨.word, 0xFFFF⟩,
      .bytes (some ⟨0, 19⟩) [⟨.byte, 2⟩, ⟨.byte, 3⟩]]
  have hparse :
      Statement.parse 0 ".byte 1\n.org $FFFF\n.byte 2, 3\n".toList = .ok statements := rfl
  have hread : session.statements = statements := by decide +kernel
  have hsize : (ImageWalk.across (Statement.imageStart statements) statements).size = 0x10001 := by
    decide +kernel
  have hrun : (do
      let program ← Program.ofStatements statements
      (Program.layout program).labels).isOk = true := by decide +kernel
  obtain ⟨labels, hrun⟩ := ok_of_isOk hrun
  obtain ⟨program, hbuild, hlayout⟩ := bind_ok_inv hrun
  obtain ⟨htext, hsession⟩ := image_fails_iff_too_large hparse hbuild hlayout
  refine ⟨statements, program, labels, hparse, hbuild, hlayout, ?_, ?_⟩
  · rcases htext with ⟨hfits, -⟩ | ⟨-, hfails⟩
    · rw [hsize] at hfits
      exact absurd hfits (by decide)
    · exact hfails
  · rcases hsession session (.addText _ _ _ (.start [])) with
      ⟨-, hfits, -⟩ | ⟨-, -, hfails⟩ | ⟨hno, -⟩
    · rw [Session.extent, hread, hsize] at hfits
      exact absurd hfits (by decide)
    · exact hfails
    · exact absurd ⟨program, labels, by rw [hread]; exact hbuild, hlayout⟩ hno

end Asm65
