import Asm65.Proofs.Branches

/-!
# Which form of an operation is taken

The syntax of an operand stands for at most one mode.  An instruction that is no conditional branch
is built exactly if the instruction set has its operation in this mode, and then it takes that form.
A conditional branch has only one form.  It is built whenever its operand gives one byte: what the
operand looks like plays no part.
-/

namespace Asm65

/-! ## What operands look like -/

/-- How wide a term is written.  A label counts as a word. -/
def Term.width : Term → Width
  | .number _ n => n.width
  | .name _ _ => .word

namespace Operand

/-- The mode that the syntax of an operand stands for, if it stands for one. -/
def syntaxMode? (operand : Operand) : Option Mode :=
  match operand.kind, operand.modifier, operand.term.map Term.width with
  | .none, .none, Option.none => some .implied
  | .immediate, .none, some .byte => some .immediate
  | .immediate, .lowByte, some .word => some .immediate
  | .immediate, .highByte, some .word => some .immediate
  | .address, .none, some .byte => some .zeroPage
  | .address, .none, some .word => some .absolute
  | .absoluteX, .none, some .byte => some .zeroPageX
  | .absoluteX, .none, some .word => some .absoluteX
  | .absoluteY, .none, some .byte => some .zeroPageY
  | .absoluteY, .none, some .word => some .absoluteY
  | .indirect, .none, some .word => some .indirect
  | .indirectX, .none, some .byte => some .preIndirectX
  | .indirectY, .none, some .byte => some .postIndirectY
  | _, _, _ => Option.none

/-- A literal that fits in no word, or a modifier on a byte. -/
def misusesLiteral (operand : Operand) : Bool :=
  match operand.term with
  | some (.number _ n) => n.width = .invalid ∨ (n.width = .byte ∧ operand.modifier ≠ .none)
  | _ => false

/-- What a branch is written with: an address as it stands that is a label or a byte. -/
def isBranchOperand (operand : Operand) : Bool :=
  match operand with
  | ⟨.address, .none, some (.name _ _)⟩ => true
  | ⟨.address, .none, some (.number _ n)⟩ => n.width = .byte
  | _ => false

/-- Whether an operand gives one byte when it is taken for a distance: a label in any shape, a byte,
or one half of a word. -/
def givesByte (operand : Operand) : Bool :=
  match operand.modifier, operand.term with
  | _, some (.name _ _) => true
  | .none, some (.number _ n) => n.width = .byte
  | _, some (.number _ n) => n.width = .word
  | _, Option.none => false

/-- An operand that misuses a literal stands for no mode. -/
theorem syntaxMode?_of_misusesLiteral {operand : Operand} (h : operand.misusesLiteral = true) :
    operand.syntaxMode? = Option.none := by
  obtain ⟨kind, modifier, term⟩ := operand
  cases term with
  | none => cases h
  | some term =>
      cases term with
      | name place name => cases h
      | number place n =>
          obtain ⟨width, value⟩ := n
          cases width with
          | byte => cases modifier <;> cases h <;> cases kind <;> rfl
          | word => cases modifier <;> cases h
          | invalid => cases kind <;> cases modifier <;> rfl

theorem not_misusesLiteral_of_givesByte {operand : Operand} (h : operand.givesByte = true) :
    operand.misusesLiteral = false := by
  obtain ⟨kind, modifier, term⟩ := operand
  cases term with
  | none => rfl
  | some term =>
      cases term with
      | name place name => rfl
      | number place n =>
          obtain ⟨width, value⟩ := n
          cases width <;> cases modifier <;> first | rfl | cases h

theorem givesByte_of_isBranchOperand {operand : Operand} (h : operand.isBranchOperand = true) :
    operand.givesByte = true := by
  unfold isBranchOperand at h
  split at h
  · rfl
  · exact h
  · cases h

end Operand

/-! ## The instruction set as a relation -/

theorem Op.nodup_modes (op : Op) : (op.encodings.map Prod.fst).Nodup := by
  cases op <;> decide

/-- Where each key of a table stands once, looking it up finds every entry. -/
theorem lookup_eq_some_iff_mem {α β : Type} [DecidableEq α] {table : List (α × β)} {key : α}
    {value : β} (hnodup : (table.map Prod.fst).Nodup) :
    table.lookup key = some value ↔ (key, value) ∈ table := by
  induction table with
  | nil => simp
  | cons entry table ih =>
      obtain ⟨first, found⟩ := entry
      rw [List.map_cons, List.nodup_cons] at hnodup
      rw [List.lookup_cons, List.mem_cons, Prod.mk.injEq]
      by_cases hkey : key = first
      · subst hkey
        have hother : (key, value) ∉ table := by
          intro hmem
          apply hnodup.1
          exact List.mem_map.2 ⟨_, hmem, rfl⟩
        simp [hother, eq_comm]
      · have hbeq : (key == first) = false := by simpa using hkey
        simp [hkey, hbeq, ih hnodup.2]

/-- A form of an operation is found exactly if it is one of its encodings. -/
theorem Opcode.lookup?_eq_some_iff {op : Op} {mode : Mode} {code : Opcode} :
    Opcode.lookup? op mode = some code ↔
      ∃ value, (mode, value) ∈ op.encodings ∧ code = ⟨op, mode, value.toNat, mode.length⟩ := by
  unfold Opcode.lookup?
  rw [Option.map_eq_some_iff]
  simp only [lookup_eq_some_iff_mem op.nodup_modes, eq_comm]

/-- A conditional branch has a form that takes a distance. -/
theorem Op.exists_pcRelative {op : Op} (h : op.isConditional = true) :
    ∃ value, (Mode.pcRelative, value) ∈ op.encodings := by
  cases op <;> first | exact ⟨_, List.mem_singleton.2 rfl⟩ | cases h

/-- The mnemonics of the conditional branches. -/
theorem Op.exists_conditional {mnemonic : String}
    (h : Text.upper mnemonic ∈ ["BCC", "BCS", "BEQ", "BMI", "BNE", "BPL", "BVC", "BVS"]) :
    ∃ op, Op.ofMnemonic? mnemonic = some op ∧ op.isConditional = true := by
  unfold Op.ofMnemonic?
  generalize Text.upper mnemonic = word at h
  simp only [List.mem_cons, List.not_mem_nil, or_false] at h
  rcases h with rfl | rfl | rfl | rfl | rfl | rfl | rfl | rfl
  · exact ⟨.bcc, by decide, rfl⟩
  · exact ⟨.bcs, by decide, rfl⟩
  · exact ⟨.beq, by decide, rfl⟩
  · exact ⟨.bmi, by decide, rfl⟩
  · exact ⟨.bne, by decide, rfl⟩
  · exact ⟨.bpl, by decide, rfl⟩
  · exact ⟨.bvc, by decide, rfl⟩
  · exact ⟨.bvs, by decide, rfl⟩

/-! ## Parameters -/

namespace Param

/-- The mode of a parameter that fills it. -/
def filledMode? (param : Param) : Option Mode :=
  if param.width = param.mode.length - 1 then some param.mode else none

/-- The parameter for a term, with a modifier that counts. -/
def ofTerm (term : Term) (modifier : Modifier) (mode : Mode) : Except Error Param :=
  match term with
  | .number place n => ofNumber place n modifier mode
  | .name place name => .ok (ofName place name modifier mode)

variable {good : Tag → Prop} {operand : Operand} {param : Param} {kind : OperandKind}
  {modifier : Modifier} {term : Term} {mode : Mode}

/-- In an operand that is written out, the modifier always counts. -/
theorem ofOperand_eq_ofTerm (hform : Operand.WellFormed good ⟨kind, modifier, some term⟩) :
    ofOperand ⟨kind, modifier, some term⟩ = ofTerm term modifier kind.mode := by
  obtain ⟨hkind, -, hmodifier⟩ := hform
  have hcounts : (if kind.takesModifier then modifier else .none) = modifier := by
    cases htakes : kind.takesModifier with
    | true => rfl
    | false => exact (hmodifier htakes).symm
  unfold ofOperand
  rw [if_neg hkind]
  simp only [hcounts]
  cases term <;> rfl

/-- The parameter of an operand fills the mode that the operand stands for; the parameter of an
operand that stands for no mode fills none. -/
theorem filledMode?_ofOperand (hform : operand.WellFormed good)
    (h : ofOperand operand = .ok param) : param.filledMode? = operand.syntaxMode? := by
  obtain ⟨kind, modifier, term⟩ := operand
  cases term with
  | none =>
      obtain ⟨hkind, hmodifier⟩ := hform
      simp only at hkind hmodifier
      subst hkind hmodifier
      cases h
      rfl
  | some term =>
      rw [ofOperand_eq_ofTerm hform] at h
      obtain ⟨hkind, -, hmodifier⟩ := hform
      simp only at hkind hmodifier
      -- a modifier stands only in an immediate operand or in an address
      have hshapes : modifier = .none ∨ kind = .immediate ∨ kind = .address := by
        cases kind <;> simp_all [OperandKind.takesModifier]
      cases term with
      | name place name =>
          cases h
          rcases hshapes with rfl | rfl | rfl
          · cases kind <;> rfl
          · cases modifier <;> rfl
          · cases modifier <;> rfl
      | number place n =>
          obtain ⟨width, value⟩ := n
          rcases hshapes with rfl | rfl | rfl
          · cases width <;> cases h <;> cases kind <;> rfl
          · cases width <;> cases modifier <;> cases h <;> rfl
          · cases width <;> cases modifier <;> cases h <;> rfl

/-- A term has no parameter exactly if it misuses a literal. -/
theorem ofTerm_fails_iff :
    (∃ e, ofTerm term modifier mode = .error e) ↔
      Operand.misusesLiteral ⟨kind, modifier, some term⟩ = true := by
  cases term with
  | name place name => simp [ofTerm, Operand.misusesLiteral]
  | number place n =>
      obtain ⟨width, value⟩ := n
      cases width <;> cases modifier <;> simp [ofTerm, ofNumber, Operand.misusesLiteral]

/-- What is wrong with a term is its literal. -/
theorem ofTerm_eq_error {e : Error} (h : ofTerm term modifier mode = .error e) :
    ∃ problem place, e = .problem problem place ∧ problem.family = .literal := by
  cases term with
  | name place name => cases h
  | number place n =>
      obtain ⟨width, value⟩ := n
      cases width <;> cases modifier <;> cases h <;> exact ⟨_, place, rfl, rfl⟩

/-- An operand has no parameter exactly if it misuses a literal. -/
theorem ofOperand_fails_iff (hform : operand.WellFormed good) :
    (∃ e, ofOperand operand = .error e) ↔ operand.misusesLiteral = true := by
  obtain ⟨kind, modifier, term⟩ := operand
  cases term with
  | none =>
      obtain ⟨hkind, -⟩ := hform
      simp only at hkind
      subst hkind
      simp [ofOperand, Operand.misusesLiteral]
  | some term => rw [ofOperand_eq_ofTerm hform, ofTerm_fails_iff]

theorem ofOperand_eq_error {e : Error} (hform : operand.WellFormed good)
    (h : ofOperand operand = .error e) :
    ∃ problem place, e = .problem problem place ∧ problem.family = .literal := by
  obtain ⟨kind, modifier, term⟩ := operand
  cases term with
  | none =>
      obtain ⟨hkind, -⟩ := hform
      simp only at hkind
      subst hkind
      cases h
  | some term =>
      rw [ofOperand_eq_ofTerm hform] at h
      exact ofTerm_eq_error h

theorem filledMode?_eq_some_iff :
    param.filledMode? = some mode ↔ param.mode = mode ∧ param.width = mode.length - 1 := by
  unfold filledMode?
  by_cases hwidth : param.width = param.mode.length - 1
  · rw [if_pos hwidth, Option.some.injEq]
    exact ⟨fun hmode => ⟨hmode, hmode ▸ hwidth⟩, fun h => h.1⟩
  · rw [if_neg hwidth]
    refine ⟨fun h => (Option.some_ne_none _ h.symm).elim, ?_⟩
    rintro ⟨rfl, hfills⟩
    exact absurd hfills hwidth

/-- As a distance, the parameter of an operand fills its mode exactly if the operand gives one
byte. -/
theorem filledMode?_withMode_pcRelative (hform : operand.WellFormed good)
    (h : ofOperand operand = .ok param) :
    (param.withMode .pcRelative).filledMode? =
      if operand.givesByte then some .pcRelative else none := by
  obtain ⟨kind, modifier, term⟩ := operand
  cases term with
  | none =>
      obtain ⟨hkind, -⟩ := hform
      simp only at hkind
      subst hkind
      cases h
      cases modifier <;> rfl
  | some term =>
      rw [ofOperand_eq_ofTerm hform] at h
      cases term with
      | name place name =>
          cases h
          cases modifier <;> rfl
      | number place n =>
          obtain ⟨width, value⟩ := n
          cases width <;> cases modifier <;> cases h <;> rfl

/-- As a distance, a term has the same parameter in every shape of an operand. -/
theorem withMode_ofTerm (other newMode : Mode) (h : ofTerm term modifier mode = .ok param) :
    ∃ plain, ofTerm term modifier other = .ok plain ∧
      plain.withMode newMode = param.withMode newMode := by
  cases term with
  | name place name =>
      cases h
      refine ⟨_, rfl, ?_⟩
      cases modifier <;> rfl
  | number place n =>
      obtain ⟨width, value⟩ := n
      cases width <;> cases modifier <;> cases h <;> exact ⟨_, rfl, rfl⟩

theorem withMode_ofOperand (newMode : Mode) (hform : operand.WellFormed good)
    (hterm : operand.term ≠ none) (h : ofOperand operand = .ok param) :
    ∃ plain, ofOperand { operand with kind := .address } = .ok plain ∧
      plain.withMode newMode = param.withMode newMode := by
  obtain ⟨kind, modifier, _ | term⟩ := operand
  · exact absurd rfl hterm
  · have hplain : Operand.WellFormed good ⟨.address, modifier, some term⟩ :=
      ⟨by simp, hform.2.1, by simp [OperandKind.takesModifier]⟩
    rw [ofOperand_eq_ofTerm hform] at h
    simp only [ofOperand_eq_ofTerm hplain]
    exact withMode_ofTerm _ newMode h

end Param

/-! ## Instructions -/

namespace Chunk

variable {good : Tag → Prop} {tag : Option Tag} {mnemonic : String} {operand : Operand} {op : Op}
  {written param : Param} {c : Chunk}

/-- An instruction whose operand has a parameter is built exactly if the parameter fills a mode that
the operation has, and then it takes the form of the operation in this mode. -/
theorem ofInstruction_eq_ok_iff (hop : Op.ofMnemonic? mnemonic = some op)
    (hwritten : Param.ofOperand operand = .ok written)
    (hparam : param = if op.isConditional then written.withMode .pcRelative else written) :
    ofInstruction tag mnemonic operand = .ok c ↔
      ∃ mode value, param.filledMode? = some mode ∧ (mode, value) ∈ op.encodings ∧
        c = .op tag ⟨op, mode, value.toNat, mode.length⟩ param 0 := by
  constructor
  · intro h
    obtain ⟨_, _, _, code, hop', hwritten', hparam', hcode, hwidth, rfl⟩ := ofInstruction_eq_ok h
    cases hop.symm.trans hop'
    cases hwritten.symm.trans hwritten'
    cases hparam.trans hparam'.symm
    obtain ⟨value, hmem, rfl⟩ := Opcode.lookup?_eq_some_iff.1 hcode
    exact ⟨_, value, Param.filledMode?_eq_some_iff.2 ⟨rfl, hwidth⟩, hmem, rfl⟩
  · rintro ⟨mode, value, hmode, hmem, rfl⟩
    obtain ⟨rfl, hwidth⟩ := Param.filledMode?_eq_some_iff.1 hmode
    have hlookup := Opcode.lookup?_eq_some_iff.2 ⟨value, hmem, rfl⟩
    simp only [ofInstruction, hop, hwritten, bind, Except.bind, ← hparam, hlookup]
    exact if_pos hwidth

/-- Where an operand has a parameter and the instruction is not built, the mode is wrong. -/
theorem ofInstruction_eq_error {e : Error} (hop : Op.ofMnemonic? mnemonic = some op)
    (hwritten : Param.ofOperand operand = .ok written)
    (h : ofInstruction tag mnemonic operand = .error e) :
    ∃ problem, e = .problem problem tag ∧ problem.family = .addressing := by
  simp only [ofInstruction, hop, hwritten, bind, Except.bind] at h
  generalize (if op.isConditional then written.withMode .pcRelative else written) = param at h
  split at h
  · cases h
    exact ⟨_, rfl, rfl⟩
  · split at h
    · cases h
    · cases h
      exact ⟨_, rfl, rfl⟩

/-- What is wrong with an instruction of a known operation is its literal, if that is misused, and
its mode otherwise. -/
theorem ofInstruction_family {e : Error} (hform : operand.WellFormed good)
    (hop : Op.ofMnemonic? mnemonic = some op) (h : ofInstruction tag mnemonic operand = .error e) :
    ∃ problem place, e = .problem problem place ∧
      problem.family = if operand.misusesLiteral then .literal else .addressing := by
  cases hwritten : Param.ofOperand operand with
  | error e' =>
      obtain ⟨problem, place, rfl, hfamily⟩ := Param.ofOperand_eq_error hform hwritten
      rw [if_pos ((Param.ofOperand_fails_iff hform).1 ⟨_, hwritten⟩)]
      simp only [ofInstruction, hop, hwritten] at h
      cases h
      exact ⟨problem, place, rfl, hfamily⟩
  | ok written =>
      have hfits : ¬ operand.misusesLiteral = true := by
        intro hmisused
        obtain ⟨e', he'⟩ := (Param.ofOperand_fails_iff hform).2 hmisused
        rw [hwritten] at he'
        cases he'
      rw [if_neg hfits]
      obtain ⟨problem, rfl, hfamily⟩ := ofInstruction_eq_error hop hwritten h
      exact ⟨problem, tag, rfl, hfamily⟩

/-- An instruction that is built, and is no conditional branch, has the form of its operation in the
mode that its operand stands for. -/
theorem syntaxMode?_of_ofInstruction (hform : operand.WellFormed good)
    (hop : Op.ofMnemonic? mnemonic = some op) (hbranch : op.isConditional = false)
    (h : ofInstruction tag mnemonic operand = .ok c) :
    ∃ mode value param, operand.syntaxMode? = some mode ∧ (mode, value) ∈ op.encodings ∧
      param.filledMode? = some mode ∧
      c = .op tag ⟨op, mode, value.toNat, mode.length⟩ param 0 := by
  obtain ⟨_, written, _, _, _, hwritten, -⟩ := ofInstruction_eq_ok h
  rw [ofInstruction_eq_ok_iff hop hwritten rfl, hbranch] at h
  obtain ⟨mode, value, hfilled, hmem, rfl⟩ := h
  have hmode := Param.filledMode?_ofOperand hform hwritten
  exact ⟨mode, value, written, hmode.symm.trans hfilled, hmem, hfilled, rfl⟩

/-- An instruction whose operation has the mode that its operand stands for is built. -/
theorem ofInstruction_of_syntaxMode? {mode : Mode} {value : UInt8} (hform : operand.WellFormed good)
    (hop : Op.ofMnemonic? mnemonic = some op) (hbranch : op.isConditional = false)
    (hmode : operand.syntaxMode? = some mode) (hmem : (mode, value) ∈ op.encodings) :
    ∃ c, ofInstruction tag mnemonic operand = .ok c := by
  cases hwritten : Param.ofOperand operand with
  | error e =>
      have hmisused := (Param.ofOperand_fails_iff hform).1 ⟨e, hwritten⟩
      rw [Operand.syntaxMode?_of_misusesLiteral hmisused] at hmode
      cases hmode
  | ok written =>
      have hfilled := (Param.filledMode?_ofOperand hform hwritten).trans hmode
      refine ⟨_, (ofInstruction_eq_ok_iff hop hwritten rfl).2 ⟨mode, value, ?_, hmem, rfl⟩⟩
      rw [hbranch]
      exact hfilled

end Chunk

/-! ## Programs with one more statement -/

namespace Program

variable {before : List Statement} {program : Program} {s : Statement}

theorem ofStatements_concat_eq_error_iff {e : Error} (h : ofStatements before = .ok program) :
    ofStatements (before ++ [s]) = .error e ↔ s.piece = .error e := by
  have hnone : before.findSome? Statement.buildError? = none := by
    apply List.findSome?_eq_none_iff.2
    intro u hu
    obtain ⟨p, hp⟩ := (ofStatements_ok h).2 u hu
    simp only [Statement.buildError?, hp]
  rw [ofStatements_eq_error_iff, List.findSome?_append, hnone, Option.none_or,
    ← Statement.buildError?_eq_some_iff, List.findSome?_cons]
  cases s.buildError? <;> simp

/-- A statement that adds a chunk adds it behind the others. -/
theorem ofStatements_concat {c : Chunk} (h : ofStatements before = .ok program)
    (hpiece : s.piece = .ok (some (.chunk c))) :
    ∃ built, ofStatements (before ++ [s]) = .ok built ∧ chunks built = chunks program ++ [c] := by
  cases hbuild : ofStatements (before ++ [s]) with
  | error e =>
      rw [(ofStatements_concat_eq_error_iff h).1 hbuild] at hpiece
      cases hpiece
  | ok built =>
      refine ⟨built, rfl, ?_⟩
      rw [← map_snd_listing 0, ← map_snd_listing 0, listing_pieces hbuild, listing_pieces h,
        List.filterMap_append, Statement.filterMap_piece?_cons hpiece, Piece.listing_append,
        List.map_append]
      rfl

section Instruction

variable {good : Tag → Prop} {tag : Option Tag} {mnemonic : String} {operand : Operand} {op : Op}

theorem piece_instruction_eq_error_iff {e : Error} :
    (Statement.instruction tag mnemonic operand).piece = .error e ↔
      Chunk.ofInstruction tag mnemonic operand = .error e := by
  simp only [Statement.piece, bind, Except.bind, pure, Except.pure]
  cases Chunk.ofInstruction tag mnemonic operand <;> simp

/-- An instruction that is built behind other statements adds its chunk. -/
theorem chunks_concat_instruction {built : Program} (h : ofStatements before = .ok program)
    (hbuild : ofStatements (before ++ [.instruction tag mnemonic operand]) = .ok built) :
    ∃ c, Chunk.ofInstruction tag mnemonic operand = .ok c ∧
      chunks built = chunks program ++ [c] := by
  have hmem : .instruction tag mnemonic operand ∈ before ++ [.instruction tag mnemonic operand] :=
    List.mem_append_right before List.mem_cons_self
  obtain ⟨added, hpiece⟩ := (ofStatements_ok hbuild).2 _ hmem
  obtain ⟨c, hmade, hadded⟩ := bind_ok_inv hpiece
  cases hadded
  obtain ⟨other, hother, hchunks⟩ := ofStatements_concat h hpiece
  cases hbuild.symm.trans hother
  exact ⟨c, hmade, hchunks⟩

/-- An instruction is built behind other statements exactly if it is built alone. -/
theorem ofStatements_concat_instruction_iff (h : ofStatements before = .ok program) :
    (∃ built, ofStatements (before ++ [.instruction tag mnemonic operand]) = .ok built) ↔
      ∃ c, Chunk.ofInstruction tag mnemonic operand = .ok c := by
  constructor
  · rintro ⟨built, hbuild⟩
    obtain ⟨c, hmade, -⟩ := chunks_concat_instruction h hbuild
    exact ⟨c, hmade⟩
  · rintro ⟨c, hmade⟩
    have hpiece : (Statement.instruction tag mnemonic operand).piece = .ok (some (.chunk c)) := by
      simp only [Statement.piece, hmade]
      rfl
    obtain ⟨built, hbuild, -⟩ := ofStatements_concat h hpiece
    exact ⟨built, hbuild⟩

/-- An instruction of a known operation that is refused behind other statements has a problem at one
of its places, with its literal or with its mode. -/
theorem ofStatements_concat_instruction_refused {e : Error} (hplaced : Placed good tag)
    (hform : operand.WellFormed good) (hop : Op.ofMnemonic? mnemonic = some op)
    (h : ofStatements before = .ok program)
    (hbuild : ofStatements (before ++ [.instruction tag mnemonic operand]) = .error e) :
    ∃ problem place, e = .located problem place ∧ good place ∧
      problem.family = if operand.misusesLiteral then .literal else .addressing := by
  have hmade := piece_instruction_eq_error_iff.1 ((ofStatements_concat_eq_error_iff h).1 hbuild)
  obtain ⟨problem, _, rfl, hfamily⟩ := Chunk.ofInstruction_family hform hop hmade
  obtain ⟨_, _, hsame, place, rfl, hgood⟩ := Chunk.ofInstruction_located hplaced hform hmade
  cases hsame
  exact ⟨problem, place, rfl, hgood, hfamily⟩

end Instruction

end Program

/-- Opcode selection is sound and complete.  An instruction of a text that is no conditional branch
is built, behind any statements that are built themselves, exactly if the instruction set has its
operation in the mode that the syntax of its operand stands for.  Its chunk is then of this form.
Otherwise the literal of the operand is misused, or there is no such form. -/
theorem instruction_built_iff_mode_encoded {unit : Int} {text : List Char}
    {statements before : List Statement} {program : Program} {tag : Option Tag}
    {mnemonic : String} {operand : Operand} {op : Op}
    (hparse : Statement.parse unit text = .ok statements)
    (hmem : .instruction tag mnemonic operand ∈ statements)
    (hop : Op.ofMnemonic? mnemonic = some op) (hbranch : op.isConditional = false)
    (hbefore : Program.ofStatements before = .ok program) :
    ((∃ built, Program.ofStatements (before ++ [.instruction tag mnemonic operand]) = .ok built) ↔
      ∃ mode value, operand.syntaxMode? = some mode ∧ (mode, value) ∈ op.encodings) ∧
    (∀ built, Program.ofStatements (before ++ [.instruction tag mnemonic operand]) = .ok built →
      ∃ mode value param, operand.syntaxMode? = some mode ∧ (mode, value) ∈ op.encodings ∧
        param.mode = mode ∧ param.width = (mode.length : Int) - 1 ∧
        Program.chunks built = Program.chunks program ++
          [.op tag ⟨op, mode, value.toNat, mode.length⟩ param 0]) ∧
    ∀ e, Program.ofStatements (before ++ [.instruction tag mnemonic operand]) = .error e →
      ∃ problem place, e = .located problem place ∧ place.Within unit text.length ∧
        problem.family = if operand.misusesLiteral then .literal else .addressing := by
  obtain ⟨hplaced, hform⟩ := Statement.parse_wellFormed hparse _ hmem
  refine ⟨?_, ?_,
    fun e => Program.ofStatements_concat_instruction_refused hplaced hform hop hbefore⟩
  · rw [Program.ofStatements_concat_instruction_iff hbefore]
    constructor
    · rintro ⟨c, hmade⟩
      obtain ⟨mode, value, _, hmode, hencoded, -⟩ :=
        Chunk.syntaxMode?_of_ofInstruction hform hop hbranch hmade
      exact ⟨mode, value, hmode, hencoded⟩
    · rintro ⟨mode, value, hmode, hencoded⟩
      exact Chunk.ofInstruction_of_syntaxMode? hform hop hbranch hmode hencoded
  · intro built hbuild
    obtain ⟨c, hmade, hchunks⟩ := Program.chunks_concat_instruction hbefore hbuild
    obtain ⟨mode, value, param, hmode, hencoded, hfilled, rfl⟩ :=
      Chunk.syntaxMode?_of_ofInstruction hform hop hbranch hmade
    obtain ⟨hsame, hwidth⟩ := Param.filledMode?_eq_some_iff.1 hfilled
    exact ⟨mode, value, param, hmode, hencoded, hsame, hwidth, hchunks⟩

/-- A load through a pointer in the zero page. -/
theorem indexed_load_selected :
    ∃ statements built param,
      Statement.parse 0 "lda ($10),y".toList = .ok statements ∧
      Program.ofStatements ([] ++ statements) = .ok built ∧
      Program.chunks built = [.op (some ⟨0, 0⟩) ⟨.lda, .postIndirectY, 0xB1, 2⟩ param 0] ∧
      param.mode = .postIndirectY := by
  let operand : Operand := .plain .indirectY (.number (some ⟨0, 5⟩) ⟨.byte, 0x10⟩)
  have hparse : Statement.parse 0 "lda ($10),y".toList =
      .ok [.instruction (some ⟨0, 0⟩) "lda" operand] := rfl
  have hbefore : Program.ofStatements [] = .ok [] := rfl
  obtain ⟨hiff, hselected, -⟩ :=
    instruction_built_iff_mode_encoded hparse List.mem_cons_self rfl rfl hbefore
  obtain ⟨built, hbuild⟩ := hiff.2 ⟨.postIndirectY, 0xB1, rfl, by decide⟩
  obtain ⟨mode, value, param, hmode, hencoded, hsame, -, hchunks⟩ := hselected built hbuild
  obtain rfl : Mode.postIndirectY = mode := Option.some.inj hmode
  obtain rfl : value = 0xB1 := by simpa [Op.encodings] using hencoded
  exact ⟨_, built, param, hparse, hbuild, hchunks, hsame⟩

/-! ## Conditional branches -/

namespace Chunk

variable {good : Tag → Prop} {tag : Option Tag} {mnemonic : String} {operand : Operand} {op : Op}
  {c : Chunk}

/-- A conditional branch is built exactly if its operand gives one byte. -/
theorem ofInstruction_branch_iff (hform : operand.WellFormed good)
    (hop : Op.ofMnemonic? mnemonic = some op) (hbranch : op.isConditional = true) :
    (∃ c, ofInstruction tag mnemonic operand = .ok c) ↔ operand.givesByte = true := by
  cases hwritten : Param.ofOperand operand with
  | error e =>
      have hmisused := (Param.ofOperand_fails_iff hform).1 ⟨e, hwritten⟩
      constructor
      · rintro ⟨c, hmade⟩
        simp only [ofInstruction, hop, hwritten] at hmade
        cases hmade
      · intro hbyte
        rw [Operand.not_misusesLiteral_of_givesByte hbyte] at hmisused
        cases hmisused
  | ok written =>
      have hmode := Param.filledMode?_withMode_pcRelative hform hwritten
      simp only [ofInstruction_eq_ok_iff hop hwritten rfl, if_pos hbranch, hmode]
      constructor
      · rintro ⟨c, mode, value, hfilled, -⟩
        split at hfilled
        · assumption
        · cases hfilled
      · intro hbyte
        obtain ⟨value, hmem⟩ := Op.exists_pcRelative hbranch
        exact ⟨_, .pcRelative, value, if_pos hbyte, hmem, rfl⟩

/-- A conditional branch that is built takes its one form, and its parameter is that of the plain
address. -/
theorem ofInstruction_branch_eq_ok (hform : operand.WellFormed good)
    (hop : Op.ofMnemonic? mnemonic = some op) (hbranch : op.isConditional = true)
    (h : ofInstruction tag mnemonic operand = .ok c) :
    ∃ value plain, (.pcRelative, value) ∈ op.encodings ∧
      Param.ofOperand { operand with kind := .address } = .ok plain ∧
      c = .op tag ⟨op, .pcRelative, value.toNat, 2⟩ (plain.withMode .pcRelative) 0 := by
  have hbyte := (ofInstruction_branch_iff hform hop hbranch).1 ⟨c, h⟩
  obtain ⟨_, written, _, _, _, hwritten, -⟩ := ofInstruction_eq_ok h
  rw [ofInstruction_eq_ok_iff hop hwritten rfl, if_pos hbranch,
    Param.filledMode?_withMode_pcRelative hform hwritten, if_pos hbyte] at h
  obtain ⟨mode, value, hfilled, hmem, rfl⟩ := h
  cases hfilled
  have hterm : operand.term ≠ none := by
    intro hnone
    unfold Operand.givesByte at hbyte
    rw [hnone] at hbyte
    cases hbyte
  obtain ⟨plain, hplain, hsame⟩ := Param.withMode_ofOperand .pcRelative hform hterm hwritten
  exact ⟨value, plain, hmem, hplain, by rw [hsame]; rfl⟩

end Chunk

/-- A conditional branch takes whatever gives one byte.  Besides a label or a byte that stands there
as a plain address, these are labels and bytes in every other shape, and one half of a label or of a
word; they are built as the plain address would be.  All other operands are refused with a problem
at a place in the text. -/
theorem branch_built_iff_one_byte {unit : Int} {text : List Char}
    {statements before : List Statement} {program : Program} {tag : Option Tag}
    {mnemonic : String} {operand : Operand}
    (hparse : Statement.parse unit text = .ok statements)
    (hmem : .instruction tag mnemonic operand ∈ statements)
    (hbranch : Text.upper mnemonic ∈ ["BCC", "BCS", "BEQ", "BMI", "BNE", "BPL", "BVC", "BVS"])
    (hbefore : Program.ofStatements before = .ok program) :
    ((∃ built, Program.ofStatements (before ++ [.instruction tag mnemonic operand]) = .ok built) ↔
      operand.givesByte = true) ∧
    (¬ (operand.givesByte = true ∧ operand.isBranchOperand = false) →
      ((∃ built,
          Program.ofStatements (before ++ [.instruction tag mnemonic operand]) = .ok built) ↔
        operand.isBranchOperand = true)) ∧
    (∀ e, Program.ofStatements (before ++ [.instruction tag mnemonic operand]) = .error e →
      ∃ problem place, e = .located problem place ∧ place.Within unit text.length ∧
        problem.family = if operand.misusesLiteral then .literal else .addressing) ∧
    ∀ built, Program.ofStatements (before ++ [.instruction tag mnemonic operand]) = .ok built →
      ∃ op value plain, Op.ofMnemonic? mnemonic = some op ∧
        (.pcRelative, value) ∈ op.encodings ∧
        Param.ofOperand { operand with kind := .address } = .ok plain ∧
        Program.chunks built = Program.chunks program ++
          [.op tag ⟨op, .pcRelative, value.toNat, 2⟩ (plain.withMode .pcRelative) 0] := by
  obtain ⟨hplaced, hform⟩ := Statement.parse_wellFormed hparse _ hmem
  obtain ⟨op, hop, hconditional⟩ := Op.exists_conditional hbranch
  have hiff : (∃ built, Program.ofStatements (before ++ [.instruction tag mnemonic operand]) =
      .ok built) ↔ operand.givesByte = true := by
    rw [Program.ofStatements_concat_instruction_iff hbefore]
    exact Chunk.ofInstruction_branch_iff hform hop hconditional
  refine ⟨hiff, ?_, ?_, ?_⟩
  · intro hplain
    rw [hiff]
    refine ⟨fun hbyte => ?_, Operand.givesByte_of_isBranchOperand⟩
    cases hshape : operand.isBranchOperand with
    | true => rfl
    | false => exact absurd ⟨hbyte, hshape⟩ hplain
  · intro e
    exact Program.ofStatements_concat_instruction_refused hplaced hform hop hbefore
  · intro built hbuild
    obtain ⟨c, hmade, hchunks⟩ := Program.chunks_concat_instruction hbefore hbuild
    obtain ⟨value, plain, hencoded, hplain, rfl⟩ :=
      Chunk.ofInstruction_branch_eq_ok hform hop hconditional hmade
    exact ⟨op, value, plain, hop, hencoded, hplain, hchunks⟩

/-- A branch with an immediate operand, which is taken for a distance. -/
theorem immediate_branch_built :
    ∃ statements built tag operand,
      Statement.parse 0 "bne #5".toList = .ok statements ∧
      statements = [.instruction tag "bne" operand] ∧
      operand.kind = .immediate ∧ operand.isBranchOperand = false ∧
      Program.ofStatements ([] ++ statements) = .ok built ∧
      Program.chunks built =
        [.op tag ⟨.bne, .pcRelative, 0xD0, 2⟩ (.resolved .pcRelative ⟨1, 5⟩) 0] := by
  let operand : Operand := ⟨.immediate, .none, some (.number (some ⟨0, 5⟩) ⟨.byte, 5⟩)⟩
  have hparse : Statement.parse 0 "bne #5".toList =
      .ok [.instruction (some ⟨0, 0⟩) "bne" operand] := rfl
  have hbefore : Program.ofStatements [] = .ok [] := rfl
  obtain ⟨hiff, -, -, hform⟩ :=
    branch_built_iff_one_byte hparse List.mem_cons_self (by decide) hbefore
  obtain ⟨built, hbuild⟩ := hiff.2 rfl
  obtain ⟨op, value, plain, hop, hencoded, hplain, hchunks⟩ := hform built hbuild
  obtain rfl : Op.bne = op := Option.some.inj hop
  obtain rfl : value = 0xD0 := by simpa [Op.encodings] using hencoded
  obtain rfl : Param.resolved .zeroPage ⟨1, 5⟩ = plain := Except.ok.inj hplain
  exact ⟨_, built, _, operand, hparse, rfl, rfl, rfl, hbuild, hchunks⟩

end Asm65
