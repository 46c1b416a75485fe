import Asm65.Proofs.FlatWalk

/-!
# References to labels

A label may be defined several times and referred to from anywhere.  Whatever the order, every
reference to it holds the address of its last definition: the whole word, its low byte or its high
byte, as the reference is written.
-/

namespace Asm65

/-! ## The last definition of a label -/

namespace FlatWalk

variable {name : String}

theorem step_labels_of_ne {walk : FlatWalk} {s : Statement} (hne : ∀ tag, s ≠ .label tag name) :
    (walk.step s).labels[name]? = walk.labels[name]? := by
  cases s with
  | label tag other =>
      have hother : other ≠ name := by
        rintro rfl
        exact hne tag rfl
      show (walk.labels.insert other walk.cursor)[name]? = _
      rw [Std.TreeMap.getElem?_insert, if_neg]
      rwa [Std.compare_eq_iff_eq]
  | comment tag => rfl
  | instruction tag mnemonic operand => rfl
  | org tag address => rfl
  | pad tag address => rfl
  | bytes tag values => rfl
  | words tag values => rfl
  | vector tag label => rfl
  | includeFile tag path => rfl
  | unknown => rfl

/-- Statements that do not define a label leave it as it is. -/
theorem foldl_step_labels_of_ne {walk : FlatWalk} {statements : List Statement}
    (hne : ∀ s ∈ statements, ∀ tag, s ≠ .label tag name) :
    (statements.foldl step walk).labels[name]? = walk.labels[name]? := by
  induction statements generalizing walk with
  | nil => rfl
  | cons s rest ih =>
      rw [List.foldl_cons, ih (fun u hu => hne u (List.mem_cons_of_mem s hu)),
        step_labels_of_ne (hne s List.mem_cons_self)]

/-- A label stands for the address of its last definition. -/
theorem across_labels_last {before after : List Statement} {tag : Option Tag}
    (hlast : ∀ s ∈ after, ∀ tag, s ≠ .label tag name) :
    (across (before ++ .label tag name :: after)).labels[name]? = some (across before).cursor := by
  rw [across, List.foldl_append, List.foldl_cons, foldl_step_labels_of_ne hlast]
  show ((across before).labels.insert name (across before).cursor)[name]? = _
  exact Std.TreeMap.getElem?_insert_self

end FlatWalk

/-! ## The chunk of a statement -/

namespace Statement

/-- Whether a statement adds a chunk to a program. -/
def addsChunk : Statement → Bool
  | instruction _ _ _ | bytes _ _ | words _ _ | vector _ _ => true
  | _ => false

theorem length_listing {cursor : Int} {statements : List Statement}
    (hall : ∀ s ∈ statements, ∃ p, s.piece = .ok p) :
    (Piece.listing cursor (statements.filterMap piece?)).length =
      statements.countP addsChunk := by
  induction statements generalizing cursor with
  | nil => rfl
  | cons s rest ih =>
      obtain ⟨added, hadded⟩ := hall s List.mem_cons_self
      have htail : ∀ u ∈ rest, ∃ p, u.piece = .ok p :=
        fun u hu => hall u (List.mem_cons_of_mem s hu)
      rw [List.countP_cons, filterMap_piece?_cons hadded]
      cases adds_of_piece hadded with
      | comment tag => exact ih htail
      | includeFile tag path => exact ih htail
      | label tag name => exact ih htail
      | org tag address hwidth => exact ih htail
      | pad tag address hwidth => exact ih htail
      | instruction tag mnemonic operand code param hmade => exact congrArg (· + 1) (ih htail)
      | bytes tag values data hlength => exact congrArg (· + 1) (ih htail)
      | words tag values data hlength => exact congrArg (· + 1) (ih htail)
      | vector tag label => exact congrArg (· + 1) (ih htail)

end Statement

namespace Program

variable {good : Tag → Prop} {front back : List Statement} {s : Statement} {c : Chunk}
  {program : Program}

/-- The chunks of a program stand where its statements put them. -/
theorem listing_pieces {statements : List Statement}
    (hbuild : ofStatements statements = .ok program) :
    Piece.listing 0 (pieces program) =
      Piece.listing 0 (statements.filterMap Statement.piece?) := by
  obtain ⟨rfl, -⟩ := ofStatements_ok hbuild
  rcases pieces_ofPieces (statements.filterMap Statement.piece?) with heq | ⟨-, heq⟩
  · rw [heq]
  · rw [heq]
    rfl

/-- The chunk of a statement comes after the chunks of the statements in front of it, and stands
where the walk over these ends. -/
theorem listing_getElem? (hbuild : ofStatements (front ++ s :: back) = .ok program)
    (hpiece : s.piece = .ok (some (.chunk c))) :
    (Piece.listing 0 (pieces program))[front.countP Statement.addsChunk]? =
      some ((FlatWalk.across front).cursor, c) := by
  obtain ⟨-, hall⟩ := ofStatements_ok hbuild
  have hfront : ∀ u ∈ front, ∃ p, u.piece = .ok p :=
    fun u hu => hall u (List.mem_append_left _ hu)
  have hcursor := FlatWalk.cursor_across hfront
  rw [listing_pieces hbuild, List.filterMap_append, List.filterMap_cons, Statement.piece?_of_ok hpiece,
    Piece.listing_append, ← hcursor, ← @Statement.length_listing 0 front hfront,
    List.getElem?_append_right (Nat.le_refl _), Nat.sub_self]
  rfl

/-- After the layout, the chunk of a statement is settled at the address of the walk. -/
theorem layout_getElem? {labels : Labels} (hform : ∀ u ∈ front ++ s :: back, u.WellFormed good)
    (hbuild : ofStatements (front ++ s :: back) = .ok program)
    (hlayout : (layout program).labels = .ok labels)
    (hpiece : s.piece = .ok (some (.chunk c))) :
    (chunks (layout program).program)[front.countP Statement.addsChunk]? =
        some (Chunk.settledAt labels ((FlatWalk.across front).cursor, c)) ∧
      Chunk.Settles labels ((FlatWalk.across front).cursor, c) ∧ c.Sound good := by
  have hsound := ofStatements_sound hform hbuild
  obtain ⟨-, hprogram, hsettles⟩ := layout_ok hsound hlayout
  have hsite := listing_getElem? hbuild hpiece
  have hmem := List.mem_of_getElem? hsite
  refine ⟨?_, hsettles _ hmem, ?_⟩
  · rw [hprogram, chunks_settledFrom, List.getElem?_map, hsite]
    rfl
  · exact Statement.piece_sound (hform s (by simp)) hpiece

end Program

/-! ## What references hold -/

namespace Modifier

/-- What a reference to an address holds. -/
def held (address : Int) : Modifier → OperandValue
  | none => ⟨2, address⟩
  | lowByte => ⟨1, address % 0x100⟩
  | highByte => ⟨1, address / 0x100⟩

/-- The bytes of a reference to an address. -/
def written (address : Int) : Modifier → Bytes
  | none => [UInt8.ofNat (address % 0x100).toNat, UInt8.ofNat (address / 0x100).toNat]
  | lowByte => [UInt8.ofNat (address % 0x100).toNat]
  | highByte => [UInt8.ofNat (address / 0x100).toNat]

theorem littleEndian_held {address : Int} (haddress : InSpace address) (modifier : Modifier) :
    Bytes.littleEndian (modifier.held address).width.toNat (modifier.held address).value.toNat =
      modifier.written address := by
  obtain ⟨hlow, hhigh⟩ := haddress
  cases modifier with
  | none =>
      have hbyte : UInt8.ofNat address.toNat = UInt8.ofNat (address % 0x100).toNat := by
        rw [UInt8.ofNat_eq_iff_mod_eq_toNat, UInt8.toNat_ofNat']
        omega
      have hquotient : address.toNat / 256 = (address / 0x100).toNat := by omega
      show [UInt8.ofNat address.toNat, UInt8.ofNat (address.toNat / 256)] = _
      rw [hbyte, hquotient]
      rfl
  | lowByte => rfl
  | highByte => rfl

end Modifier

namespace Param

theorem withMode_ofName (tag : Option Tag) (name : String) (modifier : Modifier)
    (mode newMode : Mode) :
    (ofName tag name modifier mode).withMode newMode = ofName tag name modifier newMode := by
  cases modifier <;> rfl

theorem mode_ofName (tag : Option Tag) (name : String) (modifier : Modifier) (mode : Mode) :
    (ofName tag name modifier mode).mode = mode := by
  cases modifier <;> rfl

/-- The parameter of an operand with a label keeps the modifier it is written with. -/
theorem ofOperand_name {good : Tag → Prop} {kind : OperandKind} {modifier : Modifier}
    {tag : Option Tag} {name : String} {param : Param}
    (hform : Operand.WellFormed good ⟨kind, modifier, some (.name tag name)⟩)
    (h : ofOperand ⟨kind, modifier, some (.name tag name)⟩ = .ok param) :
    param = ofName tag name modifier kind.mode := by
  obtain ⟨hkind, -, hmodifier⟩ := hform
  simp only [ofOperand, if_neg hkind] at h
  cases h
  -- a modifier that does not count is not written
  cases htakes : kind.takesModifier with
  | true => rfl
  | false =>
      have hnone : modifier = .none := hmodifier htakes
      rw [hnone]
      rfl

/-- A reference holds the address of its label, unless it is a distance. -/
theorem resolve_ofName {labels : Labels} {position address : Int} {tag : Option Tag}
    {name : String} {modifier : Modifier} {mode : Mode} {param : Param}
    (hname : labels[name]? = some address) (haddress : InSpace address)
    (hdirect : modifier = .none → mode ≠ .pcRelative)
    (h : (ofName tag name modifier mode).resolve labels position = .ok param) :
    param = .resolved mode (modifier.held address) := by
  have hfind : labels.find name tag = .ok address := by
    simp only [Labels.find, hname]
  obtain ⟨hlow, hhigh⟩ := haddress
  cases modifier with
  | none =>
      simp only [ofName, resolve, hfind, bind, Except.bind, if_neg (hdirect rfl)] at h
      cases h
      simp only [Modifier.held, OperandValue.word]
      rw [Int.emod_eq_of_lt hlow hhigh]
  | lowByte =>
      simp only [ofName, resolve, hfind, bind, Except.bind] at h
      cases h
      rfl
  | highByte =>
      simp only [ofName, resolve, hfind, bind, Except.bind] at h
      cases h
      simp only [Modifier.held, OperandValue.byte]
      rw [Int.emod_eq_of_lt (by omega) (by omega)]

end Param

namespace Chunk

variable {labels : Labels} {address : Int} {tag : Option Tag}

/-- The chunk of an instruction that names a label refers to the label as it is written. -/
theorem ofInstruction_name {good : Tag → Prop} {mnemonic : String} {kind : OperandKind}
    {modifier : Modifier} {place : Option Tag} {name : String} {c : Chunk}
    (hform : Operand.WellFormed good ⟨kind, modifier, some (.name place name)⟩)
    (h : ofInstruction tag mnemonic ⟨kind, modifier, some (.name place name)⟩ = .ok c) :
    ∃ code, Op.ofMnemonic? mnemonic = some code.op ∧
      c = .op tag code (.ofName place name modifier
        (if code.op.isConditional then .pcRelative else kind.mode)) 0 := by
  obtain ⟨operation, written, param, code, hmnemonic, hwritten, hparam, hcode, -, rfl⟩ :=
    ofInstruction_eq_ok h
  obtain ⟨rfl, -⟩ := Opcode.lookup?_eq_some hcode
  refine ⟨code, hmnemonic, ?_⟩
  rw [Param.ofOperand_name hform hwritten, Param.withMode_ofName] at hparam
  rw [hparam]
  split <;> rfl

theorem settledAt_op {code : Opcode} {param : Param} {position : Int}
    (h : Settles labels (address, .op tag code param position)) :
    ∃ resolved, param.resolve labels address = .ok resolved ∧
      settledAt labels (address, .op tag code param position) = .op tag code resolved address := by
  obtain ⟨next, hnext⟩ := h
  unfold settledAt
  simp only [settle] at hnext ⊢
  split at hnext
  · next resolved hresolved =>
      rw [hresolved]
      exact ⟨resolved, rfl, rfl⟩
  · cases hnext

theorem settledAt_vector {name : String} {value target : Int}
    (hname : labels[name]? = some target) :
    settledAt labels (address, .vector tag name value) = .vector tag name target := by
  unfold settledAt
  simp only [settle, Labels.find, hname]

end Chunk

namespace Program

variable {good : Tag → Prop} {front back : List Statement} {program : Program} {labels : Labels}
  {tag : Option Tag} {name : String} {address : Int}

/-- After the layout, an instruction that names a label holds what the reference comes to. -/
theorem layout_instruction_resolved {mnemonic : String} {kind : OperandKind} {modifier : Modifier}
    {place : Option Tag}
    (hform : ∀ u ∈ front ++ .instruction tag mnemonic ⟨kind, modifier, some (.name place name)⟩ ::
      back, u.WellFormed good)
    (hbuild : ofStatements (front ++ .instruction tag mnemonic
      ⟨kind, modifier, some (.name place name)⟩ :: back) = .ok program)
    (hlayout : (layout program).labels = .ok labels) :
    ∃ code mode value, Op.ofMnemonic? mnemonic = some code.op ∧
      mode = (if code.op.isConditional then .pcRelative else kind.mode) ∧
      (chunks (layout program).program)[front.countP Statement.addsChunk]? =
        some (.op tag code (.resolved mode value) (FlatWalk.across front).cursor) ∧
      (Param.ofName place name modifier mode).resolve labels (FlatWalk.across front).cursor =
        .ok (.resolved mode value) ∧ code.InSet ∧ value.Fits := by
  have hs := hform _ (List.mem_append_right front List.mem_cons_self)
  obtain ⟨-, hall⟩ := ofStatements_ok hbuild
  obtain ⟨added, hpiece⟩ := hall _ (List.mem_append_right front List.mem_cons_self)
  obtain ⟨c, hc, hadded⟩ := bind_ok_inv hpiece
  cases hadded
  obtain ⟨code, hmnemonic, rfl⟩ := Chunk.ofInstruction_name hs.2 hc
  generalize hmode : (if code.op.isConditional then .pcRelative else kind.mode) = mode at hpiece
  obtain ⟨hchunk, hsettles, hsound⟩ := layout_getElem? hform hbuild hlayout hpiece
  obtain ⟨resolved, hresolved, hsettled⟩ := Chunk.settledAt_op hsettles
  obtain ⟨-, hcode, -, hparam, -⟩ := hsound
  obtain ⟨value, rfl, hfits, -⟩ := Param.resolve_ok hparam hresolved
  rw [Param.mode_ofName] at hresolved hsettled
  exact ⟨code, mode, value, hmnemonic, hmode.symm, hchunk.trans (congrArg some hsettled), hresolved,
    hcode, hfits⟩

/-- After the layout, an instruction that names a label holds the address of the label. -/
theorem layout_instruction_name {mnemonic : String} {kind : OperandKind} {modifier : Modifier}
    {place : Option Tag}
    (hform : ∀ u ∈ front ++ .instruction tag mnemonic ⟨kind, modifier, some (.name place name)⟩ ::
      back, u.WellFormed good)
    (hbuild : ofStatements (front ++ .instruction tag mnemonic
      ⟨kind, modifier, some (.name place name)⟩ :: back) = .ok program)
    (hlayout : (layout program).labels = .ok labels) (hname : labels[name]? = some address)
    (haddress : InSpace address) :
    ∃ code mode value, Op.ofMnemonic? mnemonic = some code.op ∧
      mode = (if code.op.isConditional then .pcRelative else kind.mode) ∧
      (chunks (layout program).program)[front.countP Statement.addsChunk]? =
        some (.op tag code (.resolved mode value) (FlatWalk.across front).cursor) ∧
      ((modifier = .none → mode ≠ .pcRelative) → value = modifier.held address ∧
        (Chunk.op tag code (.resolved mode value) (FlatWalk.across front).cursor).encode =
          .ok (UInt8.ofNat code.value.toNat :: modifier.written address)) := by
  obtain ⟨code, mode, value, hmnemonic, hmode, hchunk, hresolved, hcode, hfits⟩ :=
    layout_instruction_resolved hform hbuild hlayout
  refine ⟨code, mode, value, hmnemonic, hmode, hchunk, ?_⟩
  intro hdirect
  have hvalue : value = modifier.held address := by
    have hheld := Param.resolve_ofName hname haddress hdirect hresolved
    cases hheld
    rfl
  refine ⟨hvalue, ?_⟩
  rw [Chunk.encode_op hcode hfits, hvalue, Modifier.littleEndian_held haddress]

/-- After the layout, a vector holds the address of its label. -/
theorem layout_vector (hform : ∀ u ∈ front ++ .vector tag name :: back, u.WellFormed good)
    (hbuild : ofStatements (front ++ .vector tag name :: back) = .ok program)
    (hlayout : (layout program).labels = .ok labels) (hname : labels[name]? = some address)
    (haddress : InSpace address) :
    (chunks (layout program).program)[front.countP Statement.addsChunk]? =
        some (.vector tag name address) ∧
      (Chunk.vector tag name address).encode = .ok (Modifier.none.written address) := by
  obtain ⟨hchunk, -, -⟩ := @layout_getElem? good front back (.vector tag name) _ _ _
    hform hbuild hlayout rfl
  rw [Chunk.settledAt_vector hname] at hchunk
  refine ⟨hchunk, ?_⟩
  rw [Chunk.encode_vector haddress]
  exact congrArg Except.ok (Modifier.littleEndian_held haddress .none)

end Program

/-- All references to a label agree.  Let `address` be where the walk meets the last definition of
the name.  Then the label stands for `address`, and so does, after the layout, every reference to
the name, in front of a definition or behind it: an instruction holds the word, the low byte or
the high byte of `address` as its modifier says, unless it branches by a distance, and a vector
holds `address`.  Their bytes are in little-endian order. -/
theorem references_hold_last_definition {unit : Int} {text : List Char}
    {statements before after : List Statement} {program : Program} {labels : Labels}
    {place : Option Tag} {name : String} {address : Int}
    (hparse : Statement.parse unit text = .ok statements)
    (hbuild : Program.ofStatements statements = .ok program)
    (hlayout : (Program.layout program).labels = .ok labels)
    (hlast : statements = before ++ .label place name :: after)
    (hafter : ∀ s ∈ after, ∀ tag, s ≠ .label tag name)
    (haddress : address = (FlatWalk.across before).cursor) :
    labels[name]? = some address ∧
      (∀ front back tag mnemonic kind modifier term,
        statements =
          front ++ .instruction tag mnemonic ⟨kind, modifier, some (.name term name)⟩ :: back →
        ∃ code mode value, Op.ofMnemonic? mnemonic = some code.op ∧
          mode = (if code.op.isConditional then .pcRelative else kind.mode) ∧
          (Program.chunks (Program.layout program).program)[front.countP Statement.addsChunk]? =
            some (.op tag code (.resolved mode value) (FlatWalk.across front).cursor) ∧
          ((modifier = .none → mode ≠ .pcRelative) → value = modifier.held address ∧
            (Chunk.op tag code (.resolved mode value) (FlatWalk.across front).cursor).encode =
              .ok (UInt8.ofNat code.value.toNat :: modifier.written address))) ∧
      ∀ front back tag, statements = front ++ .vector tag name :: back →
        (Program.chunks (Program.layout program).program)[front.countP Statement.addsChunk]? =
            some (.vector tag name address) ∧
          (Chunk.vector tag name address).encode = .ok (Modifier.none.written address) := by
  have hform := Statement.parse_wellFormed hparse
  obtain ⟨-, hlabels⟩ := Program.layout_eq_across hform hbuild hlayout
  have hname : labels[name]? = some address := by
    rw [hlabels, hlast, FlatWalk.across_labels_last hafter, haddress]
  have hspace : InSpace address := by
    rw [hlabels] at hname
    exact (FlatWalk.across_inSpace hform hbuild).labels name address hname
  refine ⟨hname, ?_, ?_⟩
  · intro front back tag mnemonic kind modifier term hsplit
    rw [hsplit] at hform hbuild
    exact Program.layout_instruction_name hform hbuild hlayout hname hspace
  · intro front back tag hsplit
    rw [hsplit] at hform hbuild
    exact Program.layout_vector hform hbuild hlayout hname hspace

/-- A label that is defined twice, with a jump and a vector between the definitions. -/
theorem redefined_label_references :
    ∃ statements program labels,
      Statement.parse 0 "x: jmp x\n.vector x\n.org $1234\nx: nop".toList = .ok statements ∧
      Program.ofStatements statements = .ok program ∧
      (Program.layout program).labels = .ok labels ∧
      labels["x"]? = some 0x1234 ∧
      (∃ code, (Program.chunks (Program.layout program).program)[0]? =
          some (.op (some ⟨0, 3⟩) code (.resolved .absolute ⟨2, 0x1234⟩) 0)) ∧
      (Program.chunks (Program.layout program).program)[1]? =
        some (.vector (some ⟨0, 9⟩) "x" 0x1234) ∧
      (Chunk.vector (some ⟨0, 9⟩) "x" 0x1234).encode = .ok [0x34, 0x12] := by
  let jump : Statement :=
    .instruction (some ⟨0, 3⟩) "jmp" (.plain .address (.name (some ⟨0, 7⟩) "x"))
  let before : List Statement :=
    [.label (some ⟨0, 0⟩) "x", jump, .vector (some ⟨0, 9⟩) "x",
      .org (some ⟨0, 19⟩) ⟨.word, 0x1234⟩]
  let after : List Statement := [.instruction (some ⟨0, 33⟩) "nop" .none]
  have hparse : Statement.parse 0 "x: jmp x\n.vector x\n.org $1234\nx: nop".toList =
      .ok (before ++ Statement.label (some ⟨0, 30⟩) "x" :: after) := rfl
  have hafter : ∀ s ∈ after, ∀ tag, s ≠ .label tag "x" := by
    intro s hs tag
    rw [List.mem_singleton.1 hs]
    exact Statement.noConfusion
  have hrun : (do
      let program ← Program.ofStatements (before ++ Statement.label (some ⟨0, 30⟩) "x" :: after)
      let labels ← (Program.layout program).labels
      return (program, labels)).isOk = true := by decide +kernel
  obtain ⟨result, hrun⟩ := ok_of_isOk hrun
  obtain ⟨program, hbuild, hrun⟩ := bind_ok_inv hrun
  obtain ⟨labels, hlayout, -⟩ := bind_ok_inv hrun
  obtain ⟨hname, hjump, hvector⟩ :=
    references_hold_last_definition hparse hbuild hlayout rfl hafter rfl
  obtain ⟨code, mode, value, hmnemonic, hmode, hchunk, hheld⟩ :=
    hjump [.label (some ⟨0, 0⟩) "x"] _ (some ⟨0, 3⟩) "jmp" .address .none (some ⟨0, 7⟩) rfl
  obtain ⟨hplace, hbytes⟩ :=
    hvector [.label (some ⟨0, 0⟩) "x", jump] _ (some ⟨0, 9⟩) rfl
  have hop : code.op = .jmp := (Option.some.inj hmnemonic).symm
  rw [hop] at hmode
  have habsolute : mode = .absolute := hmode
  obtain ⟨hvalue, -⟩ := hheld (by rw [habsolute]; decide)
  rw [habsolute, hvalue] at hchunk
  exact ⟨_, program, labels, hparse, hbuild, hlayout, hname, ⟨code, hchunk⟩, hplace, hbytes⟩

end Asm65
