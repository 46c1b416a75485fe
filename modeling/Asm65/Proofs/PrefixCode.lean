import Mathlib.Data.List.Nodup
import Asm65.Proofs.Literals

/-!
# Instructions form a prefix code

No two forms of the instruction set share an opcode byte.  So the first byte of an instruction tells
its operation and its mode, the mode tells how many bytes follow, and these bytes are the operand,
lowest byte first.  Bytes that begin with an instruction begin with no other one, and the bytes of
instructions one behind the other can be read in one way only.

What the argument relies on holds of every program that was built and laid out: its instructions are
forms of the instruction set, and their operands are known and fit the bytes behind the opcode.
-/

namespace Asm65

/-! ## Opcode bytes -/

theorem Op.mem_all (op : Op) : op ∈ Op.all := by
  cases op <;> decide

namespace Opcode

/-- The forms of the instruction set: every operation in every mode it has, with its byte. -/
def forms : List (Op × Mode × UInt8) :=
  Op.all.flatMap fun op => op.encodings.map fun (mode, value) => (op, mode, value)

theorem nodup_bytes : (forms.map fun form => form.2.2.toNat).Nodup := by
  decide +kernel

/-- A form of the instruction set is told by its byte. -/
theorem InSet.eq_of_byte {code other : Opcode} (hcode : code.InSet) (hother : other.InSet)
    (h : UInt8.ofNat code.value.toNat = UInt8.ofNat other.value.toNat) : code = other := by
  obtain ⟨byte, hmem, hcode⟩ := lookup?_eq_some_iff.1 hcode
  obtain ⟨byte', hmem', hother⟩ := lookup?_eq_some_iff.1 hother
  rw [hcode, hother] at h ⊢
  have hbytes : byte = byte' := by simpa using h
  have hform : (code.op, code.mode, byte) ∈ forms :=
    List.mem_flatMap.2 ⟨_, Op.mem_all _, List.mem_map.2 ⟨_, hmem, rfl⟩⟩
  have hform' : (other.op, other.mode, byte') ∈ forms :=
    List.mem_flatMap.2 ⟨_, Op.mem_all _, List.mem_map.2 ⟨_, hmem', rfl⟩⟩
  have hforms := List.inj_on_of_nodup_map nodup_bytes hform hform' (congrArg UInt8.toNat hbytes)
  simp only [Prod.mk.injEq] at hforms
  obtain ⟨hop, hmode, -⟩ := hforms
  rw [hop, hmode, hbytes]

theorem InSet.length_le {code : Opcode} (h : code.InSet) : code.length ≤ 3 := by
  obtain ⟨-, -, -, -, hlength⟩ := lookup?_eq_some h
  have hmode : code.mode.length ≤ 3 := by
    cases code.mode <;> decide
  omega

end Opcode

/-- A number that fits is told by its bytes. -/
theorem Bytes.littleEndian_inj {width m n : Nat} (hm : m < 256 ^ width) (hn : n < 256 ^ width)
    (h : littleEndian width m = littleEndian width n) : m = n := by
  rw [← value_littleEndian hm, ← value_littleEndian hn, h]

/-! ## Instructions -/

namespace Chunk

/-- A form of the instruction set with a value that is as wide as the bytes behind the opcode and
fits them. -/
def IsInstruction : Chunk → Prop
  | .op _ code (.resolved _ value) _ =>
      code.InSet ∧ value.width = code.length - 1 ∧ 0 ≤ value.value ∧
        value.value < 256 ^ value.width.toNat
  | _ => False

/-- Two instructions with the same operation in the same mode and the same operand. -/
inductive SameInstruction : Chunk → Chunk → Prop
  | op {tag tag' : Option Tag} {code code' : Opcode} {mode mode' : Mode}
      {value value' : OperandValue} {position position' : Int} (hop : code.op = code'.op)
      (hmode : code.mode = code'.mode) (hvalue : value.value = value'.value) :
      SameInstruction (.op tag code (.resolved mode value) position)
        (.op tag' code' (.resolved mode' value') position')

/-- The bytes of chunks one behind the other. -/
def encodeAll (cs : List Chunk) : Except Fault Bytes :=
  (cs.mapM encode).map List.flatten

variable {c d : Chunk} {cs ds : List Chunk}

theorem encodeAll_eq (h : ∀ c ∈ cs, c.encode = .ok c.data) :
    encodeAll cs = .ok (cs.flatMap data) := by
  have hparts : cs.mapM encode = .ok (cs.map data) := by
    induction cs with
    | nil => rfl
    | cons c cs ih =>
        obtain ⟨hc, hcs⟩ := List.forall_mem_cons.1 h
        rw [List.mapM_cons, hc, ih hcs]
        rfl
  rw [encodeAll, hparts]
  rfl

/-- What an instruction is made of, and its bytes. -/
theorem IsInstruction.exists_bytes (h : c.IsInstruction) :
    ∃ tag code mode value position, c = .op tag code (.resolved mode value) position ∧
      code.InSet ∧ value.width = code.length - 1 ∧ value.Fits ∧
      c.encode = .ok (code.bytes value) := by
  unfold IsInstruction at h
  split at h
  · next tag code mode value position =>
      obtain ⟨hcode, hwidth, hlow, hhigh⟩ := h
      have hpos := hcode.length_pos
      have hle := hcode.length_le
      have hfits : value.Fits := ⟨by omega, by omega, hlow, hhigh⟩
      exact ⟨tag, code, mode, value, position, rfl, hcode, hwidth, hfits,
        encode_op hcode hfits⟩
  · exact h.elim

theorem IsInstruction.encode_eq (h : c.IsInstruction) : c.encode = .ok c.data := by
  obtain ⟨_, _, _, _, _, -, -, -, -, hencode⟩ := h.exists_bytes
  rw [hencode, data_of_encode hencode]

theorem IsInstruction.data_ne_nil (h : c.IsInstruction) : c.data ≠ [] := by
  obtain ⟨_, _, _, _, _, -, -, -, -, hencode⟩ := h.exists_bytes
  rw [data_of_encode hencode]
  exact List.cons_ne_nil _ _

/-- Bytes that begin with an instruction begin with no other one. -/
theorem IsInstruction.append_inj (hc : c.IsInstruction) (hd : d.IsInstruction)
    {rest others : Bytes} (h : c.data ++ rest = d.data ++ others) :
    SameInstruction c d ∧ rest = others := by
  obtain ⟨_, code, _, value, _, rfl, hcode, hwidth, hfits, hencode⟩ := hc.exists_bytes
  obtain ⟨_, code', _, value', _, rfl, hcode', hwidth', hfits', hencode'⟩ := hd.exists_bytes
  rw [data_of_encode hencode, data_of_encode hencode', Opcode.bytes, Opcode.bytes,
    List.cons_append, List.cons_append] at h
  obtain ⟨hbyte, hbehind⟩ := List.cons.inj h
  -- the opcode tells how many of the bytes behind it belong to the operand
  obtain rfl := hcode.eq_of_byte hcode' hbyte
  have hwidths : value.width = value'.width := hwidth.trans hwidth'.symm
  have hlow' := hfits'.value_lt
  rw [← hwidths] at hbehind hlow'
  obtain ⟨hoperand, hrest⟩ := List.append_inj hbehind (by simp only [Bytes.littleEndian_length])
  have hvalue : value.value = value'.value := by
    have hcast : ((256 ^ value.width.toNat : Nat) : Int) = 256 ^ value.width.toNat := by simp
    have hlow := hfits.value_lt
    have hnonneg := hfits.value_nonneg
    have hnonneg' := hfits'.value_nonneg
    have hnat := Bytes.littleEndian_inj (by omega) (by omega) hoperand
    omega
  exact ⟨.op rfl rfl hvalue, hrest⟩

/-- Instructions with the same bytes are the same, one by one. -/
theorem forall₂_sameInstruction (hcs : ∀ c ∈ cs, c.IsInstruction)
    (hds : ∀ d ∈ ds, d.IsInstruction) (h : cs.flatMap data = ds.flatMap data) :
    List.Forall₂ SameInstruction cs ds := by
  induction cs generalizing ds with
  | nil =>
      cases ds with
      | nil => exact .nil
      | cons d ds =>
          have hd := (hds d List.mem_cons_self).data_ne_nil
          simp [hd] at h
  | cons c cs ih =>
      obtain ⟨hc, hcs⟩ := List.forall_mem_cons.1 hcs
      cases ds with
      | nil => simp [hc.data_ne_nil] at h
      | cons d ds =>
          obtain ⟨hd, hds⟩ := List.forall_mem_cons.1 hds
          rw [List.flatMap_cons, List.flatMap_cons] at h
          obtain ⟨hsame, hrest⟩ := hc.append_inj hd h
          exact .cons hsame (ih hcs hds hrest)

end Chunk

/-! ## Instructions of programs -/

/-- A value that is known fits. -/
def Param.ValueFits : Param → Prop
  | .resolved _ value => value.Fits
  | _ => True

namespace Param

theorem ofOperand_valueFits {operand : Operand} {param : Param}
    (h : ofOperand operand = .ok param) : param.ValueFits := by
  unfold ofOperand at h
  split at h
  · cases h
    exact OperandValue.none_fits
  · simp only at h
    split at h
    · have hsound := @ofNumber_sound (fun _ => True) _ _ _ _ _ h
      cases param with
      | resolved mode value => exact hsound
      | _ => trivial
    · cases h
      unfold ofName
      split <;> trivial
    · cases h

theorem ValueFits.withMode {param : Param} (h : param.ValueFits) (newMode : Mode) :
    (param.withMode newMode).ValueFits := by
  cases param with
  | resolved mode value => exact h
  | _ => trivial

theorem ValueFits.resolve {param resolved : Param} {labels : Labels} {position : Int}
    (h : param.ValueFits) (hresolve : param.resolve labels position = .ok resolved) :
    resolved.ValueFits := by
  obtain ⟨value, hvalue, -, rfl | hfits⟩ := resolve_eq_ok hresolve
  · exact h
  · rw [hvalue]
    exact hfits

end Param

namespace Chunk

/-- What building guarantees of an instruction: it fits, and so does its value if it is known. -/
def Sized (c : Chunk) : Prop :=
  c.Fitting ∧ ∀ tag code param position, c = .op tag code param position → param.ValueFits

theorem Sized.settle {labels : Labels} {position : Int} {c : Chunk} (h : c.Sized) :
    (c.settle labels position).1.Sized := by
  refine ⟨h.1.settle, ?_⟩
  intro tag code param place hop
  cases c with
  | op tag' code' param' place' =>
      have hvalue := h.2 _ _ _ _ rfl
      simp only [Chunk.settle] at hop
      split at hop
      · next resolved hresolve =>
          cases hop
          exact hvalue.resolve hresolve
      · cases hop
        exact hvalue
  | bytes data => cases hop
  | vector tag' label value =>
      simp only [Chunk.settle] at hop
      split at hop <;> cases hop
  | unknown => cases hop

/-- An instruction that settling leaves as it is has a value. -/
theorem Sized.isInstruction {labels : Labels} {tag : Option Tag} {code : Opcode} {param : Param}
    {position place next : Int} (h : (op tag code param position).Sized)
    (hsettled : (op tag code param position).settle labels place =
      (op tag code param position, .ok next)) :
    (op tag code param position).IsInstruction := by
  simp only [Chunk.settle] at hsettled
  split at hsettled
  · next resolved hresolve =>
      obtain ⟨value, hvalue, -⟩ := Param.resolve_eq_ok hresolve
      generalize param.mode = mode at hvalue
      subst hvalue
      cases hsettled
      obtain ⟨hcode, hwidth, -⟩ := h.1
      have hfits : value.Fits := h.2 _ _ _ _ rfl
      exact ⟨Opcode.lookup?_inSet hcode, hwidth, hfits.value_nonneg, hfits.value_lt⟩
  · cases hsettled

end Chunk

theorem Statement.piece_sized {s : Statement} {c : Chunk}
    (h : s.piece = .ok (some (.chunk c))) : c.Sized := by
  refine ⟨piece_fitting h, ?_⟩
  rintro tag code param position rfl
  cases adds_of_piece h with
  | instruction _ mnemonic operand _ _ hmade =>
      obtain ⟨operation, written, _, _, -, hwritten, hparam, -, -, hop⟩ :=
        Chunk.ofInstruction_eq_ok hmade
      cases hop
      have hvalue := Param.ofOperand_valueFits hwritten
      rw [hparam]
      split
      · exact hvalue.withMode _
      · exact hvalue

namespace Program

variable {program : Program} {labels : Labels}

/-- The layout keeps what settling keeps of every chunk. -/
theorem forall_mem_layout {good : Chunk → Prop}
    (hsettle : ∀ labels position c, good c → good (c.settle labels position).1)
    (h : ∀ b ∈ program, ∀ c ∈ b.chunks, good c) :
    ∀ b ∈ (layout program).program, ∀ c ∈ b.chunks, good c := by
  let kept (b : Block) : Prop := ∀ c ∈ b.chunks, good c
  have hmeasured : ∀ b ∈ (measure program).1, kept b := by
    have hwalk := @forall_mem_walk _ _ _ Block.measure kept (fun total b hb => by
      unfold Block.measure
      split <;> exact hb) 0 program h
    unfold measure
    split <;> next hmeasure => rwa [hmeasure] at hwalk
  cases hmeasure : measure program with
  | mk measured outcome =>
      rw [hmeasure] at hmeasured
      cases outcome with
      | error e =>
          simp only [layout, hmeasure]
          exact hmeasured
      | ok total =>
          obtain ⟨placed, settled, placement, found, hpasses⟩ := exists_passes hmeasure
          have hplaced := @forall_mem_walk _ _ _ Block.placeStep kept (fun _ _ hb => hb) .start
            measured hmeasured
          rw [walk, Block.walkFrom_placeStep, hpasses.hplace] at hplaced
          have hsettled := @forall_mem_walk _ _ _ (fun _ b => b.settle placement.labels) kept
            (fun _ b hb => forall_mem_walk (hsettle placement.labels) hb) () placed hplaced
          rw [hpasses.hsettle] at hsettled
          rw [hpasses.program_eq]
          exact hsettled

/-- After a layout that succeeds, settling any chunk again leaves it as it is. -/
theorem settle_of_layout_ok (h : (layout program).labels = .ok labels) :
    ∀ b ∈ (layout program).program, ∀ c ∈ b.chunks, ∃ labels position next,
      c.settle labels position = (c, .ok next) := by
  cases hmeasure : measure program with
  | mk measured outcome =>
      cases outcome with
      | error e =>
          simp only [layout, hmeasure] at h
          cases h
      | ok total =>
          obtain ⟨placed, settled, placement, found, hpasses⟩ := exists_passes hmeasure
          rw [hpasses.program_eq]
          rw [hpasses.layout_eq] at h
          cases found with
          | error e => cases h
          | ok done =>
              intro b hb c hc
              obtain ⟨_, _, hblock⟩ := step_of_walk_fixed hpasses.again.hsettle b hb
              obtain ⟨last, hchunks, -⟩ := Block.settle_ok hblock
              obtain ⟨before, after, hchunk⟩ := step_of_walk_fixed hchunks c hc
              exact ⟨placement.labels, before, after, hchunk⟩

/-- The instructions of a program that was built and laid out have operands that are known. -/
theorem isInstruction_of_layout {statements : List Statement}
    (hbuild : ofStatements statements = .ok program)
    (hlayout : (layout program).labels = .ok labels) {tag : Option Tag} {code : Opcode}
    {param : Param} {position : Int}
    (hmem : Chunk.op tag code param position ∈ chunks (layout program).program) :
    (Chunk.op tag code param position).IsInstruction := by
  obtain ⟨b, hb, hc⟩ := List.mem_flatMap.1 hmem
  have hbuilt : ∀ b ∈ program, ∀ c ∈ b.chunks, c.Sized := by
    intro b hb c hc
    obtain ⟨s, -, hpiece⟩ :=
      exists_statement_of_mem_chunks hbuild (List.mem_flatMap.2 ⟨b, hb, hc⟩)
    exact Statement.piece_sized hpiece
  have hsized := forall_mem_layout (fun _ _ _ => Chunk.Sized.settle) hbuilt b hb _ hc
  obtain ⟨_, _, _, hsettled⟩ := settle_of_layout_ok hlayout b hb _ hc
  exact hsized.isInstruction hsettled

end Program

/-- Streams of instructions are uniquely decodable.  Instructions of the instruction set whose
operands fill the bytes behind their opcodes have bytes; and if two sequences of them have the same
bytes, one behind the other, then they are of the same length and agree one by one in operation,
mode and operand.  All instructions of a program that was built from statements, of a text or put
together by hand, and laid out are of this kind. -/
theorem instruction_streams_decode_uniquely {xs ys : List Chunk}
    (hxs : ∀ c ∈ xs, c.IsInstruction) (hys : ∀ c ∈ ys, c.IsInstruction) :
    (∃ bytes, Chunk.encodeAll xs = .ok bytes) ∧
    (Chunk.encodeAll xs = Chunk.encodeAll ys →
      xs.length = ys.length ∧ List.Forall₂ Chunk.SameInstruction xs ys) ∧
    ∀ statements program labels, Program.ofStatements statements = .ok program →
      (Program.layout program).labels = .ok labels →
      ∀ tag code param position,
        Chunk.op tag code param position ∈ Program.chunks (Program.layout program).program →
        (Chunk.op tag code param position).IsInstruction := by
  have hbytes := Chunk.encodeAll_eq fun c hc => (hxs c hc).encode_eq
  have hothers := Chunk.encodeAll_eq fun c hc => (hys c hc).encode_eq
  refine ⟨⟨_, hbytes⟩, ?_, ?_⟩
  · intro hsame
    rw [hbytes, hothers] at hsame
    have hforall := Chunk.forall₂_sameInstruction hxs hys (Except.ok.inj hsame)
    exact ⟨hforall.length_eq, hforall⟩
  · intro statements program labels hbuild hlayout tag code param position hmem
    exact Program.isInstruction_of_layout hbuild hlayout hmem

/-- A load and a jump that have not been placed, and the same two in a program. -/
theorem load_and_jump_decode_uniquely :
    let load (position : Int) : Chunk :=
      .op none ⟨.lda, .immediate, 0xA9, 2⟩ (.resolved .immediate ⟨1, 0x10⟩) position
    let jump (position : Int) : Chunk :=
      .op none ⟨.jmp, .absolute, 0x4C, 3⟩ (.resolved .absolute ⟨2, 0x8000⟩) position
    let statements : List Statement :=
      [.org none ⟨.word, 0x8000⟩, .label none "x",
        .instruction none "lda" (.plain .immediate (.number none ⟨.byte, 0x10⟩)),
        .instruction none "jmp" (.plain .address (.name none "x"))]
    Chunk.encodeAll [load 0, jump 0] = .ok [0xA9, 0x10, 0x4C, 0x00, 0x80] ∧
    ∃ program labels, Program.ofStatements statements = .ok program ∧
      (Program.layout program).labels = .ok labels ∧
      List.Forall₂ Chunk.SameInstruction [load 0, jump 0]
        (Program.chunks (Program.layout program).program) := by
  intro load jump statements
  let program : Program :=
    [⟨some 0x8000, none, [], 0⟩,
      ⟨none, some "x", [load 0, .op none ⟨.jmp, .absolute, 0x4C, 3⟩
        (.address .absolute none "x") 0], 0⟩]
  have hbuild : Program.ofStatements statements = .ok program := rfl
  have hrun : (Program.layout program).labels.isOk = true := by decide +kernel
  obtain ⟨labels, hlayout⟩ := ok_of_isOk hrun
  have hchunks : Program.chunks (Program.layout program).program = [load 0x8000, jump 0x8002] := by
    decide +kernel
  have hbytes (first second : Int) : Chunk.encodeAll [load first, jump second] =
      .ok [0xA9, 0x10, 0x4C, 0x00, 0x80] := rfl
  have hxs : ∀ c ∈ [load 0, jump 0], c.IsInstruction :=
    List.forall_mem_cons.2 ⟨⟨rfl, rfl, by decide, by decide⟩,
      List.forall_mem_singleton.2 ⟨rfl, rfl, by decide, by decide⟩⟩
  obtain ⟨-, -, hprogram⟩ := instruction_streams_decode_uniquely hxs hxs
  have hplaced := hprogram statements program labels hbuild hlayout
  rw [hchunks] at hplaced
  have hys : ∀ c ∈ [load 0x8000, jump 0x8002], c.IsInstruction :=
    List.forall_mem_cons.2 ⟨hplaced _ _ _ _ (by simp [load]),
      List.forall_mem_singleton.2 (hplaced _ _ _ _ (by simp [jump]))⟩
  obtain ⟨-, hsame, -⟩ := instruction_streams_decode_uniquely hxs hys
  refine ⟨hbytes 0 0, program, labels, hbuild, hlayout, ?_⟩
  rw [hchunks]
  exact (hsame ((hbytes _ _).trans (hbytes _ _).symm)).2

end Asm65
