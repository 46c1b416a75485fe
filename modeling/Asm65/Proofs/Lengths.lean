import Asm65.Proofs.Sessions

/-!
# Lengths of bytes

The layout counts the bytes of a program before there are any: an instruction by the length of its
form, a block by the sum of its chunks.  After a layout that succeeds these counts are right, also
for programs put together by hand: whatever can be encoded has as many bytes as was counted.
-/

namespace Asm65

/-! ## Chunks -/

namespace Chunk

theorem width_of_checkWidth {tag : Option Tag} {code : Opcode} {param : Param} {position : Int}
    (h : (op tag code param position).checkWidth = .ok ()) : param.width = code.length - 1 := by
  by_cases hwidth : param.width = code.length - 1
  · exact hwidth
  · rw [checkWidth, if_neg hwidth] at h
    cases h

/-- An instruction whose parameter has the right width has as many bytes as it is counted for. -/
theorem length_of_encode {c : Chunk} {data : Bytes} (hwidth : c.checkWidth = .ok ())
    (hencode : c.encode = .ok data) : c.length = .ok data.length := by
  cases c with
  | op tag code param position =>
      cases param with
      | resolved mode value =>
          obtain ⟨opcode, hopcode, hencode⟩ := bind_ok_inv hencode
          obtain ⟨operand, hoperand, hencode⟩ := bind_ok_inv hencode
          cases hencode
          have hone := Bytes.length_of_single hopcode
          have hrest := Bytes.length_of_ofInt hoperand
          have hfills : value.width = code.length - 1 := width_of_checkWidth hwidth
          rw [length, List.length_append]
          congr 1
          omega
      | address mode tag name => cases hencode
      | lowByte mode tag name => cases hencode
      | highByte mode tag name => cases hencode
      | unknown => cases hencode
  | bytes data' =>
      cases hencode
      rfl
  | vector tag label value =>
      have hbytes : Bytes.ofInt vectorWidth value = .ok data := hencode
      rw [Bytes.length_of_ofInt hbytes]
      rfl
  | unknown => cases hencode

end Chunk

/-! ## Blocks -/

namespace Block

/-- Chunks that are counted right one by one are counted right together. -/
theorem length_encodeFrom {written body : Bytes} {sum total : Int} {cs : List Chunk}
    (hcounts : ∀ c ∈ cs, ∀ data, c.encode = .ok data → c.length = .ok data.length)
    (hsum : sumLengths sum cs = .ok total) (hbody : encodeFrom written cs = .ok body) :
    body.length + sum = written.length + total := by
  induction cs generalizing written sum with
  | nil =>
      cases hsum
      cases hbody
      simp
  | cons c cs ih =>
      obtain ⟨hcount, hrest⟩ := List.forall_mem_cons.1 hcounts
      simp only [encodeFrom] at hbody
      split at hbody
      · next data hdata =>
          simp only [sumLengths, hcount data hdata] at hsum
          -- the bytes so far are kept in reverse, which does not change their number
          have htail := ih hrest hsum hbody
          simp only [List.reverseAux_eq, List.length_append, List.length_reverse] at htail
          omega
      · cases hbody

end Block

/-! ## Programs -/

namespace Program

variable {program : Program} {labels : Labels}

theorem length_of_encode (hlayout : (layout program).labels = .ok labels) {b : Block}
    (hb : b ∈ (layout program).program) :
    ∀ c ∈ b.chunks, ∀ data, c.encode = .ok data → c.length = .ok data.length := by
  intro c hc data hdata
  obtain ⟨-, hwidths⟩ := measure_of_layout_ok hlayout
  have hblock := forM_eq_ok_iff.1 hwidths b hb
  exact Chunk.length_of_encode (forM_eq_ok_iff.1 hblock c hc) hdata

theorem sumLengths_of_measure {total : Int} (h : measure program = (program, .ok total)) :
    ∀ b ∈ program, Block.sumLengths 0 b.chunks = .ok b.length := by
  have hwalk : walk Block.measure 0 program = (program, .ok total) := by
    unfold measure at h
    split at h
    · cases h
    · next measured sum hwalk =>
        obtain ⟨rfl, hsum⟩ := Prod.mk.inj h
        split at hsum <;> cases hsum
        exact hwalk
  intro b hb
  obtain ⟨before, after, hstep⟩ := step_of_walk_fixed hwalk b hb
  unfold Block.measure at hstep
  split at hstep
  · cases (Prod.mk.inj hstep).2
  · next length hlength =>
      have hmeasured : length = b.length := congrArg Block.length (Prod.mk.inj hstep).1
      rw [hlength, hmeasured]

theorem length_of_encode_block (hlayout : (layout program).labels = .ok labels) {b : Block}
    {body : Bytes} (hb : b ∈ (layout program).program) (hbody : b.encode = .ok body) :
    (body.length : Int) = b.length := by
  obtain ⟨⟨total, hmeasure⟩, -⟩ := measure_of_layout_ok hlayout
  have hsum := sumLengths_of_measure hmeasure b hb
  have hlength := Block.length_encodeFrom (length_of_encode hlayout hb) hsum hbody
  simpa using hlength

/-- The chunks of a program that was built from well-formed statements and laid out have bytes. -/
theorem encode_layout {good : Tag → Prop} (hsound : ∀ p ∈ pieces program, p.Sound good)
    (hlayout : (layout program).labels = .ok labels) :
    ∀ c ∈ chunks (layout program).program, c.encode = .ok c.data := by
  intro c hc
  obtain ⟨-, hprogram, -⟩ := layout_ok hsound hlayout
  obtain ⟨hencodes, -⟩ := image_layout hsound hlayout
  rw [hprogram, chunks_settledFrom] at hc
  obtain ⟨site, hsite, rfl⟩ := List.mem_map.1 hc
  exact (hencodes site hsite).encode_eq

end Program

/-- The lengths of a layout are the lengths of the bytes.  After a layout that succeeds, every
chunk that can be encoded has as many bytes as its length says, and so has every block.  If the
program was built from a text, or from what a session has read, every chunk and every block can be
encoded. -/
theorem encoded_length_eq_layout_length {program : Program} {labels : Labels}
    (hlayout : (Program.layout program).labels = .ok labels) :
    (∀ block ∈ (Program.layout program).program,
      (∀ chunk ∈ block.chunks, ∀ data, chunk.encode = .ok data →
        chunk.length = .ok data.length) ∧
      ∀ body, block.encode = .ok body → (body.length : Int) = block.length) ∧
      ∀ statements, ((∃ unit text, Statement.parse unit text = .ok statements) ∨
          ∃ session : Session, session.Reachable ∧ session.statements = statements) →
        Program.ofStatements statements = .ok program →
        ∀ block ∈ (Program.layout program).program,
          (∀ chunk ∈ block.chunks, ∃ data, chunk.encode = .ok data) ∧
          ∃ body, block.encode = .ok body := by
  refine ⟨?_, ?_⟩
  · intro block hblock
    exact ⟨Program.length_of_encode hlayout hblock,
      fun body hbody => Program.length_of_encode_block hlayout hblock hbody⟩
  · intro statements hread hbuild block hblock
    obtain ⟨good, hform⟩ : ∃ good, ∀ s ∈ statements, s.WellFormed good := by
      rcases hread with ⟨unit, text, hparse⟩ | ⟨session, hreach, rfl⟩
      · exact ⟨_, Statement.parse_wellFormed hparse⟩
      · exact ⟨_, hreach.covered⟩
    have hsound := Program.ofStatements_sound hform hbuild
    have hencode : ∀ chunk ∈ block.chunks, chunk.encode = .ok chunk.data := fun chunk hchunk =>
      Program.encode_layout hsound hlayout chunk (List.mem_flatMap.2 ⟨block, hblock, hchunk⟩)
    exact ⟨fun chunk hchunk => ⟨chunk.data, hencode chunk hchunk⟩,
      ⟨_, Block.encodeFrom_eq hencode⟩⟩

/-- Two blocks with an instruction, a vector and data. -/
theorem encoded_length_of_two_blocks :
    ∃ statements program labels,
      Statement.parse 0 "jmp x\n.vector x\nx: .byte 1, 2".toList = .ok statements ∧
      Program.ofStatements statements = .ok program ∧
      (Program.layout program).labels = .ok labels ∧
      (Program.layout program).program.map Block.length = [5, 2] ∧
      ∀ block ∈ (Program.layout program).program,
        ∃ body, block.encode = .ok body ∧ (body.length : Int) = block.length := by
  let statements : List Statement :=
    [.instruction (some ⟨0, 0⟩) "jmp" (.plain .address (.name (some ⟨0, 4⟩) "x")),
      .vector (some ⟨0, 6⟩) "x", .label (some ⟨0, 16⟩) "x",
      .bytes (some ⟨0, 19⟩) [⟨.byte, 1⟩, ⟨.byte, 2⟩]]
  let jump : Chunk := .op (some ⟨0, 0⟩) ⟨.jmp, .absolute, 0x4C, 3⟩
    (.address .absolute (some ⟨0, 4⟩) "x") 0
  let program : Program :=
    [⟨none, none, [jump, .vector (some ⟨0, 6⟩) "x" 0], 0⟩, ⟨none, some "x", [.bytes [1, 2]], 0⟩]
  have hparse : Statement.parse 0 "jmp x\n.vector x\nx: .byte 1, 2".toList = .ok statements := rfl
  have hbuild : Program.ofStatements statements = .ok program := rfl
  have hrun : (Program.layout program).labels.isOk = true := by decide +kernel
  obtain ⟨labels, hlayout⟩ := ok_of_isOk hrun
  obtain ⟨hlengths, hencodes⟩ := encoded_length_eq_layout_length hlayout
  refine ⟨statements, program, labels, hparse, hbuild, hlayout, by decide +kernel, ?_⟩
  intro block hblock
  obtain ⟨-, body, hbody⟩ := hencodes statements (Or.inl ⟨0, _, hparse⟩) hbuild block hblock
  exact ⟨body, hbody, (hlengths block hblock).2 body hbody⟩

end Asm65
