import Asm65.Proofs.Failures

/-!
# Branches

A conditional branch holds the distance from the instruction behind it to its target as a signed
byte.  All addresses wrap around, so a target is in reach exactly if some distance that fits the
byte leads there modulo the address space, over its end or not.  There is at most one such distance,
and reading the byte back as a signed number leads to the target again.  Where there is none, the
failure states the shortest way around.
-/

namespace Asm65

/-! ## Distances -/

namespace Reference

/-- A branch at an address reaches a target by a distance that fits a signed byte. -/
def Reaches (address target distance : Int) : Prop :=
  -128 ≤ distance ∧ distance ≤ 127 ∧ (address + 2 + distance - target) % 0x10000 = 0

theorem distance_bounds (address target : Int) :
    -0x8000 ≤ distance address target ∧ distance address target ≤ 0x7FFF := by
  rw [distance, Int.bmod_def]
  omega

theorem distance_leads (address target : Int) :
    (target - address - 2 - distance address target) % 0x10000 = 0 := by
  rw [distance, Int.bmod_def]
  omega

/-- The distance is the only number of sixteen bits that leads from behind a branch to its
target. -/
theorem eq_distance {address target other : Int} (hlow : -0x8000 ≤ other) (hhigh : other ≤ 0x7FFF)
    (hleads : (target - address - 2 - other) % 0x10000 = 0) : other = distance address target := by
  have hbounds := distance_bounds address target
  have hdistance := distance_leads address target
  omega

theorem reaches_iff {address target d : Int} :
    Reaches address target d ↔ d = distance address target ∧ -128 ≤ d ∧ d ≤ 127 := by
  constructor
  · rintro ⟨hlow, hhigh, hleads⟩
    exact ⟨eq_distance (by omega) (by omega) (by omega), hlow, hhigh⟩
  · rintro ⟨rfl, hlow, hhigh⟩
    have hleads := distance_leads address target
    exact ⟨hlow, hhigh, by omega⟩

theorem exists_reaches_iff {address target : Int} :
    (∃ d, Reaches address target d) ↔
      -128 ≤ distance address target ∧ distance address target ≤ 127 := by
  constructor
  · rintro ⟨d, hd⟩
    obtain ⟨rfl, hnear⟩ := reaches_iff.1 hd
    exact hnear
  · intro hnear
    exact ⟨_, reaches_iff.2 ⟨rfl, hnear⟩⟩

/-- From behind the branch, the distance leads to an address of the address space. -/
theorem Reaches.wrap_eq {address target d : Int} (h : Reaches address target d)
    (htarget : InSpace target) : wrap (address + 2 + d) = target := by
  obtain ⟨-, -, hleads⟩ := h
  obtain ⟨hlow, hhigh⟩ := htarget
  rw [Asm65.wrap_eq]
  omega

end Reference

/-- A byte that holds a distance reads back as the distance. -/
theorem toInt_signedByte {d : Int} (hlow : -128 ≤ d) (hhigh : d ≤ 127) :
    (UInt8.ofNat (d % 0x100).toNat).toInt8.toInt = d := by
  have hsize : Int8.size = 0x100 := rfl
  rw [UInt8.toInt8_ofNat', Int8.toInt_ofNat', hsize, Int.bmod_def]
  omega

/-! ## The chunk of a branch -/

namespace Chunk

variable {labels : Labels} {address target position : Int} {tag place : Option Tag} {code : Opcode}
  {name : String}

/-- What becomes of a branch whose label is known. -/
theorem settle_branch (hname : labels[name]? = some target) :
    (op tag code (.address .pcRelative place name) position).settle labels address =
      if -128 ≤ Reference.distance address target ∧ Reference.distance address target ≤ 127 then
        (op tag code (.resolved .pcRelative (.byte (Reference.distance address target))) address,
          .ok (wrap (address + code.length)))
      else
        (op tag code (.address .pcRelative place name) address,
          .error (.problem (.branchRange name (Reference.distance address target)) place)) := by
  have hfind : labels.find name place = .ok target := by
    simp only [Labels.find, hname]
  simp only [settle, Param.resolve, hfind, Reference.branchOffset_eq_distance, bind, Except.bind,
    if_true]
  by_cases hnear :
      -128 ≤ Reference.distance address target ∧ Reference.distance address target ≤ 127
  · simp only [if_pos hnear]
    rfl
  · simp only [if_neg hnear]

theorem settle_branch_of_reaches {d : Int} (hname : labels[name]? = some target)
    (hreach : Reference.Reaches address target d) :
    (op tag code (.address .pcRelative place name) position).settle labels address =
      (op tag code (.resolved .pcRelative (.byte d)) address,
        .ok (wrap (address + code.length))) := by
  obtain ⟨rfl, hnear⟩ := Reference.reaches_iff.1 hreach
  rw [settle_branch hname, if_pos hnear]

theorem settle_branch_of_not_reaches (hname : labels[name]? = some target)
    (hfar : ¬ ∃ d, Reference.Reaches address target d) :
    (op tag code (.address .pcRelative place name) position).settle labels address =
      (op tag code (.address .pcRelative place name) address,
        .error (.problem (.branchRange name (Reference.distance address target)) place)) := by
  rw [settle_branch hname, if_neg (mt Reference.exists_reaches_iff.2 hfar)]

theorem settle_branch_ok_iff (hname : labels[name]? = some target) :
    (∃ next, ((op tag code (.address .pcRelative place name) position).settle labels address).2 =
        .ok next) ↔
      ∃ d, Reference.Reaches address target d := by
  by_cases hreach : ∃ d, Reference.Reaches address target d
  · obtain ⟨d, hd⟩ := hreach
    rw [settle_branch_of_reaches hname hd]
    exact ⟨fun _ => ⟨d, hd⟩, fun _ => ⟨_, rfl⟩⟩
  · rw [settle_branch_of_not_reaches hname hreach]
    simp [hreach]

/-- A branch that has found its distance is two bytes: its opcode and the distance. -/
theorem encode_branch (hcode : code.InSet) (d : Int) :
    (op tag code (.resolved .pcRelative (.byte d)) position).encode =
      .ok [UInt8.ofNat code.value.toNat, UInt8.ofNat (d % 0x100).toNat] := by
  rw [encode_op hcode (OperandValue.byte_fits d)]
  rfl

end Chunk

/-! ## Runs -/

namespace Program

variable {good : Tag → Prop} {front back : List Statement} {s : Statement} {c : Chunk}
  {program measured : Program} {total : Int}

/-- A conditional branch to a label, built among other statements, adds a chunk in the mode of a
distance. -/
theorem piece_branch {tag place : Option Tag} {mnemonic name : String} {kind : OperandKind}
    {operation : Op}
    (hform : ∀ u ∈ front ++ .instruction tag mnemonic
      ⟨kind, .none, some (.name place name)⟩ :: back, u.WellFormed good)
    (hbuild : ofStatements (front ++ .instruction tag mnemonic
      ⟨kind, .none, some (.name place name)⟩ :: back) = .ok program)
    (hmnemonic : Op.ofMnemonic? mnemonic = some operation)
    (hbranch : operation.isConditional = true) :
    ∃ code, Opcode.lookup? operation .pcRelative = some code ∧
      (Statement.instruction tag mnemonic ⟨kind, .none, some (.name place name)⟩).piece =
        .ok (some (.chunk (.op tag code (.address .pcRelative place name) 0))) := by
  have hs := hform _ (List.mem_append_right front List.mem_cons_self)
  obtain ⟨-, hall⟩ := ofStatements_ok hbuild
  obtain ⟨added, hpiece⟩ := hall _ (List.mem_append_right front List.mem_cons_self)
  obtain ⟨c, hmade, hadded⟩ := bind_ok_inv hpiece
  cases hadded
  obtain ⟨code, hfound, rfl⟩ := Chunk.ofInstruction_name hs.2 hmade
  obtain rfl : operation = code.op := Option.some.inj (hmnemonic.symm.trans hfound)
  obtain ⟨hlookup, -⟩ := Statement.piece_fitting hpiece
  rw [if_pos hbranch] at hlookup hpiece
  exact ⟨code, hlookup, hpiece⟩

/-- The listing of a program has its chunks in their order. -/
theorem map_snd_listing (cursor : Int) (program : Program) :
    (Piece.listing cursor (pieces program)).map Prod.snd = chunks program := by
  have hchunks : ∀ (cs : List Chunk) (a : Int),
      (Piece.listing a (cs.map Piece.chunk)).map Prod.snd = cs := by
    intro cs
    induction cs with
    | nil => exact fun _ => rfl
    | cons c cs ih => exact fun a => congrArg (c :: ·) (ih _)
  induction program generalizing cursor with
  | nil => rfl
  | cons b rest ih =>
      rw [pieces_cons, Piece.listing_append, List.map_append, ih]
      exact congrArg (· ++ chunks rest) (hchunks b.chunks _)

theorem chunks_getElem? (hbuild : ofStatements (front ++ s :: back) = .ok program)
    (hpiece : s.piece = .ok (some (.chunk c))) :
    (chunks program)[front.countP Statement.addsChunk]? = some c := by
  rw [← map_snd_listing 0, List.getElem?_map, listing_getElem? hbuild hpiece]
  rfl

/-- A program that the first pass measures is not too large, and the second pass binds the labels
of the walk over its statements. -/
theorem placeFrom_labels {statements : List Statement}
    (hform : ∀ s ∈ statements, s.WellFormed good)
    (hbuild : ofStatements statements = .ok program)
    (hmeasure : measure program = (measured, .ok total)) :
    size program ≤ capacity ∧
      (Block.placeFrom [] .start measured).2.labels = (FlatWalk.across statements).labels := by
  have hsound := ofStatements_sound hform hbuild
  have hfit := fitting_of_sound hsound
  have hsize : size program ≤ capacity := by
    apply Int.not_lt.1
    intro hlarge
    obtain ⟨blocks, herror⟩ := measure_of_too_large hfit hlarge
    rw [herror] at hmeasure
    cases hmeasure
  refine ⟨hsize, ?_⟩
  rw [measure_of_fits hfit hsize] at hmeasure
  obtain ⟨rfl, -⟩ := Prod.mk.inj hmeasure
  obtain ⟨-, hlabels⟩ := @placeFrom_eq good [] .start program ⟨by decide, by decide⟩ hsound
  rw [hlabels, FlatWalk.across_eq_pass hbuild]
  rfl

/-- The first chunk that cannot be settled stops the layout. -/
theorem layout_error_of_settle {e : Error} (hform : ∀ u ∈ front ++ s :: back, u.WellFormed good)
    (hbuild : ofStatements (front ++ s :: back) = .ok program) (hsize : size program ≤ capacity)
    (hpiece : s.piece = .ok (some (.chunk c)))
    (hfirst : ∀ j < front.length, ∀ e', ¬ Statement.Misrefers (front ++ s :: back) j e')
    (hstop : (c.settle (FlatWalk.across (front ++ s :: back)).labels
      (FlatWalk.across front).cursor).2 = .error e) :
    (layout program).labels = .error e := by
  apply (layout_eq_error_iff hform hbuild hsize).2
  refine ⟨front.length, Statement.misrefers_iff.2 ⟨s, by simp, ?_⟩, hfirst⟩
  have hs := hform s (List.mem_append_right front List.mem_cons_self)
  rw [List.take_left, FlatWalk.problem?, ← Statement.reference?_of_piece hs hpiece,
    ← (Statement.piece_fitting hpiece).settleError?_eq]
  simp only [Chunk.settleError?, hstop]

end Program

/-- Branch offsets are sound and complete modulo the address space.  Take a conditional branch to a
label as it stands, without a modifier, in a text whose program can be measured.  Let `address` be
where the walk meets it and `target` what the second pass binds the label to.  The chunk of the
branch can be settled there if and only if a distance that fits a signed byte leads from behind the
branch to `target`.  Then it holds this distance, and its second byte, read as a signed number,
leads to `target`.  Otherwise the failure has the name of the label, the place of the operand and
the only number of sixteen bits that leads there.  This is what the layout does with the branch: a
layout that succeeds leaves the settled chunk, and if nothing is wrong with the statements in
front of it, a branch that cannot be settled stops the layout. -/
theorem branch_settles_iff_reaches {unit : Int} {text : List Char}
    {statements front back : List Statement} {program measured placed : Program}
    {placement : Placement} {total address target : Int} {tag place : Option Tag}
    {mnemonic name : String} {kind : OperandKind} {operation : Op}
    (hparse : Statement.parse unit text = .ok statements)
    (hsplit : statements =
      front ++ .instruction tag mnemonic ⟨kind, .none, some (.name place name)⟩ :: back)
    (hmnemonic : Op.ofMnemonic? mnemonic = some operation)
    (hbranch : operation.isConditional = true)
    (hbuild : Program.ofStatements statements = .ok program)
    (hmeasure : Program.measure program = (measured, .ok total))
    (hplace : Block.placeFrom [] .start measured = (placed, placement))
    (haddress : address = (FlatWalk.across front).cursor)
    (htarget : placement.labels[name]? = some target) :
    ∃ code branch, Opcode.lookup? operation .pcRelative = some code ∧
      branch = Chunk.op tag code (.address .pcRelative place name) 0 ∧
      (Program.chunks program)[front.countP Statement.addsChunk]? = some branch ∧
      ((∃ next, (branch.settle placement.labels address).2 = .ok next) ↔
        ∃ d, Reference.Reaches address target d) ∧
      (∀ d, Reference.Reaches address target d → ∃ settled byte,
        branch.settle placement.labels address = (settled, .ok (wrap (address + 2))) ∧
        settled = Chunk.op tag code (.resolved .pcRelative ⟨1, d % 0x100⟩) address ∧
        settled.encode = .ok [UInt8.ofNat code.value.toNat, byte] ∧
        (byte.toNat : Int) = d % 0x100 ∧ wrap (address + 2 + byte.toInt8.toInt) = target) ∧
      ((¬ ∃ d, Reference.Reaches address target d) → ∃ offset,
        (branch.settle placement.labels address).2 =
          .error (.problem (.branchRange name offset) place) ∧
        ∀ other, (-0x8000 ≤ other ∧ other ≤ 0x7FFF ∧ (target - address - 2 - other) % 0x10000 = 0) ↔
          other = offset) ∧
      (∀ labels, (Program.layout program).labels = .ok labels → labels = placement.labels ∧
        (Program.chunks (Program.layout program).program)[front.countP Statement.addsChunk]? =
          some (branch.settle placement.labels address).1) ∧
      ((∀ j < front.length, ∀ e, ¬ Statement.Misrefers statements j e) →
        ∀ e, (branch.settle placement.labels address).2 = .error e →
          (Program.layout program).labels = .error e) := by
  have hform := Statement.parse_wellFormed hparse
  obtain ⟨hsize, hlabels⟩ := Program.placeFrom_labels hform hbuild hmeasure
  rw [hplace] at hlabels
  subst hsplit haddress
  obtain ⟨code, hlookup, hpiece⟩ := Program.piece_branch hform hbuild hmnemonic hbranch
  have hspace : InSpace target := by
    simp only at hlabels
    rw [hlabels] at htarget
    exact (FlatWalk.across_inSpace hform hbuild).labels name target htarget
  refine ⟨code, _, hlookup, rfl, ?_, Chunk.settle_branch_ok_iff htarget, ?_, ?_, ?_, ?_⟩
  · exact Program.chunks_getElem? hbuild hpiece
  · intro d hreach
    have hcode := Opcode.lookup?_inSet hlookup
    have hlength : code.length = 2 := (Opcode.lookup?_eq_some hlookup).2.2.2.2
    refine ⟨_, UInt8.ofNat (d % 0x100).toNat, ?_, rfl, Chunk.encode_branch hcode d, ?_, ?_⟩
    · rw [Chunk.settle_branch_of_reaches htarget hreach, hlength]
      rfl
    · rw [UInt8.toNat_ofNat']
      omega
    · rw [toInt_signedByte hreach.1 hreach.2.1]
      exact hreach.wrap_eq hspace
  · intro hfar
    refine ⟨Reference.distance (FlatWalk.across front).cursor target, ?_, ?_⟩
    · rw [Chunk.settle_branch_of_not_reaches htarget hfar]
    · intro other
      constructor
      · rintro ⟨hlow, hhigh, hleads⟩
        exact Reference.eq_distance hlow hhigh hleads
      · rintro rfl
        obtain ⟨hlow, hhigh⟩ := Reference.distance_bounds (FlatWalk.across front).cursor target
        exact ⟨hlow, hhigh, Reference.distance_leads _ _⟩
  · intro labels hlayout
    obtain ⟨-, hacross⟩ := Program.layout_eq_across hform hbuild hlayout
    obtain ⟨hchunk, -, -⟩ := Program.layout_getElem? hform hbuild hlayout hpiece
    rw [hacross, ← hlabels] at hchunk ⊢
    exact ⟨rfl, hchunk⟩
  · intro hfirst e hstop
    simp only at hlabels
    rw [hlabels] at hstop
    exact Program.layout_error_of_settle hform hbuild hsize hpiece hfirst hstop

/-- A branch in front of the end of the address space to a label behind its beginning. -/
theorem branch_reaches_over_the_end :
    ∃ statements program measured placed placement total branch settled,
      Statement.parse 0 ".org $FFFE\nbeq x\n.org $0070\nx: nop".toList = .ok statements ∧
      Program.ofStatements statements = .ok program ∧
      Program.measure program = (measured, .ok total) ∧
      Block.placeFrom [] .start measured = (placed, placement) ∧
      (Program.chunks program)[0]? = some branch ∧
      branch.settle placement.labels 0xFFFE = (settled, .ok 0) ∧
      settled.encode = .ok [0xF0, 0x70] := by
  let branch : Statement :=
    .instruction (some ⟨0, 11⟩) "beq" (.plain .address (.name (some ⟨0, 15⟩) "x"))
  let front : List Statement := [.org (some ⟨0, 0⟩) ⟨.word, 0xFFFE⟩]
  let back : List Statement :=
    [.org (some ⟨0, 17⟩) ⟨.word, 0x70⟩, .label (some ⟨0, 28⟩) "x",
      .instruction (some ⟨0, 31⟩) "nop" .none]
  have hparse : Statement.parse 0 ".org $FFFE\nbeq x\n.org $0070\nx: nop".toList =
      .ok (front ++ branch :: back) := rfl
  have hrun : (do
      let program ← Program.ofStatements (front ++ branch :: back)
      let total ← (Program.measure program).2
      return (program, total)).isOk = true := by decide +kernel
  obtain ⟨result, hrun⟩ := ok_of_isOk hrun
  obtain ⟨program, hbuild, hrun⟩ := bind_ok_inv hrun
  obtain ⟨total, htotal, -⟩ := bind_ok_inv hrun
  have hmeasure : Program.measure program = ((Program.measure program).1, .ok total) :=
    Prod.ext rfl htotal
  have hform := Statement.parse_wellFormed hparse
  obtain ⟨-, hlabels⟩ := Program.placeFrom_labels hform hbuild hmeasure
  have htarget : (Block.placeFrom [] .start (Program.measure program).1).2.labels["x"]? =
      some 0x70 := by
    rw [hlabels]
    decide +kernel
  obtain ⟨code, chunk, hcode, -, hchunk, -, hreached, -⟩ :=
    branch_settles_iff_reaches hparse rfl rfl rfl hbuild hmeasure rfl rfl htarget
  obtain ⟨settled, byte, hsettle, -, hencode, hbyte, -⟩ :=
    hreached 0x70 ⟨by decide, by decide, by decide +kernel⟩
  obtain rfl : (⟨.beq, .pcRelative, 0xF0, 2⟩ : Opcode) = code := Option.some.inj hcode
  obtain rfl : byte = 0x70 := UInt8.toNat_inj.1 (Int.ofNat.inj hbyte)
  exact ⟨_, program, _, _, _, total, chunk, settled, hparse, hbuild, hmeasure, rfl, hchunk, hsettle,
    hencode⟩

end Asm65
