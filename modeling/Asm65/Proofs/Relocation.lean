import Asm65.Proofs.Branches
import Asm65.Proofs.Outcomes

/-!
# Relocation

Statements that do not move the cursor themselves can be placed anywhere.  At another address they
fail in the same way, or all their addresses move by the same distance around the address space,
even if they straddle its end at one address and not at the other.  Their bytes stay, but for those
that hold the address of a label; branches hold distances, which do not change.
-/

namespace Asm65

/-! ## Addresses that move -/

/-- An address moved by a distance around the address space. -/
def shifted (distance address : Int) : Int :=
  wrap (address + distance)

theorem shifted_inSpace (distance address : Int) : InSpace (shifted distance address) :=
  wrap_inSpace _

/-- To go on and to move by a distance can be done in any order. -/
theorem wrap_shifted_add (distance address size : Int) :
    wrap (shifted distance address + size) = shifted distance (wrap (address + size)) := by
  simp only [shifted, wrap_eq]
  omega

theorem shifted_sub {low high : Int} (hhigh : InSpace high) : shifted (high - low) low = high := by
  obtain ⟨hnonneg, hlt⟩ := hhigh
  simp only [shifted, wrap_eq]
  omega

/-- The distance between two addresses stays if both move. -/
theorem Reference.distance_shifted (d address target : Int) :
    distance (shifted d address) (shifted d target) = distance address target := by
  simp only [distance, shifted, wrap_eq, Int.bmod_def]
  omega

/-- The labels of one table are those of another, moved by a distance. -/
def Labels.Shifted (distance : Int) (low high : Labels) : Prop :=
  ∀ name : String, high[name]? = low[name]?.map (shifted distance)

/-- A map entry whose address has moved by a distance. -/
def MapEntry.shifted (distance : Int) (entry : MapEntry) : MapEntry :=
  { entry with address := Asm65.shifted distance entry.address }

theorem Reference.problem?_shifted {d : Int} {low high : Labels} (h : low.Shifted d high)
    (r : Reference) (position : Int) :
    r.problem? high (shifted d position) = r.problem? low position := by
  simp only [problem?, h r.name]
  cases low[r.name]? with
  | none => rfl
  | some target => simp only [Option.map_some, distance_shifted]

/-! ## The flat walk -/

namespace FlatWalk

/-- The walk before the first statement behind a move. -/
def startAt (address : Int) : FlatWalk :=
  { start with cursor := address }

/-- One walk is another one moved by a distance. -/
structure Shifted (distance : Int) (low high : FlatWalk) : Prop where
  cursor : high.cursor = shifted distance low.cursor
  labels : low.labels.Shifted distance high.labels
  instructions : high.instructions = low.instructions.map (MapEntry.shifted distance)

variable {d : Int} {low high : FlatWalk} {s : Statement} {statements : List Statement}

theorem startAt_shifted {lowAddress highAddress : Int} (hhigh : Asm65.InSpace highAddress) :
    (startAt lowAddress).Shifted (highAddress - lowAddress) (startAt highAddress) where
  cursor := (shifted_sub hhigh).symm
  labels := by
    intro name
    simp [startAt, start]
  instructions := rfl

theorem Shifted.advance (h : low.Shifted d high) (size : Int) :
    wrap (high.cursor + size) = shifted d (wrap (low.cursor + size)) := by
  rw [h.cursor, wrap_shifted_add]

theorem Shifted.insert (h : low.Shifted d high) (name : String) :
    Labels.Shifted d (low.labels.insert name low.cursor) (high.labels.insert name high.cursor) := by
  intro other
  rw [Labels.getElem?_insert, Labels.getElem?_insert]
  by_cases hname : other = name
  · rw [if_pos hname, if_pos hname, h.cursor]
    rfl
  · rw [if_neg hname, if_neg hname, h.labels other]

/-- A statement that does not move the cursor keeps one walk moved against the other. -/
theorem Shifted.step (h : low.Shifted d high) (hs : s.isMove = false) :
    (low.step s).Shifted d (high.step s) := by
  cases s with
  | comment tag => exact h
  | includeFile tag path => exact h
  | unknown => exact h
  | org tag address => cases hs
  | pad tag address => cases hs
  | label tag name => exact ⟨h.cursor, h.insert name, h.instructions⟩
  | bytes tag values => exact ⟨h.advance _, h.labels, h.instructions⟩
  | words tag values => exact ⟨h.advance _, h.labels, h.instructions⟩
  | vector tag label => exact ⟨h.advance _, h.labels, h.instructions⟩
  | instruction tag mnemonic operand =>
      refine ⟨h.advance _, h.labels, ?_⟩
      show high.instructions ++ [⟨high.cursor, tag⟩] = _
      rw [h.instructions, h.cursor, FlatWalk.step, List.map_append]
      rfl

/-- Any number of statements that do not move the cursor do. -/
theorem Shifted.foldl_step (h : low.Shifted d high) (hstays : ∀ s ∈ statements, s.isMove = false) :
    (statements.foldl FlatWalk.step low).Shifted d (statements.foldl FlatWalk.step high) := by
  induction statements generalizing low high with
  | nil => exact h
  | cons s rest ih =>
      obtain ⟨hs, hrest⟩ := List.forall_mem_cons.1 hstays
      exact ih (h.step hs) hrest

/-- Walks that are moved against each other find the same first problem. -/
theorem Shifted.firstProblem?_eq {lowLabels highLabels : Labels} (h : low.Shifted d high)
    (hlabels : lowLabels.Shifted d highLabels) (hstays : ∀ s ∈ statements, s.isMove = false) :
    high.firstProblem? highLabels statements = low.firstProblem? lowLabels statements := by
  induction statements generalizing low high with
  | nil => rfl
  | cons s rest ih =>
      obtain ⟨hs, hrest⟩ := List.forall_mem_cons.1 hstays
      have hproblem : high.problem? highLabels s = low.problem? lowLabels s := by
        simp only [problem?, h.cursor, Reference.problem?_shifted hlabels]
      rw [firstProblem?, firstProblem?, hproblem, ih (h.step hs) hrest]

end FlatWalk

/-! ## What stops statements behind a move -/

namespace Statement

variable {statements : List Statement} {tag : Option Tag} {address : Int}

theorem firstError?_org :
    firstError? (.org tag ⟨.word, address⟩ :: statements) =
      (statements.findSome? buildError?).or
        (if capacity < (statements.map size).sum then some (.problem .capacity none)
        else (FlatWalk.startAt address).firstProblem?
          (statements.foldl FlatWalk.step (.startAt address)).labels statements) := by
  have hsize : ((Statement.org tag ⟨.word, address⟩ :: statements).map size).sum =
      (statements.map size).sum := by
    rw [List.map_cons, List.sum_cons]
    exact Int.zero_add _
  unfold firstError?
  rw [hsize]
  rfl

theorem firstError?_org_eq {otherTag : Option Tag} {other : Int} (hother : InSpace other)
    (hstays : ∀ s ∈ statements, s.isMove = false) :
    firstError? (.org otherTag ⟨.word, other⟩ :: statements) =
      firstError? (.org tag ⟨.word, address⟩ :: statements) := by
  have hstart := @FlatWalk.startAt_shifted address other hother
  rw [firstError?_org, firstError?_org,
    hstart.firstProblem?_eq (hstart.foldl_step hstays).labels hstays]

theorem sum_size_nonneg (statements : List Statement) : 0 ≤ (statements.map size).sum := by
  induction statements with
  | nil => exact Int.le_refl 0
  | cons s rest ih =>
      have hnonneg := s.size_nonneg
      rw [List.map_cons, List.sum_cons]
      omega

/-- Without moves there are no gaps: the statements take as many bytes as they ask for. -/
theorem size_imageWalk {base : Int} {walk : ImageWalk}
    (hstays : ∀ s ∈ statements, s.isMove = false) :
    (statements.foldl (ImageWalk.step base) walk).size =
      walk.size + (statements.map size).sum.toNat := by
  induction statements generalizing walk with
  | nil => rfl
  | cons s rest ih =>
      obtain ⟨hs, hrest⟩ := List.forall_mem_cons.1 hstays
      have hstep : (walk.step base s).size = walk.size + s.size.toNat := by
        cases s <;> first | rfl | cases hs
      have hnonneg := s.size_nonneg
      have hsum := sum_size_nonneg rest
      rw [List.foldl_cons, ih hrest, hstep, List.map_cons, List.sum_cons]
      omega

end Statement

/-! ## Bytes that hold addresses -/

/-- Bytes of an image that hold the address of a label, or a half of it. -/
structure Relocation where
  /-- Where the first of the bytes stands. -/
  offset : Nat
  modifier : Modifier
  name : String

/-- How many bytes a reference to an address takes. -/
def Modifier.width : Modifier → Nat
  | none => 2
  | lowByte | highByte => 1

theorem Modifier.length_written (modifier : Modifier) (address : Int) :
    (modifier.written address).length = modifier.width := by
  cases modifier <;> rfl

/-- A byte of the image is one of those that hold the address. -/
def Relocation.Covers (r : Relocation) (i : Nat) : Prop :=
  r.offset ≤ i ∧ i < r.offset + r.modifier.width

namespace Statement

/-- The bytes of a statement at an offset that hold the address of a label.  A conditional branch to
a label as it stands holds a distance instead. -/
def relocation? (offset : Nat) : Statement → Option Relocation
  | instruction _ mnemonic ⟨_, modifier, some (.name _ name)⟩ =>
      if modifier = .none ∧ (Op.ofMnemonic? mnemonic).any Op.isConditional then none
      else some ⟨offset + 1, modifier, name⟩
  | vector _ name => some ⟨offset, .none, name⟩
  | _ => none

/-- All bytes of statements that hold the address of a label. -/
def relocations (offset : Nat) : List Statement → List Relocation
  | [] => []
  | s :: rest => (s.relocation? offset).toList ++ relocations (offset + s.size.toNat) rest

end Statement

/-- Bytes from an offset on are those of another placement, but for the addresses of labels, which
have moved by a distance. -/
structure Relocates (labels : Labels) (distance : Int) (table : List Relocation) (offset : Nat)
    (low high : Bytes) : Prop where
  length_eq : high.length = low.length
  unchanged : ∀ i, (∀ r ∈ table, ¬ r.Covers (offset + i)) → high[i]? = low[i]?
  replaced : ∀ r ∈ table, offset ≤ r.offset ∧ r.offset ≤ offset + low.length ∧
    ∃ address, labels[r.name]? = some address ∧
      r.modifier.written address <+: low.drop (r.offset - offset) ∧
      r.modifier.written (shifted distance address) <+: high.drop (r.offset - offset)

namespace Relocates

variable {labels : Labels} {d : Int} {table rest : List Relocation} {offset : Nat}
  {low high lowRest highRest : Bytes}

theorem refl (labels : Labels) (d : Int) (offset : Nat) (data : Bytes) :
    Relocates labels d [] offset data data where
  length_eq := rfl
  unchanged := fun _ _ => rfl
  replaced := List.forall_mem_nil _

/-- The bytes that hold the address of one label. -/
theorem written {modifier : Modifier} {name : String} {address : Int}
    (hname : labels[name]? = some address) :
    Relocates labels d [⟨offset, modifier, name⟩] offset (modifier.written address)
      (modifier.written (shifted d address)) where
  length_eq := by rw [Modifier.length_written, Modifier.length_written]
  unchanged := by
    intro i hfree
    have hbehind : modifier.width ≤ i := by
      have hout := hfree _ List.mem_cons_self
      simp only [Relocation.Covers] at hout
      omega
    rw [List.getElem?_eq_none, List.getElem?_eq_none]
    · rwa [Modifier.length_written]
    · rwa [Modifier.length_written]
  replaced := by
    intro r hr
    obtain rfl := List.mem_singleton.1 hr
    refine ⟨Nat.le_refl _, Nat.le_add_right _ _, address, hname, ?_, ?_⟩
    · simp
    · simp

/-- Two runs of bytes one after the other. -/
theorem append (h : Relocates labels d table offset low high)
    (hrest : Relocates labels d rest (offset + low.length) lowRest highRest) :
    Relocates labels d (table ++ rest) offset (low ++ lowRest) (high ++ highRest) where
  length_eq := by rw [List.length_append, List.length_append, h.length_eq, hrest.length_eq]
  unchanged := by
    intro i hfree
    obtain ⟨hfirst, hsecond⟩ := List.forall_mem_append.1 hfree
    by_cases hi : i < low.length
    · rw [List.getElem?_append_left hi, List.getElem?_append_left (h.length_eq ▸ hi)]
      exact h.unchanged i hfirst
    · have hle : low.length ≤ i := Nat.not_lt.1 hi
      rw [List.getElem?_append_right hle, List.getElem?_append_right (h.length_eq ▸ hle),
        h.length_eq]
      apply hrest.unchanged
      rwa [Nat.add_assoc, Nat.add_sub_cancel' hle]
  replaced := by
    intro r hr
    rw [List.length_append]
    rcases List.mem_append.1 hr with hr | hr
    · obtain ⟨hlow, hhigh, address, hname, hwritten, hshifted⟩ := h.replaced r hr
      have hinside : r.offset - offset ≤ low.length := by omega
      refine ⟨hlow, by omega, address, hname, ?_, ?_⟩
      · rw [List.drop_append_of_le_length hinside]
        exact hwritten.trans (List.prefix_append _ _)
      · rw [List.drop_append_of_le_length (h.length_eq ▸ hinside)]
        exact hshifted.trans (List.prefix_append _ _)
    · obtain ⟨hlow, hhigh, address, hname, hwritten, hshifted⟩ := hrest.replaced r hr
      have hbehind : r.offset - offset = low.length + (r.offset - (offset + low.length)) := by
        omega
      refine ⟨by omega, by omega, address, hname, ?_, ?_⟩
      · rwa [hbehind, List.drop_length_add_append]
      · rwa [hbehind, ← h.length_eq, List.drop_length_add_append, h.length_eq]

end Relocates

/-! ## The bytes of statements -/

theorem Reference.exists_target {labels : Labels} {position : Int} {r : Reference}
    (h : r.problem? labels position = none) : ∃ target, labels[r.name]? = some target := by
  unfold problem? at h
  split at h
  · cases h
  · next target htarget => exact ⟨target, htarget⟩

namespace Chunk

variable {good : Tag → Prop} {labels : Labels} {address target position : Int}
  {tag place : Option Tag} {code : Opcode} {name : String} {c : Chunk}

/-- The label of a chunk that can be settled is known. -/
theorem Settles.exists_target {r : Reference} (h : Settles labels (address, c)) (hfit : c.Fitting)
    (hr : c.reference? = some r) : ∃ target, labels[r.name]? = some target := by
  have hnone := h.settleError?_eq
  rw [hfit.settleError?_eq, hr] at hnone
  exact Reference.exists_target hnone

/-- The bytes of a chunk that uses no label are the same everywhere. -/
theorem data_settledAt_of_no_reference (h : c.reference? = none) :
    (settledAt labels (address, c)).data = c.data := by
  cases c with
  | op tag code param position =>
      cases param with
      | resolved mode value => rfl
      | unknown => rfl
      | address mode place name => cases h
      | lowByte mode place name => cases h
      | highByte mode place name => cases h
  | bytes data => rfl
  | vector tag label value => cases h
  | unknown => rfl

/-- The bytes of a branch hold the distance to its label. -/
theorem data_settledAt_branch (hcode : code.InSet) (hname : labels[name]? = some target)
    (h : Settles labels (address, op tag code (.address .pcRelative place name) position)) :
    (settledAt labels (address, op tag code (.address .pcRelative place name) position)).data =
      [UInt8.ofNat code.value.toNat,
        UInt8.ofNat (Reference.distance address target % 0x100).toNat] := by
  obtain ⟨d, hreach⟩ := (settle_branch_ok_iff hname).1 h
  rw [settledAt, settle_branch_of_reaches hname hreach]
  obtain ⟨rfl, -⟩ := Reference.reaches_iff.1 hreach
  exact data_of_encode (encode_branch hcode _)

/-- The bytes of any other instruction that names a label hold its address. -/
theorem data_settledAt_name {modifier : Modifier} {mode : Mode}
    (hsound : (op tag code (.ofName place name modifier mode) position).Sound good)
    (hname : labels[name]? = some target) (htarget : InSpace target)
    (hdirect : modifier = .none → mode ≠ .pcRelative)
    (h : Settles labels (address, op tag code (.ofName place name modifier mode) position)) :
    (settledAt labels (address, op tag code (.ofName place name modifier mode) position)).data =
      UInt8.ofNat code.value.toNat :: modifier.written target := by
  obtain ⟨-, hcode, -, hparam, -⟩ := hsound
  obtain ⟨resolved, hresolved, hsettled⟩ := settledAt_op h
  obtain ⟨value, hvalue, hfits, -⟩ := Param.resolve_ok hparam hresolved
  have hheld := Param.resolve_ofName hname htarget hdirect hresolved
  rw [Param.mode_ofName] at hvalue
  obtain rfl : value = modifier.held target := by
    rw [hvalue] at hheld
    cases hheld
    rfl
  rw [hsettled, hvalue]
  apply data_of_encode
  rw [encode_op hcode hfits, Modifier.littleEndian_held htarget]

theorem data_settledAt_vector (hname : labels[name]? = some target) (htarget : InSpace target) :
    (settledAt labels (address, vector tag name position)).data =
      Modifier.none.written target := by
  rw [settledAt_vector hname]
  apply data_of_encode
  rw [encode_vector htarget]
  exact congrArg Except.ok (Modifier.littleEndian_held htarget .none)

end Chunk

section Bytes

variable {good : Tag → Prop} {d cursor : Int} {low high : Labels}

/-- The bytes of an instruction that names a label. -/
theorem relocates_name {tag place : Option Tag} {mnemonic name : String} {kind : OperandKind}
    {modifier : Modifier} {c : Chunk} (offset : Nat)
    (hform : (Statement.instruction tag mnemonic
      ⟨kind, modifier, some (.name place name)⟩).WellFormed good)
    (hpiece : (Statement.instruction tag mnemonic
      ⟨kind, modifier, some (.name place name)⟩).piece = .ok (some (.chunk c)))
    (hlabels : low.Shifted d high) (hspace : low.InSpace) (hlow : Chunk.Settles low (cursor, c))
    (hhigh : Chunk.Settles high (shifted d cursor, c)) :
    Relocates low d ((Statement.instruction tag mnemonic
        ⟨kind, modifier, some (.name place name)⟩).relocation? offset).toList offset
      (Chunk.settledAt low (cursor, c)).data
      (Chunk.settledAt high (shifted d cursor, c)).data := by
  obtain ⟨target, htarget⟩ := hlow.exists_target (Statement.piece_fitting hpiece)
    (Statement.reference?_of_piece hform hpiece)
  have hmoved : high[name]? = some (shifted d target) := by
    rw [hlabels name, htarget]
    rfl
  have hsound := Statement.piece_sound hform hpiece
  obtain ⟨_, hmade, hadded⟩ := bind_ok_inv hpiece
  cases hadded
  obtain ⟨code, hmnemonic, rfl⟩ := Chunk.ofInstruction_name hform.2 hmade
  rw [Statement.relocation?, hmnemonic, Option.any_some]
  by_cases hbranch : modifier = .none ∧ code.op.isConditional = true
  · -- a branch holds the distance, which stays
    obtain ⟨rfl, hconditional⟩ := hbranch
    obtain ⟨-, hcode, -⟩ := hsound
    rw [if_pos hconditional] at hlow hhigh ⊢
    rw [if_pos ⟨rfl, hconditional⟩, Param.ofName, Chunk.data_settledAt_branch hcode htarget hlow,
      Chunk.data_settledAt_branch hcode hmoved hhigh, Reference.distance_shifted]
    exact .refl low d offset _
  · have hdirect : modifier = .none →
        (if code.op.isConditional then Mode.pcRelative else kind.mode) ≠ .pcRelative := by
      intro hnone
      rw [if_neg fun hconditional => hbranch ⟨hnone, hconditional⟩]
      exact kind.mode_ne_pcRelative
    rw [if_neg hbranch,
      Chunk.data_settledAt_name hsound htarget (hspace name target htarget) hdirect hlow,
      Chunk.data_settledAt_name hsound hmoved (shifted_inSpace d target) hdirect hhigh]
    exact (Relocates.refl low d offset [UInt8.ofNat code.value.toNat]).append (.written htarget)

/-- The bytes of a statement that adds a chunk. -/
theorem relocates_chunk {s : Statement} {c : Chunk} (offset : Nat) (hform : s.WellFormed good)
    (hpiece : s.piece = .ok (some (.chunk c))) (hlabels : low.Shifted d high)
    (hspace : low.InSpace) (hlow : Chunk.Settles low (cursor, c))
    (hhigh : Chunk.Settles high (shifted d cursor, c)) :
    Relocates low d (s.relocation? offset).toList offset
      (Chunk.settledAt low (cursor, c)).data
      (Chunk.settledAt high (shifted d cursor, c)).data := by
  have hplain : c.reference? = none → s.relocation? offset = none →
      Relocates low d (s.relocation? offset).toList offset
        (Chunk.settledAt low (cursor, c)).data
        (Chunk.settledAt high (shifted d cursor, c)).data := by
    intro hreference hrelocation
    rw [hrelocation, Chunk.data_settledAt_of_no_reference hreference,
      Chunk.data_settledAt_of_no_reference hreference]
    exact .refl low d offset _
  cases Statement.adds_of_piece hpiece with
  | bytes tag values data hlength => exact hplain rfl rfl
  | words tag values data hlength => exact hplain rfl rfl
  | vector tag label =>
      obtain ⟨target, htarget⟩ := hlow.exists_target trivial rfl
      have hmoved : high[label]? = some (shifted d target) := by
        rw [hlabels label, htarget]
        rfl
      rw [Chunk.data_settledAt_vector htarget (hspace label target htarget),
        Chunk.data_settledAt_vector hmoved (shifted_inSpace d target)]
      exact .written htarget
  | instruction tag mnemonic operand code param hmade =>
      obtain ⟨kind, modifier, term⟩ := operand
      cases term with
      | none => exact hplain (Chunk.ofInstruction_reference? (by simp) hmade) rfl
      | some term =>
          cases term with
          | number place number =>
              exact hplain (Chunk.ofInstruction_reference? (by simp) hmade) rfl
          | name place name => exact relocates_name offset hform hpiece hlabels hspace hlow hhigh

/-- The bytes of statements that do not move the cursor, at two addresses. -/
theorem relocates_output {statements : List Statement} {lowBase highBase : Int}
    {lowSize highSize : Nat} {offset : Nat} (hform : ∀ s ∈ statements, s.WellFormed good)
    (hall : ∀ s ∈ statements, ∃ p, s.piece = .ok p) (hstays : ∀ s ∈ statements, s.isMove = false)
    (hlabels : low.Shifted d high) (hspace : low.InSpace)
    (hlow : ∀ site ∈ Piece.listing cursor (statements.filterMap Statement.piece?),
      Chunk.Settles low site)
    (hhigh : ∀ site ∈ Piece.listing (shifted d cursor) (statements.filterMap Statement.piece?),
      Chunk.Settles high site)
    (hencodes : Piece.Encodes low cursor (statements.filterMap Statement.piece?)) :
    Relocates low d (Statement.relocations offset statements) offset
      (Piece.output low lowBase cursor lowSize (statements.filterMap Statement.piece?))
      (Piece.output high highBase (shifted d cursor) highSize
        (statements.filterMap Statement.piece?)) := by
  induction statements generalizing cursor lowSize highSize offset with
  | nil => exact .refl low d offset []
  | cons s rest ih =>
      obtain ⟨hs, hforms⟩ := List.forall_mem_cons.1 hform
      obtain ⟨⟨added, hadded⟩, hrest⟩ := List.forall_mem_cons.1 hall
      obtain ⟨hstay, hstays⟩ := List.forall_mem_cons.1 hstays
      rw [Statement.filterMap_piece?_cons hadded] at hlow hhigh hencodes ⊢
      rw [Statement.relocations]
      cases added with
      | none =>
          have hnone : s.relocation? offset = none ∧ s.size = 0 := by
            cases Statement.adds_of_piece hadded <;> exact ⟨rfl, rfl⟩
          rw [hnone.1, hnone.2]
          exact ih hforms hrest hstays hlow hhigh hencodes
      | some p =>
          cases p with
          | block position label =>
              obtain ⟨hnone, hsize, rfl⟩ : s.relocation? offset = none ∧ s.size = 0 ∧
                  position = none := by
                cases Statement.adds_of_piece hadded with
                | label tag name => exact ⟨rfl, rfl, rfl⟩
                | org tag address hwidth => cases hstay
                | pad tag address hwidth => cases hstay
              rw [hnone, hsize]
              exact ih hforms hrest hstays hlow hhigh hencodes
          | chunk c =>
              obtain ⟨hlowHead, hlowRest⟩ := List.forall_mem_cons.1 hlow
              obtain ⟨hhighHead, hhighRest⟩ := List.forall_mem_cons.1 hhigh
              have hlength := (hencodes (cursor, c) List.mem_cons_self).length_eq
              have hsize : s.size.toNat = (Chunk.settledAt low (cursor, c)).data.length := by
                rw [← Statement.size_of_piece hadded]
                simp only at hlength
                omega
              rw [hsize]
              refine (relocates_chunk offset hs hadded hlabels hspace hlowHead hhighHead).append ?_
              rw [wrap_shifted_add] at hhighRest
              have htail := @ih _ (Piece.extend lowBase lowSize (.chunk c))
                (Piece.extend highBase highSize (.chunk c))
                (offset + (Chunk.settledAt low (cursor, c)).data.length)
                hforms hrest hstays hlowRest hhighRest hencodes.tail
              rw [← wrap_shifted_add] at htail
              exact htail

end Bytes

/-! ## Statements at two addresses -/

namespace Output

variable {good : Tag → Prop} {statements : List Statement} {output : Output}

/-- The bytes of a conditional branch to a label as it stands. -/
theorem branch_bytes {front back : List Statement} {tag place : Option Tag}
    {mnemonic name : String} {kind : OperandKind} {operation : Op}
    (hform : ∀ s ∈ statements, s.WellFormed good) (hrun : ofStatements statements = .ok output)
    (hsplit : statements =
      front ++ .instruction tag mnemonic ⟨kind, .none, some (.name place name)⟩ :: back)
    (hmnemonic : Op.ofMnemonic? mnemonic = some operation)
    (hbranch : operation.isConditional = true) :
    ∃ code target, Opcode.lookup? operation .pcRelative = some code ∧
      output.labels[name]? = some target ∧
      [UInt8.ofNat code.value.toNat, UInt8.ofNat
          (Reference.distance (FlatWalk.across front).cursor target % 0x100).toNat] <+:
        output.code.drop (ImageWalk.across (Statement.imageStart statements) front).size := by
  subst hsplit
  obtain ⟨program, hbuild, hlayout, himage, -⟩ := ofStatements_eq_ok hrun
  obtain ⟨code, hlookup, hpiece⟩ := Program.piece_branch hform hbuild hmnemonic hbranch
  obtain ⟨-, hsettles, -⟩ := Program.layout_getElem? hform hbuild hlayout hpiece
  obtain ⟨target, htarget⟩ := hsettles.exists_target (Statement.piece_fitting hpiece) rfl
  obtain ⟨hdata, -⟩ := Program.image_statement hform hbuild hlayout himage hpiece
  have hcode := Opcode.lookup?_inSet hlookup
  rw [Chunk.data_settledAt_branch hcode htarget hsettles] at hdata
  exact ⟨code, target, hlookup, htarget, hdata⟩

end Output

namespace Statement

variable {good : Tag → Prop} {statements : List Statement} {tag : Option Tag} {address : Int}

theorem org_wellFormed (htag : Placed good tag) (haddress : InSpace address)
    (hform : ∀ s ∈ statements, s.WellFormed good) :
    ∀ s ∈ .org tag ⟨.word, address⟩ :: statements, s.WellFormed good := by
  have hconsistent : Number.Consistent ⟨.word, address⟩ :=
    ⟨haddress.1, Int.le_of_lt_add_one haddress.2⟩
  exact List.forall_mem_cons.2 ⟨⟨htag, hconsistent⟩, hform⟩

/-- The image of statements without moves starts at their address and has no gaps. -/
theorem size_across_org (hstays : ∀ s ∈ statements, s.isMove = false) :
    (ImageWalk.across address (.org tag ⟨.word, address⟩ :: statements)).size =
      (statements.map size).sum.toNat := by
  rw [ImageWalk.across, List.foldl_cons, size_imageWalk hstays]
  simp [ImageWalk.step, ImageWalk.start]

/-- Statements without moves that nothing stops always have an image. -/
theorem exists_output_org (hform : ∀ s ∈ .org tag ⟨.word, address⟩ :: statements, s.WellFormed good)
    (hstays : ∀ s ∈ statements, s.isMove = false)
    (hfirst : firstError? (.org tag ⟨.word, address⟩ :: statements) = none) :
    ∃ output, Output.ofStatements (.org tag ⟨.word, address⟩ :: statements) = .ok output ∧
      output.Renders (.org tag ⟨.word, address⟩ :: statements) := by
  apply Output.ofStatements_fits hform hfirst
  have hsize := size_of_firstError? hfirst
  rw [List.map_cons, List.sum_cons] at hsize
  have hzero : (Statement.org tag ⟨.word, address⟩).size = 0 := rfl
  have hcapacity : capacity = 0xFFFF := rfl
  have hspace : addressSpace = 0x10000 := rfl
  rw [imageStart, size_across_org hstays]
  omega

end Statement

theorem Output.branch_bytes_behind_org {good : Tag → Prop}
    {statements front back : List Statement} {output : Output} {moveTag tag place : Option Tag}
    {address : Int} {mnemonic name : String} {kind : OperandKind} {operation : Op}
    (hform : ∀ s ∈ .org moveTag ⟨.word, address⟩ :: statements, s.WellFormed good)
    (hrun : ofStatements (.org moveTag ⟨.word, address⟩ :: statements) = .ok output)
    (hstays : ∀ s ∈ statements, s.isMove = false)
    (hsplit : statements =
      front ++ .instruction tag mnemonic ⟨kind, .none, some (.name place name)⟩ :: back)
    (hmnemonic : Op.ofMnemonic? mnemonic = some operation)
    (hbranch : operation.isConditional = true) :
    ∃ code target, Opcode.lookup? operation .pcRelative = some code ∧
      output.labels[name]? = some target ∧
      [UInt8.ofNat code.value.toNat, UInt8.ofNat (Reference.distance
          (front.foldl FlatWalk.step (.startAt address)).cursor target % 0x100).toNat] <+:
        output.code.drop (front.map Statement.size).sum.toNat := by
  have hfront : ∀ s ∈ front, s.isMove = false := fun s hs =>
    hstays s (hsplit ▸ List.mem_append_left _ hs)
  have hcons : Statement.org moveTag ⟨.word, address⟩ :: statements =
      (.org moveTag ⟨.word, address⟩ :: front) ++
        .instruction tag mnemonic ⟨kind, .none, some (.name place name)⟩ :: back := by
    rw [hsplit]
    rfl
  have hbytes := branch_bytes hform hrun hcons hmnemonic hbranch
  rw [Statement.imageStart, Statement.size_across_org hfront] at hbytes
  exact hbytes

/-- The output of statements behind a move. -/
theorem Output.Renders.behind_org {statements : List Statement} {output : Output}
    {tag : Option Tag} {address : Int}
    (h : output.Renders (.org tag ⟨.word, address⟩ :: statements)) :
    output.code = Piece.output output.labels address address 0
        (statements.filterMap Statement.piece?) ∧
      (∀ site ∈ Piece.listing address (statements.filterMap Statement.piece?),
        Chunk.Settles output.labels site) ∧
      Piece.Encodes output.labels address (statements.filterMap Statement.piece?) ∧
      output.labels.InSpace := by
  have hpiece : (Statement.org tag ⟨.word, address⟩).piece =
      .ok (some (.block (some address) none)) := rfl
  have hgap : Piece.gap address 0 (some address) = 0 := by
    simp [Piece.gap]
  have hcode := h.code_eq
  have hsettles := h.settles
  have hencodes := h.encodes
  rw [Statement.filterMap_piece?_cons hpiece] at hcode hsettles hencodes
  rw [h.labels_eq]
  refine ⟨?_, hsettles, hencodes.tail, h.inSpace.labels⟩
  rw [hcode]
  simp [Statement.imageStart, Piece.output, Piece.added, Piece.advance, Piece.extend, hgap]

/-- What the images of statements at two addresses have in common. -/
theorem Output.Renders.relocates {good : Tag → Prop} {statements : List Statement}
    {lower higher : Output} {lowTag highTag : Option Tag} {low high : Int}
    (hform : ∀ s ∈ statements, s.WellFormed good)
    (hall : ∀ s ∈ statements, ∃ p, s.piece = .ok p) (hstays : ∀ s ∈ statements, s.isMove = false)
    (hhigh : InSpace high) (hlower : lower.Renders (.org lowTag ⟨.word, low⟩ :: statements))
    (hhigher : higher.Renders (.org highTag ⟨.word, high⟩ :: statements)) :
    (FlatWalk.across (.org lowTag ⟨.word, low⟩ :: statements)).Shifted (high - low)
        (FlatWalk.across (.org highTag ⟨.word, high⟩ :: statements)) ∧
      Relocates lower.labels (high - low) (Statement.relocations 0 statements) 0 lower.code
        higher.code := by
  have hshifted : (FlatWalk.across (.org lowTag ⟨.word, low⟩ :: statements)).Shifted (high - low)
      (FlatWalk.across (.org highTag ⟨.word, high⟩ :: statements)) :=
    (FlatWalk.startAt_shifted hhigh).foldl_step hstays
  refine ⟨hshifted, ?_⟩
  have hlabels : lower.labels.Shifted (high - low) higher.labels := by
    rw [hlower.labels_eq, hhigher.labels_eq]
    exact hshifted.labels
  obtain ⟨hlowCode, hlowSettles, hencodes, hspace⟩ := hlower.behind_org
  obtain ⟨hhighCode, hhighSettles, -, -⟩ := hhigher.behind_org
  have hcursor : shifted (high - low) low = high := shifted_sub hhigh
  rw [← hcursor] at hhighSettles
  have houtput := @relocates_output good (high - low) low lower.labels higher.labels statements
    low high 0 0 0 hform hall hstays hlabels hspace hlowSettles hhighSettles hencodes
  rw [hlowCode, hhighCode]
  rwa [hcursor] at houtput

/-- Relocation.  Statements of a text without moves, behind a move to one address or to another,
fail with the same error, or both have an image.  The images are equally long, and the labels and
the instructions of one are those of the other, moved by the distance between the two addresses.
The bytes are the same but for the addresses of labels in instructions and vectors, which stand at
the same places and have moved as the labels have.  Conditional branches to a label as it stands
have the same two bytes in both. -/
theorem assembly_relocates {unit : Int} {text : List Char} {statements : List Statement}
    {low high : Int} {lowTag highTag : Tag} (hparse : Statement.parse unit text = .ok statements)
    (hstays : ∀ s ∈ statements, s.isMove = false) (hlow : 0 ≤ low ∧ low ≤ 0xFFFF)
    (hhigh : 0 ≤ high ∧ high ≤ 0xFFFF) :
    (∃ e, Output.ofStatements (.org (some lowTag) ⟨.word, low⟩ :: statements) = .error e ∧
        Output.ofStatements (.org (some highTag) ⟨.word, high⟩ :: statements) = .error e) ∨
      ∃ lower higher,
        Output.ofStatements (.org (some lowTag) ⟨.word, low⟩ :: statements) = .ok lower ∧
        Output.ofStatements (.org (some highTag) ⟨.word, high⟩ :: statements) = .ok higher ∧
        higher.code.length = lower.code.length ∧
        (∀ name : String, higher.labels[name]? = lower.labels[name]?.map (shifted (high - low))) ∧
        higher.mapEntries = lower.mapEntries.map (MapEntry.shifted (high - low)) ∧
        (∀ i, (∀ r ∈ Statement.relocations 0 statements, ¬ r.Covers i) →
          higher.code[i]? = lower.code[i]?) ∧
        (∀ r ∈ Statement.relocations 0 statements, ∃ address,
          lower.labels[r.name]? = some address ∧
          r.modifier.written address <+: lower.code.drop r.offset ∧
          r.modifier.written (shifted (high - low) address) <+: higher.code.drop r.offset) ∧
        ∀ front back tag mnemonic kind place name operation,
          statements =
            front ++ .instruction tag mnemonic ⟨kind, .none, some (.name place name)⟩ :: back →
          Op.ofMnemonic? mnemonic = some operation → operation.isConditional = true →
          ∃ opcode distance,
            [opcode, distance] <+: lower.code.drop (front.map Statement.size).sum.toNat ∧
            [opcode, distance] <+: higher.code.drop (front.map Statement.size).sum.toNat := by
  have hlowSpace : InSpace low := ⟨hlow.1, by omega⟩
  have hhighSpace : InSpace high := ⟨hhigh.1, by omega⟩
  have hform := Statement.wellFormed_of_parse hparse
  have hformLow := Statement.org_wellFormed ⟨lowTag, rfl, trivial⟩ hlowSpace hform
  have hformHigh := Statement.org_wellFormed ⟨highTag, rfl, trivial⟩ hhighSpace hform
  have hfirst := @Statement.firstError?_org_eq statements (some lowTag) low (some highTag) high
    hhighSpace hstays
  cases hlowFirst : Statement.firstError? (.org (some lowTag) ⟨.word, low⟩ :: statements) with
  | some e =>
      left
      rw [hlowFirst] at hfirst
      exact ⟨e, Output.ofStatements_eq_error hformLow hlowFirst,
        Output.ofStatements_eq_error hformHigh hfirst⟩
  | none =>
      right
      rw [hlowFirst] at hfirst
      obtain ⟨lower, hlower, hrendersLow⟩ :=
        Statement.exists_output_org hformLow hstays hlowFirst
      obtain ⟨higher, hhigher, hrendersHigh⟩ :=
        Statement.exists_output_org hformHigh hstays hfirst
      obtain ⟨-, hall⟩ := List.forall_mem_cons.1 (Statement.piece_of_firstError? hlowFirst)
      obtain ⟨hshifted, hrelocates⟩ :=
        hrendersLow.relocates hform hall hstays hhighSpace hrendersHigh
      have hlabels : lower.labels.Shifted (high - low) higher.labels := by
        rw [hrendersLow.labels_eq, hrendersHigh.labels_eq]
        exact hshifted.labels
      refine ⟨lower, higher, hlower, hhigher, hrelocates.length_eq, hlabels, ?_, ?_, ?_, ?_⟩
      · rw [hrendersLow.entries_eq, hrendersHigh.entries_eq]
        exact hshifted.instructions
      · intro i hfree
        apply hrelocates.unchanged
        rwa [Nat.zero_add]
      · intro r hr
        obtain ⟨-, -, hreplaced⟩ := hrelocates.replaced r hr
        exact hreplaced
      · intro front back tag mnemonic kind place name operation hsplit hmnemonic hbranch
        have hstaysFront : ∀ s ∈ front, s.isMove = false := fun s hs =>
          hstays s (hsplit ▸ List.mem_append_left _ hs)
        obtain ⟨code, target, hcode, htarget, hlowBytes⟩ :=
          Output.branch_bytes_behind_org hformLow hlower hstays hsplit hmnemonic hbranch
        obtain ⟨other, moved, hother, hmoved, hhighBytes⟩ :=
          Output.branch_bytes_behind_org hformHigh hhigher hstays hsplit hmnemonic hbranch
        obtain rfl : code = other := Option.some.inj (hcode.symm.trans hother)
        obtain rfl : moved = shifted (high - low) target := by
          rw [hlabels name, htarget] at hmoved
          exact (Option.some.inj hmoved).symm
        have hstart := @FlatWalk.startAt_shifted low high hhighSpace
        rw [(hstart.foldl_step hstaysFront).cursor, Reference.distance_shifted] at hhighBytes
        exact ⟨_, _, hlowBytes, hhighBytes⟩

/-- A branch, a load and a vector that straddle the end of the address space, and the same in the
middle of it. -/
theorem straddling_statements_relocate :
    ∃ statements lower higher,
      Statement.parse 0 "beq x\nlda x\n.vector x\nx: nop".toList = .ok statements ∧
      Output.ofStatements (.org (some ⟨0, 0⟩) ⟨.word, 0xFFFE⟩ :: statements) = .ok lower ∧
      Output.ofStatements (.org (some ⟨0, 0⟩) ⟨.word, 0x1234⟩ :: statements) = .ok higher ∧
      higher.code.length = lower.code.length ∧
      [0x05, 0x00] <+: lower.code.drop 3 ∧ [0x3B, 0x12] <+: higher.code.drop 3 ∧
      ∃ opcode distance,
        [opcode, distance] <+: lower.code ∧ [opcode, distance] <+: higher.code := by
  let branch : Statement :=
    .instruction (some ⟨0, 0⟩) "beq" (.plain .address (.name (some ⟨0, 4⟩) "x"))
  let back : List Statement :=
    [.instruction (some ⟨0, 6⟩) "lda" (.plain .address (.name (some ⟨0, 10⟩) "x")),
      .vector (some ⟨0, 12⟩) "x", .label (some ⟨0, 22⟩) "x",
      .instruction (some ⟨0, 25⟩) "nop" .none]
  have hparse : Statement.parse 0 "beq x\nlda x\n.vector x\nx: nop".toList =
      .ok (branch :: back) := rfl
  have hlabel : (Output.ofStatements (.org (some ⟨0, 0⟩) ⟨.word, 0xFFFE⟩ :: branch ::
      back)).toOption.bind (fun output => output.labels["x"]?) = some 5 := by decide +kernel
  have hfixed : (⟨3, .none, "x"⟩ : Relocation) ∈ Statement.relocations 0 (branch :: back) :=
    List.mem_cons_self
  rcases @assembly_relocates 0 _ _ 0xFFFE 0x1234 ⟨0, 0⟩ ⟨0, 0⟩ hparse (by decide) (by decide)
    (by decide) with
      ⟨e, herror, -⟩ | ⟨lower, higher, hlower, hhigher, hlength, -, -, -, hreplaced, hbranches⟩
  · rw [herror] at hlabel
    cases hlabel
  · rw [hlower] at hlabel
    obtain ⟨address, haddress, hlow, hhigh⟩ := hreplaced _ hfixed
    obtain rfl : address = 5 := Option.some.inj (haddress.symm.trans hlabel)
    have hsame := hbranches [] back _ "beq" .address _ "x" .beq rfl rfl rfl
    exact ⟨_, lower, higher, hparse, hlower, hhigher, hlength, hlow, hhigh, hsame⟩

end Asm65
