import Mathlib.Algebra.Ring.Int.Defs
import Mathlib.Algebra.Ring.Nat
import Asm65.Program.Image
import Asm65.Proofs.Statements

/-!
# Chunks that can be written

A sound chunk is an instruction of the instruction set whose parameter fills the bytes after the
opcode, a run of bytes, or the address of a label.  Settling keeps a chunk sound and keeps its
size; a sound chunk that is settled has bytes, as many as its size says.
-/

namespace Asm65

/-! ## Numbers as bytes -/

namespace Bytes

@[simp] theorem littleEndian_length (width n : Nat) : (littleEndian width n).length = width := by
  induction width generalizing n with
  | zero => rfl
  | succ width ih => simp [littleEndian, ih]

theorem single_ok {n : Int} (hlow : 0 ≤ n) (hhigh : n ≤ 0xFF) :
    single n = .ok [UInt8.ofNat n.toNat] := by
  unfold single
  rw [if_pos ⟨hlow, by omega⟩]

theorem fits_iff_lt (width n : Nat) : fits width n = true ↔ n < 256 ^ width := by
  have hpow : 256 ^ width = 2 ^ (8 * width) := by rw [Nat.pow_mul]
  have hpos : 0 < 2 ^ (8 * width) := Nat.two_pow_pos _
  rw [hpow]
  by_cases hn : n = 0
  · subst hn
    exact ⟨fun _ => hpos, fun _ => rfl⟩
  · simp [fits, hn, Nat.log2_lt hn]

theorem checkWidth_ok {width : Int} (hlow : 0 ≤ width) (hhigh : width ≤ 2) :
    checkWidth width = .ok () := by
  have hnat : width.toNat ≤ 2 := by omega
  unfold checkWidth checkSize countLimit memoryLimit
  rw [if_neg (by omega), if_neg (by omega), if_neg (by omega), if_neg (by omega)]

/-- A number that fits its width has bytes. -/
theorem ofInt_ok {width n : Int} (hlow : 0 ≤ width) (hhigh : width ≤ 2) (hn : 0 ≤ n)
    (hfits : n < 256 ^ width.toNat) :
    ofInt width n = .ok (littleEndian width.toNat n.toNat) := by
  have hlt : n.toNat < 256 ^ width.toNat := by
    have hcast : ((256 ^ width.toNat : Nat) : Int) = 256 ^ width.toNat := by simp
    omega
  unfold ofInt
  rw [checkWidth_ok hlow hhigh]
  simp only
  rw [if_pos ⟨hn, (fits_iff_lt _ _).2 hlt⟩]

theorem length_of_single {n : Int} {data : Bytes} (h : single n = .ok data) : data.length = 1 := by
  unfold single at h
  split at h <;> cases h
  rfl

/-- A number in bytes takes the width it was asked for, which is not negative. -/
theorem length_of_ofInt {width n : Int} {data : Bytes} (h : ofInt width n = .ok data) :
    (data.length : Int) = width := by
  unfold ofInt at h
  split at h
  · cases h
  · next hwidth =>
      have hnonneg : 0 ≤ width := by
        unfold checkWidth at hwidth
        split at hwidth
        · cases hwidth
        · split at hwidth
          · cases hwidth
          · next hlow => exact Int.not_lt.1 hlow
      split at h <;> cases h
      rw [littleEndian_length]
      omega

end Bytes

/-! ## Addresses -/

/-- An address of the address space. -/
def InSpace (address : Int) : Prop :=
  0 ≤ address ∧ address < 0x10000

theorem wrap_eq (address : Int) : wrap address = address % 0x10000 :=
  rfl

theorem wrap_inSpace (address : Int) : InSpace (wrap address) := by
  unfold InSpace
  rw [wrap_eq]
  omega

theorem wrap_of_inSpace {address : Int} (h : InSpace address) : wrap address = address := by
  unfold InSpace at h
  rw [wrap_eq]
  omega

theorem wrap_wrap_add (address distance : Int) :
    wrap (wrap address + distance) = wrap (address + distance) := by
  simp only [wrap_eq]
  omega

/-- Every label stands for an address of the address space. -/
def Labels.InSpace (labels : Labels) : Prop :=
  ∀ (name : String) (address : Int), labels[name]? = some address → Asm65.InSpace address

/-! ## Operand values -/

/-- A value of at most two bytes that fits its width. -/
structure OperandValue.Fits (v : OperandValue) : Prop where
  width_nonneg : 0 ≤ v.width
  width_le : v.width ≤ 2
  value_nonneg : 0 ≤ v.value
  value_lt : v.value < 256 ^ v.width.toNat

namespace OperandValue

theorem none_fits : OperandValue.none.Fits :=
  ⟨by decide, by decide, by decide, by decide⟩

theorem byte_fits (n : Int) : (byte n).Fits where
  width_nonneg := (by decide : (0 : Int) ≤ 1)
  width_le := (by decide : (1 : Int) ≤ 2)
  value_nonneg := Int.emod_nonneg n (by decide)
  value_lt := Int.emod_lt_of_pos n (by decide)

theorem word_fits (n : Int) : (word n).Fits where
  width_nonneg := (by decide : (0 : Int) ≤ 2)
  width_le := Int.le_refl 2
  value_nonneg := Int.emod_nonneg n (by decide)
  value_lt := Int.emod_lt_of_pos n (by decide)

theorem Fits.bytes_eq {v : OperandValue} (h : v.Fits) :
    v.bytes = .ok (Bytes.littleEndian v.width.toNat v.value.toNat) :=
  Bytes.ofInt_ok h.width_nonneg h.width_le h.value_nonneg h.value_lt

end OperandValue

/-! ## Opcodes -/

/-- A form that the instruction set has. -/
def Opcode.InSet (code : Opcode) : Prop :=
  Opcode.lookup? code.op code.mode = some code

theorem Opcode.lookup?_eq_some {op : Op} {mode : Mode} {code : Opcode}
    (h : Opcode.lookup? op mode = some code) :
    code.op = op ∧ code.mode = mode ∧ 0 ≤ code.value ∧ code.value ≤ 0xFF ∧
      code.length = mode.length := by
  obtain ⟨value, -, rfl⟩ := Option.map_eq_some_iff.1 h
  refine ⟨rfl, rfl, by simp, ?_, rfl⟩
  have hbyte := value.toNat_lt
  simp only
  omega

theorem Opcode.lookup?_inSet {op : Op} {mode : Mode} {code : Opcode}
    (h : Opcode.lookup? op mode = some code) : code.InSet := by
  obtain ⟨hop, hmode, -⟩ := Opcode.lookup?_eq_some h
  unfold Opcode.InSet
  rw [hop, hmode, h]

theorem Mode.length_pos (mode : Mode) : 0 < mode.length := by
  cases mode <;> decide

theorem Opcode.InSet.length_pos {code : Opcode} (h : code.InSet) : 0 < code.length := by
  obtain ⟨-, -, -, -, hlength⟩ := Opcode.lookup?_eq_some h
  have hpos := code.mode.length_pos
  omega

/-! ## Parameters and chunks -/

/-- A parameter whose value fits, or a label with a place. -/
def Param.Sound (good : Tag → Prop) : Param → Prop
  | .resolved _ value => value.Fits
  | .address _ tag _ | .lowByte _ tag _ | .highByte _ tag _ => Placed good tag
  | .unknown => False

/-- An instruction of the instruction set with a parameter that fills it, or data. -/
def Chunk.Sound (good : Tag → Prop) : Chunk → Prop
  | .op tag code param _ =>
      Placed good tag ∧ code.InSet ∧ param.mode = code.mode ∧ param.Sound good ∧
        param.width = code.length - 1
  | .bytes _ => True
  | .vector tag _ value => Placed good tag ∧ InSpace value
  | .unknown => False

/-- A chunk that refers to no label any more. -/
def Chunk.Settled : Chunk → Prop
  | .op _ _ (.resolved _ _) _ => True
  | .op _ _ _ _ => False
  | _ => True

/-- How many bytes a chunk takes; an item that is no chunk takes none. -/
def Chunk.size : Chunk → Int
  | .op _ code _ _ => code.length
  | .bytes data => data.length
  | .vector _ _ _ => 2
  | .unknown => 0

/-- What building guarantees of a chunk, whatever the statements: an instruction is a form of the
instruction set, in the mode of its parameter, and the parameter fills it. -/
def Chunk.Fitting : Chunk → Prop
  | .op _ code param _ =>
      Opcode.lookup? code.op param.mode = some code ∧ param.width = code.length - 1 ∧
        param ≠ .unknown
  | .bytes _ | .vector _ _ _ => True
  | .unknown => False

theorem Chunk.Sound.fitting {good : Tag → Prop} {c : Chunk} (h : c.Sound good) : c.Fitting := by
  cases c with
  | op tag code param position =>
      obtain ⟨-, hcode, hmode, hparam, hwidth⟩ := h
      refine ⟨?_, hwidth, ?_⟩
      · rw [hmode]
        exact hcode
      · rintro rfl
        exact hparam
  | bytes data => trivial
  | vector tag label value => trivial
  | unknown => exact h

theorem Chunk.Fitting.length_eq {c : Chunk} (h : c.Fitting) : c.length = .ok c.size := by
  cases c with
  | op tag code param position => rfl
  | bytes data => rfl
  | vector tag label value => rfl
  | unknown => exact h.elim

theorem Chunk.Fitting.size_nonneg {c : Chunk} (h : c.Fitting) : 0 ≤ c.size := by
  cases c with
  | op tag code param position =>
      exact Int.le_of_lt (Opcode.lookup?_inSet h.1).length_pos
  | bytes data => exact Int.natCast_nonneg _
  | vector tag label value => exact (by decide : (0 : Int) ≤ 2)
  | unknown => exact h.elim

/-- The bytes of a settled instruction: its opcode, then its operand with the low byte first. -/
theorem Chunk.encode_op {tag : Option Tag} {code : Opcode} {mode : Mode} {value : OperandValue}
    {position : Int} (hcode : code.InSet) (hvalue : value.Fits) :
    (Chunk.op tag code (.resolved mode value) position).encode =
      .ok (UInt8.ofNat code.value.toNat ::
        Bytes.littleEndian value.width.toNat value.value.toNat) := by
  obtain ⟨-, -, hlow, hhigh, -⟩ := Opcode.lookup?_eq_some hcode
  simp only [Chunk.encode]
  rw [Bytes.single_ok hlow hhigh, hvalue.bytes_eq]
  rfl

theorem Chunk.encode_vector {tag : Option Tag} {label : String} {value : Int}
    (hvalue : InSpace value) :
    (Chunk.vector tag label value).encode = .ok (Bytes.littleEndian 2 value.toNat) := by
  show Bytes.ofInt 2 value = _
  exact Bytes.ofInt_ok (by decide) (by decide) hvalue.1 hvalue.2

/-- A sound and settled chunk has as many bytes as its size says. -/
theorem Chunk.Sound.encode_ok {good : Tag → Prop} {c : Chunk} (h : c.Sound good)
    (hsettled : c.Settled) : ∃ data, c.encode = .ok data ∧ (data.length : Int) = c.size := by
  cases c with
  | op tag code param position =>
      obtain ⟨-, hcode, -, hparam, hwidth⟩ := h
      cases param with
      | resolved mode value =>
          refine ⟨_, Chunk.encode_op hcode hparam, ?_⟩
          have hnonneg := OperandValue.Fits.width_nonneg hparam
          simp only [Param.width] at hwidth
          simp only [List.length_cons, Bytes.littleEndian_length, Chunk.size]
          omega
      | address mode tag name => exact hsettled.elim
      | lowByte mode tag name => exact hsettled.elim
      | highByte mode tag name => exact hsettled.elim
      | unknown => exact hsettled.elim
  | bytes data => exact ⟨data, rfl, rfl⟩
  | vector tag label value => exact ⟨_, Chunk.encode_vector h.2, by simp [Chunk.size]⟩
  | unknown => exact h.elim

/-! ## Settling -/

/-- A problem at one of the good places. -/
def Error.Located (good : Tag → Prop) (e : Error) : Prop :=
  ∃ problem tag, e = .problem problem tag ∧ Placed good tag

theorem Labels.find_eq_ok {labels : Labels} {name : String} {tag : Option Tag} {address : Int}
    (h : labels.find name tag = .ok address) : labels[name]? = some address := by
  unfold Labels.find at h
  split at h
  · next found hfound =>
      cases h
      exact hfound
  · cases h

theorem Labels.find_located {good : Tag → Prop} {labels : Labels} {name : String}
    {tag : Option Tag} {e : Error} (htag : Placed good tag)
    (h : labels.find name tag = .error e) : e.Located good := by
  unfold Labels.find at h
  split at h
  · cases h
  · cases h
    exact ⟨_, tag, rfl, htag⟩

/-- What is done with the address of a label goes wrong at a good place if the rest of it does. -/
theorem Labels.find_bind_located {good : Tag → Prop} {labels : Labels} {name : String}
    {tag : Option Tag} {use : Int → Except Error Param} {e : Error} (htag : Placed good tag)
    (huse : ∀ target e', use target = .error e' → e'.Located good)
    (h : labels.find name tag >>= use = .error e) : e.Located good := by
  cases hfind : labels.find name tag with
  | error e' =>
      rw [hfind] at h
      cases h
      exact Labels.find_located htag hfind
  | ok target =>
      rw [hfind] at h
      exact huse target e h

namespace Param

variable {good : Tag → Prop} {labels : Labels} {position : Int} {param : Param}

/-- Replacing a label keeps the mode and the width of a parameter, and gives a value that fits. -/
theorem resolve_eq_ok {resolved : Param} (h : param.resolve labels position = .ok resolved) :
    ∃ value, resolved = .resolved param.mode value ∧ value.width = param.width ∧
      (param = resolved ∨ value.Fits) := by
  cases param with
  | resolved mode value =>
      cases h
      exact ⟨value, rfl, rfl, Or.inl rfl⟩
  | address mode tag name =>
      obtain ⟨target, -, h⟩ := bind_ok_inv h
      split at h
      · next hmode =>
          subst hmode
          simp only at h
          split at h
          · cases h
            exact ⟨_, rfl, rfl, Or.inr (OperandValue.byte_fits _)⟩
          · cases h
      · next hmode =>
          cases h
          refine ⟨_, rfl, ?_, Or.inr (OperandValue.word_fits _)⟩
          simp [OperandValue.word, Param.width, hmode]
  | lowByte mode tag name =>
      obtain ⟨target, -, h⟩ := bind_ok_inv h
      cases h
      exact ⟨_, rfl, rfl, Or.inr (OperandValue.byte_fits _)⟩
  | highByte mode tag name =>
      obtain ⟨target, -, h⟩ := bind_ok_inv h
      cases h
      exact ⟨_, rfl, rfl, Or.inr (OperandValue.byte_fits _)⟩
  | unknown => cases h

theorem resolve_ok {resolved : Param} (hsound : param.Sound good)
    (h : param.resolve labels position = .ok resolved) :
    ∃ value, resolved = .resolved param.mode value ∧ value.Fits ∧ value.width = param.width := by
  obtain ⟨value, hvalue, hwidth, rfl | hfits⟩ := resolve_eq_ok h
  · rw [hvalue] at hsound
    exact ⟨value, hvalue, hsound, hwidth⟩
  · exact ⟨value, hvalue, hfits, hwidth⟩

/-- A label that cannot be replaced is a problem at its place. -/
theorem resolve_located {e : Error} (hsound : param.Sound good)
    (h : param.resolve labels position = .error e) : e.Located good := by
  cases param with
  | resolved mode value => cases h
  | address mode tag name =>
      refine Labels.find_bind_located hsound ?_ h
      intro target e' h'
      split at h'
      · simp only at h'
        split at h'
        · cases h'
        · cases h'
          exact ⟨_, tag, rfl, hsound⟩
      · cases h'
  | lowByte mode tag name => exact Labels.find_bind_located hsound (by rintro _ _ ⟨⟩) h
  | highByte mode tag name => exact Labels.find_bind_located hsound (by rintro _ _ ⟨⟩) h
  | unknown => exact hsound.elim

end Param

namespace Chunk

variable {good : Tag → Prop} {labels : Labels} {position : Int} {c : Chunk}

/-- A chunk that is settled moves the position on by its size. -/
theorem settle_next {next : Int} (h : (c.settle labels position).2 = .ok next) :
    next = wrap (position + c.size) := by
  cases c with
  | op tag code param old =>
      simp only [settle] at h
      split at h <;> cases h
      rfl
  | bytes data =>
      cases h
      rfl
  | vector tag label value =>
      simp only [settle] at h
      split at h <;> cases h
      rfl
  | unknown => cases h

/-- Settling keeps a chunk sound and keeps its size. -/
theorem settle_ok {next : Int} (hsound : c.Sound good) (hlabels : labels.InSpace)
    (h : (c.settle labels position).2 = .ok next) :
    (c.settle labels position).1.Sound good ∧ (c.settle labels position).1.Settled ∧
      (c.settle labels position).1.size = c.size := by
  cases c with
  | op tag code param old =>
      obtain ⟨htag, hcode, hmode, hparam, hwidth⟩ := hsound
      simp only [settle] at h ⊢
      split at h
      · next resolved hresolve =>
          obtain ⟨value, rfl, hfits, hvalue⟩ := Param.resolve_ok hparam hresolve
          exact ⟨⟨htag, hcode, hmode, hfits, hvalue.trans hwidth⟩, trivial, rfl⟩
      · cases h
  | bytes data => exact ⟨trivial, trivial, rfl⟩
  | vector tag label value =>
      simp only [settle] at h ⊢
      split at h
      · next address hfind =>
          exact ⟨⟨hsound.1, hlabels label address (Labels.find_eq_ok hfind)⟩, trivial, rfl⟩
      · cases h
  | unknown => exact hsound.elim

/-- A sound chunk that cannot be settled has a problem at its place. -/
theorem settle_located {e : Error} (hsound : c.Sound good)
    (h : (c.settle labels position).2 = .error e) : e.Located good := by
  cases c with
  | op tag code param old =>
      obtain ⟨-, -, -, hparam, -⟩ := hsound
      simp only [settle] at h
      split at h
      · cases h
      · next e' hresolve =>
          cases h
          exact Param.resolve_located hparam hresolve
  | bytes data => cases h
  | vector tag label value =>
      simp only [settle] at h
      split at h
      · cases h
      · next e' hfind =>
          cases h
          exact Labels.find_located hsound.1 hfind
  | unknown => exact hsound.elim

theorem Fitting.checkWidth_ok (h : c.Fitting) : c.checkWidth = .ok () := by
  cases c with
  | op tag code param position => exact if_pos h.2.1
  | bytes data => rfl
  | vector tag label value => rfl
  | unknown => exact h.elim

end Chunk

end Asm65
