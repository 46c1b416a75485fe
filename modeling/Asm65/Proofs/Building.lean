import Asm65.Proofs.Encoding

/-!
# Programs built from statements

What a well-formed statement adds to a program is sound, and where it adds nothing because it is
wrong, the problem stands at a place of the statement.  The blocks of a program, written out as
pieces again, are the pieces they were gathered from: gathering only forgets whether the first
block was opened by a statement.
-/

namespace Asm65

/-! ## Parameters -/

namespace Param

variable {good : Tag → Prop}

theorem ofNumber_sound {tag : Option Tag} {number : Number} {modifier : Modifier} {mode : Mode}
    {param : Param} (h : ofNumber tag number modifier mode = .ok param) : param.Sound good := by
  unfold ofNumber at h
  split at h
  · split at h
    · cases h
      exact OperandValue.byte_fits _
    · cases h
  · simp only at h
    split at h
    · cases h
      exact OperandValue.word_fits _
    · cases h
      exact OperandValue.byte_fits _
    · cases h
      exact OperandValue.byte_fits _
  · cases h

theorem ofNumber_located {tag : Option Tag} {number : Number} {modifier : Modifier} {mode : Mode}
    {e : Error} (htag : Placed good tag) (h : ofNumber tag number modifier mode = .error e) :
    e.Located good := by
  unfold ofNumber at h
  split at h
  · split at h
    · cases h
    · cases h
      exact ⟨_, tag, rfl, htag⟩
  · simp only at h
    split at h <;> cases h
  · cases h
    exact ⟨_, tag, rfl, htag⟩

theorem ofName_sound {tag : Option Tag} (name : String) (modifier : Modifier) (mode : Mode)
    (htag : Placed good tag) : (ofName tag name modifier mode).Sound good := by
  cases modifier <;> exact htag

theorem ofOperand_sound {operand : Operand} {param : Param} (hform : operand.WellFormed good)
    (h : ofOperand operand = .ok param) : param.Sound good := by
  obtain ⟨kind, modifier, term⟩ := operand
  unfold ofOperand at h
  split at h
  · cases h
    exact OperandValue.none_fits
  · cases term with
    | none => exact absurd hform.1 ‹_›
    | some term =>
        cases term with
        | number tag number => exact ofNumber_sound h
        | name tag name =>
            cases h
            exact ofName_sound name _ _ hform.2.1

theorem ofOperand_located {operand : Operand} {e : Error} (hform : operand.WellFormed good)
    (h : ofOperand operand = .error e) : e.Located good := by
  obtain ⟨kind, modifier, term⟩ := operand
  unfold ofOperand at h
  split at h
  · cases h
  · cases term with
    | none => exact absurd hform.1 ‹_›
    | some term =>
        cases term with
        | number tag number => exact ofNumber_located hform.2.1.1 h
        | name tag name => cases h

theorem withMode_sound {param : Param} (newMode : Mode) (h : param.Sound good) :
    (param.withMode newMode).Sound good := by
  cases param <;> exact h

end Param

/-! ## Chunks -/

namespace Chunk

variable {good : Tag → Prop} {tag : Option Tag}

/-- What the chunk of an instruction is made of. -/
theorem ofInstruction_eq_ok {mnemonic : String} {operand : Operand} {c : Chunk}
    (h : ofInstruction tag mnemonic operand = .ok c) :
    ∃ operation written param code,
      Op.ofMnemonic? mnemonic = some operation ∧ Param.ofOperand operand = .ok written ∧
      param = (if operation.isConditional then written.withMode .pcRelative else written) ∧
      Opcode.lookup? operation param.mode = some code ∧ param.width = code.length - 1 ∧
      c = .op tag code param 0 := by
  unfold ofInstruction at h
  split at h
  · cases h
  · next operation hoperation =>
      obtain ⟨written, hwritten, h⟩ := bind_ok_inv h
      simp only at h
      generalize hparam : (if operation.isConditional then written.withMode .pcRelative
        else written) = param at h
      split at h
      · cases h
      · next code hcode =>
          split at h
          · next hwidth =>
              cases h
              exact ⟨operation, written, param, code, hoperation, hwritten, hparam.symm, hcode,
                hwidth, rfl⟩
          · cases h

theorem ofInstruction_sound {mnemonic : String} {operand : Operand} {c : Chunk}
    (htag : Placed good tag) (hform : operand.WellFormed good)
    (h : ofInstruction tag mnemonic operand = .ok c) : c.Sound good := by
  obtain ⟨operation, written, param, code, -, hwritten, hparam, hcode, hwidth, rfl⟩ :=
    ofInstruction_eq_ok h
  obtain ⟨-, hmode, -⟩ := Opcode.lookup?_eq_some hcode
  have hsound : param.Sound good := by
    rw [hparam]
    split
    · exact Param.withMode_sound _ (Param.ofOperand_sound hform hwritten)
    · exact Param.ofOperand_sound hform hwritten
  exact ⟨htag, Opcode.lookup?_inSet hcode, hmode.symm, hsound, hwidth⟩

theorem ofInstruction_located {mnemonic : String} {operand : Operand} {e : Error}
    (htag : Placed good tag) (hform : operand.WellFormed good)
    (h : ofInstruction tag mnemonic operand = .error e) : e.Located good := by
  unfold ofInstruction at h
  split at h
  · cases h
    exact ⟨_, tag, rfl, htag⟩
  · next operation _ =>
      cases hwritten : Param.ofOperand operand with
      | error e' =>
          rw [hwritten] at h
          cases h
          exact Param.ofOperand_located hform hwritten
      | ok written =>
          rw [hwritten] at h
          simp only [bind, Except.bind] at h
          generalize (if operation.isConditional then written.withMode .pcRelative
            else written) = param at h
          split at h
          · cases h
            exact ⟨_, tag, rfl, htag⟩
          · split at h
            · cases h
            · cases h
              exact ⟨_, tag, rfl, htag⟩

theorem byteData_length {values : List Number} {read data : Bytes}
    (h : byteData tag read values = .ok data) : data.length = read.length + values.length := by
  induction values generalizing read with
  | nil =>
      cases h
      simp
  | cons n rest ih =>
      simp only [byteData] at h
      split at h
      · split at h
        · next byte hbyte =>
            have hone := Bytes.length_of_single hbyte
            rw [ih h]
            simp only [List.length_append, List.length_reverse, List.length_cons, hone]
            omega
        · cases h
      · cases h

theorem byteData_located {values : List Number} {read : Bytes} {e : Error}
    (htag : Placed good tag) (hvalues : ∀ n ∈ values, n.Consistent)
    (h : byteData tag read values = .error e) : e.Located good := by
  induction values generalizing read with
  | nil => cases h
  | cons n rest ih =>
      simp only [byteData] at h
      split at h
      · next hwidth =>
          have hn := hvalues n List.mem_cons_self
          simp only [Number.Consistent, hwidth] at hn
          rw [Bytes.single_ok hn.1 hn.2] at h
          exact ih (fun m hm => hvalues m (List.mem_cons_of_mem n hm)) h
      · cases h
        exact ⟨_, tag, rfl, htag⟩

theorem wordData_length {values : List Number} {read data : Bytes}
    (h : wordData tag read values = .ok data) :
    data.length = read.length + 2 * values.length := by
  induction values generalizing read with
  | nil =>
      cases h
      simp
  | cons n rest ih =>
      simp only [wordData] at h
      split at h
      · cases h
      · split at h
        · next word hword =>
            have htwo := Bytes.length_of_ofInt hword
            rw [ih h]
            simp only [List.length_append, List.length_reverse, List.length_cons]
            omega
        · cases h

theorem wordData_located {values : List Number} {read : Bytes} {e : Error}
    (htag : Placed good tag) (hvalues : ∀ n ∈ values, n.Consistent)
    (h : wordData tag read values = .error e) : e.Located good := by
  induction values generalizing read with
  | nil => cases h
  | cons n rest ih =>
      simp only [wordData] at h
      split at h
      · cases h
        exact ⟨_, tag, rfl, htag⟩
      · next hwidth =>
          have hn := hvalues n List.mem_cons_self
          have hrange : 0 ≤ n.value ∧ n.value < 256 ^ Int.toNat 2 := by
            unfold Number.Consistent at hn
            split at hn
            · exact ⟨hn.1, Int.lt_of_le_of_lt hn.2 (by decide)⟩
            · exact ⟨hn.1, Int.lt_of_le_of_lt hn.2 (by decide)⟩
            · exact absurd ‹_› hwidth
          rw [Bytes.ofInt_ok (by decide) (by decide) hrange.1 hrange.2] at h
          exact ih (fun m hm => hvalues m (List.mem_cons_of_mem n hm)) h

end Chunk

/-! ## Statements -/

/-- An item of the address space, or a chunk that is sound. -/
def Piece.Sound (good : Tag → Prop) : Piece → Prop
  | .chunk c => c.Sound good
  | .block position _ => ∀ address ∈ position, InSpace address

namespace Statement

variable {good : Tag → Prop}

/-- How many bytes a statement asks for: the length of its opcode, one or two bytes for each
value, or the two bytes of an address. -/
def size : Statement → Int
  | instruction tag mnemonic operand =>
      match Chunk.ofInstruction tag mnemonic operand with
      | .ok (.op _ code _ _) => code.length
      | _ => 0
  | bytes _ values => values.length
  | words _ values => 2 * values.length
  | vector _ _ => 2
  | _ => 0

theorem size_nonneg (s : Statement) : 0 ≤ s.size := by
  cases s with
  | instruction tag mnemonic operand =>
      simp only [size]
      split
      · next made =>
          obtain ⟨_, _, _, _, -, -, -, hcode, -, hop⟩ := Chunk.ofInstruction_eq_ok made
          cases hop
          exact Int.le_of_lt (Opcode.lookup?_inSet hcode).length_pos
      · exact Int.le_refl 0
  | bytes tag values => exact Int.natCast_nonneg _
  | words tag values => exact Int.mul_nonneg (by decide) (Int.natCast_nonneg _)
  | vector tag label => exact (by decide : (0 : Int) ≤ 2)
  | comment tag => exact Int.le_refl 0
  | label tag name => exact Int.le_refl 0
  | org tag address => exact Int.le_refl 0
  | pad tag address => exact Int.le_refl 0
  | includeFile tag path => exact Int.le_refl 0
  | unknown => exact Int.le_refl 0

theorem origin_eq_ok {tag : Option Tag} {address : Number} {problem : Problem} {position : Int}
    (h : origin tag address problem = .ok position) :
    address.width = .word ∧ position = address.value := by
  unfold origin at h
  split at h
  · next hwidth =>
      cases h
      exact ⟨hwidth, rfl⟩
  · cases h

theorem origin_located {tag : Option Tag} {address : Number} {problem : Problem} {e : Error}
    (htag : Placed good tag) (h : origin tag address problem = .error e) : e.Located good := by
  unfold origin at h
  split at h
  · cases h
  · cases h
    exact ⟨_, tag, rfl, htag⟩

/-- A computation that is only wrapped up afterwards fails as it does itself. -/
theorem bind_pure_located {α β : Type} {first : Except Error α} {wrapped : α → β} {e : Error}
    (hfirst : ∀ e', first = .error e' → e'.Located good)
    (h : (do let value ← first; return wrapped value) = .error e) : e.Located good := by
  cases first with
  | error e' =>
      cases h
      exact hfirst e rfl
  | ok value => cases h

/-- A position given by a consistent word is an address of the address space. -/
theorem inSpace_of_word {address : Number} (hform : address.Consistent)
    (hwidth : address.width = .word) : ∀ position ∈ some address.value, InSpace position := by
  rintro position ⟨⟩
  simp only [Number.Consistent, hwidth] at hform
  exact ⟨hform.1, Int.lt_of_le_of_lt hform.2 (by decide)⟩

/-- What a statement can add to a program. -/
inductive Adds : Statement → Option Piece → Prop
  | comment (tag : Option Tag) : Adds (.comment tag) none
  | includeFile (tag : Option Tag) (path : String) : Adds (.includeFile tag path) none
  | label (tag : Option Tag) (name : String) :
      Adds (.label tag name) (some (.block none (some name)))
  | org (tag : Option Tag) (address : Number) (hwidth : address.width = .word) :
      Adds (.org tag address) (some (.block (some address.value) none))
  | pad (tag : Option Tag) (address : Number) (hwidth : address.width = .word) :
      Adds (.pad tag address) (some (.block (some address.value) none))
  | instruction (tag : Option Tag) (mnemonic : String) (operand : Operand) (code : Opcode)
      (param : Param)
      (hmade : Chunk.ofInstruction tag mnemonic operand = .ok (.op tag code param 0)) :
      Adds (.instruction tag mnemonic operand) (some (.chunk (.op tag code param 0)))
  | bytes (tag : Option Tag) (values : List Number) (data : Bytes)
      (hlength : data.length = values.length) :
      Adds (.bytes tag values) (some (.chunk (.bytes data)))
  | words (tag : Option Tag) (values : List Number) (data : Bytes)
      (hlength : data.length = 2 * values.length) :
      Adds (.words tag values) (some (.chunk (.bytes data)))
  | vector (tag : Option Tag) (label : String) :
      Adds (.vector tag label) (some (.chunk (.vector tag label 0)))

theorem adds_of_piece {s : Statement} {added : Option Piece} (h : s.piece = .ok added) :
    s.Adds added := by
  cases s with
  | comment tag =>
      cases h
      exact .comment tag
  | label tag name =>
      cases h
      exact .label tag name
  | instruction tag mnemonic operand =>
      obtain ⟨c, hc, h⟩ := bind_ok_inv h
      cases h
      obtain ⟨_, _, param, code, -, -, -, -, -, rfl⟩ := Chunk.ofInstruction_eq_ok hc
      exact .instruction tag mnemonic operand code param hc
  | org tag address =>
      obtain ⟨position, hposition, h⟩ := bind_ok_inv h
      cases h
      obtain ⟨hwidth, rfl⟩ := origin_eq_ok hposition
      exact .org tag address hwidth
  | pad tag address =>
      obtain ⟨position, hposition, h⟩ := bind_ok_inv h
      cases h
      obtain ⟨hwidth, rfl⟩ := origin_eq_ok hposition
      exact .pad tag address hwidth
  | bytes tag values =>
      obtain ⟨data, hdata, h⟩ := bind_ok_inv h
      cases h
      exact .bytes tag values data (by simpa using Chunk.byteData_length hdata)
  | words tag values =>
      obtain ⟨data, hdata, h⟩ := bind_ok_inv h
      cases h
      exact .words tag values data (by simpa using Chunk.wordData_length hdata)
  | vector tag label =>
      cases h
      exact .vector tag label
  | includeFile tag path =>
      cases h
      exact .includeFile tag path
  | unknown => cases h

/-- What a well-formed statement adds to a program is sound. -/
theorem piece_sound {s : Statement} {p : Piece} (hform : s.WellFormed good)
    (h : s.piece = .ok (some p)) : p.Sound good := by
  cases adds_of_piece h with
  | label tag name => rintro address ⟨⟩
  | org tag address hwidth => exact inSpace_of_word hform.2 hwidth
  | pad tag address hwidth => exact inSpace_of_word hform.2 hwidth
  | instruction tag mnemonic operand code param hmade =>
      exact Chunk.ofInstruction_sound hform.1 hform.2 hmade
  | bytes tag values data hlength => trivial
  | words tag values data hlength => trivial
  | vector tag label => exact ⟨hform, by decide, by decide⟩

/-- A well-formed statement that cannot be built has a problem at one of its places. -/
theorem piece_located {s : Statement} {e : Error} (hform : s.WellFormed good)
    (h : s.piece = .error e) : e.Located good := by
  cases s with
  | comment tag => cases h
  | label tag name => cases h
  | instruction tag mnemonic operand =>
      exact bind_pure_located (fun _ => Chunk.ofInstruction_located hform.1 hform.2) h
  | org tag address => exact bind_pure_located (fun _ => origin_located hform.1) h
  | pad tag address => exact bind_pure_located (fun _ => origin_located hform.1) h
  | bytes tag values =>
      exact bind_pure_located (fun _ => Chunk.byteData_located hform.1 hform.2.2) h
  | words tag values =>
      exact bind_pure_located (fun _ => Chunk.wordData_located hform.1 hform.2.2) h
  | vector tag label => cases h
  | includeFile tag path => cases h
  | unknown => exact hform.elim

/-- The chunk of a statement is as large as the statement says. -/
theorem size_of_piece {s : Statement} {c : Chunk} (h : s.piece = .ok (some (.chunk c))) :
    c.size = s.size := by
  cases adds_of_piece h with
  | instruction tag mnemonic operand code param hmade => simp only [size, hmade, Chunk.size]
  | bytes tag values data hlength => simp [Chunk.size, size, hlength]
  | words tag values data hlength => simp [Chunk.size, size, hlength]
  | vector tag label => rfl

/-- What a statement adds, if it can be built and adds anything. -/
def piece? (s : Statement) : Option Piece :=
  match s.piece with
  | .ok added => added
  | .error _ => none

theorem piece?_of_ok {s : Statement} {added : Option Piece} (h : s.piece = .ok added) :
    s.piece? = added := by
  simp only [piece?, h]

/-- What stops a statement from being built. -/
def buildError? (s : Statement) : Option Error :=
  match s.piece with
  | .ok _ => none
  | .error e => some e

theorem buildError?_eq_some_iff {s : Statement} {e : Error} :
    s.buildError? = some e ↔ s.piece = .error e := by
  unfold buildError?
  cases s.piece with
  | ok added => simp
  | error e' => simp

theorem filterMap_piece?_cons {s : Statement} {added : Option Piece} (h : s.piece = .ok added)
    (rest : List Statement) :
    (s :: rest).filterMap piece? = added.toList ++ rest.filterMap piece? := by
  rw [List.filterMap_cons, piece?_of_ok h]
  cases added <;> rfl

end Statement

/-! ## Blocks -/

/-- A block written out as pieces. -/
def Block.pieces (b : Block) : List Piece :=
  .block b.position b.label :: b.chunks.map .chunk

namespace Program

variable {good : Tag → Prop}

/-- A program written out as pieces. -/
def pieces (program : Program) : List Piece :=
  program.flatMap Block.pieces

@[simp] theorem pieces_nil : pieces [] = [] :=
  rfl

@[simp] theorem pieces_cons (b : Block) (rest : Program) :
    pieces (b :: rest) = b.pieces ++ pieces rest :=
  rfl

theorem piecesFrom_ok {read added : List Piece} {statements : List Statement}
    (h : piecesFrom read statements = .ok added) :
    added = read.reverse ++ statements.filterMap Statement.piece? ∧
      ∀ s ∈ statements, ∃ p, s.piece = .ok p := by
  induction statements generalizing read with
  | nil =>
      cases h
      simp
  | cons s rest ih =>
      simp only [piecesFrom] at h
      split at h
      · next p hp =>
          obtain ⟨hadded, hrest⟩ := ih h
          refine ⟨?_, ?_⟩
          · rw [hadded, List.filterMap_cons, Statement.piece?_of_ok hp]
            cases p <;> simp
          · intro u hu
            rcases List.mem_cons.1 hu with rfl | hu
            · exact ⟨p, hp⟩
            · exact hrest u hu
      · cases h

/-- Building stops at the first statement that cannot be built. -/
theorem piecesFrom_eq_error_iff {read : List Piece} {statements : List Statement} {e : Error} :
    piecesFrom read statements = .error e ↔
      statements.findSome? Statement.buildError? = some e := by
  induction statements generalizing read with
  | nil => simp [piecesFrom]
  | cons s rest ih =>
      rw [piecesFrom, List.findSome?_cons, Statement.buildError?]
      cases s.piece with
      | ok added => exact ih
      | error e' => simp

/-- The chunks in front and the blocks behind them, written out, are the pieces. -/
theorem foldr_addPiece (added : List Piece) :
    (added.foldr addPiece ([], [])).1.map Piece.chunk ++
      pieces (added.foldr addPiece ([], [])).2 = added := by
  -- gathering goes from the back: the chunks in front wait for the block they belong to
  induction added with
  | nil => rfl
  | cons p rest ih =>
      rw [List.foldr_cons]
      generalize rest.foldr addPiece ([], []) = after at ih
      cases p with
      | chunk c => simpa [addPiece] using ih
      | block position label => simpa [addPiece, Block.pieces] using ih

/-- Gathering pieces into blocks at most adds an opening without position and label, in front of a
chunk. -/
theorem pieces_ofPieces (added : List Piece) :
    pieces (ofPieces added) = added ∨
      (∃ c rest, added = .chunk c :: rest) ∧
        pieces (ofPieces added) = .block none none :: added := by
  have h := foldr_addPiece added
  unfold ofPieces
  generalize added.foldr addPiece ([], []) = after at h
  obtain ⟨first, blocks⟩ := after
  simp only at h ⊢
  cases first with
  | nil => exact Or.inl h
  | cons c first =>
      right
      rw [← h]
      exact ⟨⟨c, _, rfl⟩, rfl⟩

theorem ofStatements_ok {statements : List Statement} {program : Program}
    (h : ofStatements statements = .ok program) :
    program = ofPieces (statements.filterMap Statement.piece?) ∧
      ∀ s ∈ statements, ∃ p, s.piece = .ok p := by
  obtain ⟨added, hadded, h⟩ := bind_ok_inv h
  cases h
  obtain ⟨hpieces, hall⟩ := piecesFrom_ok hadded
  exact ⟨by rw [hpieces]; rfl, hall⟩

theorem ofStatements_eq_error_iff {statements : List Statement} {e : Error} :
    ofStatements statements = .error e ↔
      statements.findSome? Statement.buildError? = some e := by
  rw [← @piecesFrom_eq_error_iff [] statements e, ofStatements]
  cases piecesFrom [] statements with
  | ok pieces => simp [bind, Except.bind, pure, Except.pure]
  | error e' => simp [bind, Except.bind]

theorem ofStatements_located {statements : List Statement} {e : Error}
    (hform : ∀ s ∈ statements, s.WellFormed good) (h : ofStatements statements = .error e) :
    e.Located good := by
  obtain ⟨s, hs, hstop⟩ := List.exists_of_findSome?_eq_some (ofStatements_eq_error_iff.1 h)
  exact Statement.piece_located (hform s hs) (Statement.buildError?_eq_some_iff.1 hstop)

/-- Every piece of a program comes from a statement, but for the opening of a block that no
statement opens. -/
theorem exists_statement_of_mem_pieces {statements : List Statement} {program : Program} {p : Piece}
    (h : ofStatements statements = .ok program) (hp : p ∈ pieces program) :
    p = .block none none ∨ ∃ s ∈ statements, s.piece = .ok (some p) := by
  obtain ⟨rfl, hall⟩ := ofStatements_ok h
  have hadded : p ∈ statements.filterMap Statement.piece? →
      ∃ s ∈ statements, s.piece = .ok (some p) := by
    intro hp
    obtain ⟨s, hs, hpiece⟩ := List.mem_filterMap.1 hp
    obtain ⟨added, hok⟩ := hall s hs
    rw [Statement.piece?_of_ok hok] at hpiece
    rw [hpiece] at hok
    exact ⟨s, hs, hok⟩
  rcases pieces_ofPieces (statements.filterMap Statement.piece?) with heq | ⟨-, heq⟩
  · rw [heq] at hp
    exact Or.inr (hadded hp)
  · rw [heq] at hp
    rcases List.mem_cons.1 hp with rfl | hp
    · exact Or.inl rfl
    · exact Or.inr (hadded hp)

/-- The pieces of a program that is built from well-formed statements are sound. -/
theorem ofStatements_sound {statements : List Statement} {program : Program}
    (hform : ∀ s ∈ statements, s.WellFormed good) (h : ofStatements statements = .ok program) :
    ∀ p ∈ pieces program, p.Sound good := by
  intro p hp
  rcases exists_statement_of_mem_pieces h hp with rfl | ⟨s, hs, hpiece⟩
  · rintro address ⟨⟩
  · exact Statement.piece_sound (hform s hs) hpiece

end Program

end Asm65
