import Asm65.Proofs.Readings
import Asm65.Proofs.Relayout
import Asm65.Proofs.Sessions

/-!
# Places do not matter

The places in statements are there for messages and for the source map.  Every stage does the same
to what has no places: it stops at the same item for the same reason, or it gives the same result
without places.  So the code and the labels of a session, or the cause of its failure, depend only
on what its statements say, and comments and include directives play no part in it.
-/

namespace Asm65

/-- An error without its place. -/
def Error.untagged : Error → Error
  | .problem p _ => .problem p none
  | .fault f => .fault f

/-- An outcome without places: `view` leaves out those in a result. -/
def untag {α β : Type} (view : α → β) : Except Error α → Except Error β
  | .ok value => .ok (view value)
  | .error e => .error e.untagged

/-- Two steps can be taken without places, if each of them can. -/
theorem untag_bind {α β γ δ : Type} {first : Except Error α} {next : α → Except Error β}
    {view : α → γ} {view' : β → δ} {next' : γ → Except Error δ}
    (h : ∀ value, next' (view value) = untag view' (next value)) :
    untag view first >>= next' = untag view' (first >>= next) := by
  cases first with
  | ok value => exact h value
  | error e => rfl

/-! ## From statements to programs -/

namespace Param

/-- A parameter without the place of its label. -/
def untagged : Param → Param
  | .resolved mode value => .resolved mode value
  | .address mode _ name => .address mode none name
  | .lowByte mode _ name => .lowByte mode none name
  | .highByte mode _ name => .highByte mode none name
  | .unknown => .unknown

@[simp] theorem width_untagged (param : Param) : param.untagged.width = param.width := by
  cases param <;> rfl

@[simp] theorem mode_untagged (param : Param) : param.untagged.mode = param.mode := by
  cases param <;> rfl

@[simp] theorem withMode_untagged (mode : Mode) (param : Param) :
    param.untagged.withMode mode = (param.withMode mode).untagged := by
  cases param <;> rfl

theorem ofNumber_untagged (tag : Option Tag) (number : Number) (modifier : Modifier)
    (mode : Mode) :
    ofNumber none number modifier mode = untag untagged (ofNumber tag number modifier mode) := by
  obtain ⟨width, value⟩ := number
  cases width <;> cases modifier <;> rfl

theorem ofName_untagged (tag : Option Tag) (name : String) (modifier : Modifier) (mode : Mode) :
    ofName none name modifier mode = (ofName tag name modifier mode).untagged := by
  cases modifier <;> rfl

theorem ofOperand_untagged (operand : Operand) :
    ofOperand operand.untagged = untag untagged (ofOperand operand) := by
  obtain ⟨kind, modifier, term⟩ := operand
  by_cases hkind : kind = .none
  · simp only [ofOperand, Operand.untagged, hkind, if_true]
    rfl
  · simp only [ofOperand, Operand.untagged, hkind, if_false]
    cases term with
    | none => rfl
    | some term =>
        cases term with
        | number tag n => exact ofNumber_untagged tag n _ _
        | name tag word => exact congrArg Except.ok (ofName_untagged tag word _ _)

end Param

namespace Chunk

/-- A chunk without the places in it. -/
def untagged : Chunk → Chunk
  | .op _ code param position => .op none code param.untagged position
  | .bytes data => .bytes data
  | .vector _ target value => .vector none target value
  | .unknown => .unknown

theorem ofInstruction_untagged (tag : Option Tag) (mnemonic : String) (operand : Operand) :
    ofInstruction none mnemonic operand.untagged =
      untag untagged (ofInstruction tag mnemonic operand) := by
  unfold ofInstruction
  cases Op.ofMnemonic? mnemonic with
  | none => rfl
  | some operation =>
      rw [Param.ofOperand_untagged]
      refine untag_bind fun written => ?_
      have hparam : (if operation.isConditional then written.untagged.withMode .pcRelative
          else written.untagged) =
          (if operation.isConditional then written.withMode .pcRelative else written).untagged := by
        split <;> simp
      simp only [hparam, Param.mode_untagged, Param.width_untagged]
      generalize (if operation.isConditional then written.withMode .pcRelative
        else written) = param
      split
      · rfl
      · split <;> rfl

theorem byteData_untagged (tag : Option Tag) (read : Bytes) (values : List Number) :
    byteData none read values = untag id (byteData tag read values) := by
  fun_induction byteData tag read values <;> simp_all [byteData, untag, Error.untagged]

theorem wordData_untagged (tag : Option Tag) (read : Bytes) (values : List Number) :
    wordData none read values = untag id (wordData tag read values) := by
  fun_induction wordData tag read values <;> simp_all [wordData, untag, Error.untagged]

end Chunk

/-- A piece without the places in it. -/
def Piece.untagged : Piece → Piece
  | .chunk c => .chunk c.untagged
  | .block position label => .block position label

/-- A block without the places in it. -/
def Block.untagged (block : Block) : Block :=
  { block with chunks := block.chunks.map Chunk.untagged }

namespace Statement

theorem piece_untagged (s : Statement) :
    s.untagged.piece = untag (Option.map Piece.untagged) s.piece := by
  cases s with
  | comment tag => rfl
  | label tag name => rfl
  | instruction tag mnemonic operand =>
      simp only [untagged, piece, Chunk.ofInstruction_untagged tag]
      exact untag_bind fun _ => rfl
  | org tag address =>
      simp only [untagged, piece, origin]
      split <;> rfl
  | pad tag address =>
      simp only [untagged, piece, origin]
      split <;> rfl
  | bytes tag values =>
      simp only [untagged, piece, Chunk.byteData_untagged tag]
      exact untag_bind fun _ => rfl
  | words tag values =>
      simp only [untagged, piece, Chunk.wordData_untagged tag]
      exact untag_bind fun _ => rfl
  | vector tag target => rfl
  | includeFile tag path => rfl
  | unknown => rfl

theorem piece_of_not_counts {s : Statement} (h : s.counts = false) : s.piece = .ok none := by
  cases s <;> first | rfl | cases h

end Statement

namespace Program

theorem piecesFrom_core (read : List Piece) (statements : List Statement) :
    piecesFrom (read.map Piece.untagged) (Statement.core statements) =
      untag (List.map Piece.untagged) (piecesFrom read statements) := by
  induction statements generalizing read with
  | nil => simp [Statement.core, piecesFrom, untag]
  | cons s rest ih =>
      cases hs : s.counts with
      | false =>
          -- what does not count adds no piece either
          have hcore : Statement.core (s :: rest) = Statement.core rest := by
            simp [Statement.core, hs]
          rw [hcore, ih, piecesFrom, Statement.piece_of_not_counts hs]
          rfl
      | true =>
          have hcore : Statement.core (s :: rest) = s.untagged :: Statement.core rest := by
            simp [Statement.core, hs]
          rw [hcore, piecesFrom, Statement.piece_untagged, piecesFrom]
          cases s.piece with
          | ok added =>
              have hadded : (added.map Piece.untagged).toList ++ read.map Piece.untagged =
                  (added.toList ++ read).map Piece.untagged := by
                cases added <;> rfl
              simp only [untag]
              rw [hadded, ih]
              rfl
          | error e => rfl

theorem foldr_addPiece_untagged (pieces : List Piece) :
    (pieces.map Piece.untagged).foldr addPiece ([], []) =
      ((pieces.foldr addPiece ([], [])).1.map Chunk.untagged,
        (pieces.foldr addPiece ([], [])).2.map Block.untagged) := by
  induction pieces with
  | nil => rfl
  | cons p pieces ih =>
      rw [List.map_cons, List.foldr_cons, ih]
      cases p <;> rfl

theorem ofPieces_untagged (pieces : List Piece) :
    ofPieces (pieces.map Piece.untagged) = (ofPieces pieces).map Block.untagged := by
  simp only [ofPieces, foldr_addPiece_untagged, List.isEmpty_map]
  split <;> rfl

/-- Only the statements that count make up a program. -/
theorem ofStatements_core (statements : List Statement) :
    ofStatements (Statement.core statements) =
      untag (List.map Block.untagged) (ofStatements statements) := by
  unfold ofStatements
  rw [← List.map_nil, piecesFrom_core]
  refine untag_bind fun pieces => ?_
  exact congrArg Except.ok (ofPieces_untagged pieces)

end Program

/-! ## The three passes -/

/-- A walk over items without places, if a step can be taken without them. -/
theorem walk_untagged {α σ : Type} {step : σ → α → α × Except Error σ} {view : α → α}
    (hstep : ∀ state item, step state (view item) =
      (view (step state item).1, untag id (step state item).2)) (state : σ) (items : List α) :
    walk step state (items.map view) =
      ((walk step state items).1.map view, untag id (walk step state items).2) := by
  induction items generalizing state with
  | nil => rfl
  | cons item rest ih =>
      rw [List.map_cons, walk_cons, walk_cons, hstep]
      cases step state item with
      | mk left outcome =>
          cases outcome with
          | ok next => simp [untag, ih]
          | error e => simp [untag]

theorem Labels.find_untagged (labels : Labels) (name : String) (tag : Option Tag) :
    labels.find name none = untag id (labels.find name tag) := by
  unfold find
  cases labels[name]? <;> rfl

theorem Param.resolve_untagged (labels : Labels) (position : Int) (param : Param) :
    param.untagged.resolve labels position = untag untagged (param.resolve labels position) := by
  cases param with
  | resolved mode value => rfl
  | address mode tag name =>
      simp only [untagged, resolve, labels.find_untagged name tag]
      refine untag_bind fun target => ?_
      simp only [id]
      split
      · split <;> rfl
      · rfl
  | lowByte mode tag name =>
      simp only [untagged, resolve, labels.find_untagged name tag]
      exact untag_bind fun _ => rfl
  | highByte mode tag name =>
      simp only [untagged, resolve, labels.find_untagged name tag]
      exact untag_bind fun _ => rfl
  | unknown => rfl

namespace Chunk

@[simp] theorem length_untagged (c : Chunk) : c.untagged.length = c.length := by
  cases c <;> rfl

theorem settle_untagged (labels : Labels) (position : Int) (c : Chunk) :
    c.untagged.settle labels position =
      ((c.settle labels position).1.untagged, untag id (c.settle labels position).2) := by
  cases c with
  | op tag code param old =>
      simp only [untagged, settle, Param.resolve_untagged]
      cases param.resolve labels position <;> rfl
  | bytes data => rfl
  | vector tag target value =>
      simp only [untagged, settle, labels.find_untagged target tag]
      cases labels.find target tag <;> rfl
  | unknown => rfl

theorem checkWidth_untagged (c : Chunk) : c.untagged.checkWidth = untag id c.checkWidth := by
  cases c with
  | op tag code param position =>
      simp only [untagged, checkWidth, Param.width_untagged]
      split <;> rfl
  | _ => rfl

end Chunk

namespace Block

theorem measure_untagged (total : Int) (b : Block) :
    b.untagged.measure total = ((b.measure total).1.untagged, untag id (b.measure total).2) := by
  have hsum : sumLengths 0 b.untagged.chunks = sumLengths 0 b.chunks :=
    sumLengths_congr (by simp [untagged, Function.comp_def]) 0
  simp only [measure, hsum]
  cases sumLengths 0 b.chunks with
  | ok length =>
      simp only
      split <;> rfl
  | error fault => rfl

theorem placeFrom_untagged (passed : Program) (placement : Placement) (program : Program) :
    placeFrom (passed.map untagged) placement (program.map untagged) =
      ((placeFrom passed placement program).1.map untagged,
        (placeFrom passed placement program).2) := by
  induction program generalizing passed placement with
  | nil => simp [placeFrom]
  | cons b rest ih => exact ih ((b.place placement).1 :: passed) (b.place placement).2

theorem settle_untagged (labels : Labels) (b : Block) :
    b.untagged.settle labels = ((b.settle labels).1.untagged, untag id (b.settle labels).2) := by
  have hwalk := walk_untagged (Chunk.settle_untagged labels) (b.position.getD 0) b.chunks
  simp only [settle, untagged, hwalk]
  cases (walk (Chunk.settle labels) (b.position.getD 0) b.chunks).2 <;> rfl

end Block

namespace Program

theorem measure_untagged (program : Program) :
    measure (program.map Block.untagged) =
      ((measure program).1.map Block.untagged, untag id (measure program).2) := by
  have hwalk := walk_untagged Block.measure_untagged 0 program
  unfold measure
  rw [hwalk]
  cases walk Block.measure 0 program with
  | mk measured outcome =>
      cases outcome with
      | ok total =>
          simp only [untag, id]
          cases Decimal.check [total] <;> rfl
      | error e => rfl

theorem forM_untagged {α : Type} {check : α → Except Error Unit} {view : α → α}
    (h : ∀ item, check (view item) = untag id (check item)) (items : List α) :
    (items.map view).forM check = untag id (items.forM check) := by
  induction items with
  | nil => rfl
  | cons item rest ih =>
      rw [List.map_cons, List.forM, List.forM, h item]
      exact untag_bind fun _ => ih

theorem checkWidths_untagged (program : Program) :
    checkWidths (program.map Block.untagged) = untag id (checkWidths program) :=
  forM_untagged (fun b => forM_untagged Chunk.checkWidth_untagged b.chunks) program

/-- A layout without places: the labels are the same, or the cause of the failure is. -/
theorem layout_untagged (program : Program) :
    (layout (program.map Block.untagged)).program =
        (layout program).program.map Block.untagged ∧
      (layout (program.map Block.untagged)).labels = untag id (layout program).labels := by
  unfold layout
  rw [measure_untagged]
  cases measure program with
  | mk measured outcome =>
      cases outcome with
      | error e => exact ⟨rfl, rfl⟩
      | ok total =>
          have hplace := Block.placeFrom_untagged [] .start measured
          rw [List.map_nil] at hplace
          simp only [untag, id, hplace]
          generalize Block.placeFrom [] .start measured = placed
          have hsettle := walk_untagged
            (fun (_ : Unit) b => Block.settle_untagged placed.2.labels b) () placed.1
          simp only [hsettle]
          cases walk (fun _ b => b.settle placed.2.labels) () placed.1 with
          | mk settled found =>
              cases found with
              | error e => exact ⟨rfl, rfl⟩
              | ok done =>
                  simp only [untag, checkWidths_untagged]
                  cases checkWidths settled <;> exact ⟨rfl, rfl⟩

end Program

/-! ## Images -/

/-- An instruction whose parameter is known, or any other chunk. -/
def Chunk.Resolved : Chunk → Prop
  | .op _ _ param _ => ∃ mode value, param = .resolved mode value
  | _ => True

theorem Chunk.settle_resolved {labels : Labels} {position next : Int} {c left : Chunk}
    (h : c.settle labels position = (left, .ok next)) : left.Resolved := by
  cases c with
  | op tag code param old =>
      simp only [settle] at h
      split at h
      · next resolved hresolve =>
          obtain ⟨value, rfl, -⟩ := Param.resolve_eq_ok hresolve
          cases h
          exact ⟨_, value, rfl⟩
      · cases h
  | bytes data =>
      cases h
      trivial
  | vector tag target value =>
      simp only [settle] at h
      split at h
      · cases h
        trivial
      · cases h
  | unknown => cases h

/-- Every item that a walk leaves on its way to the end was left by a step. -/
theorem forall_mem_of_walk_ok {α σ : Type} {step : σ → α → α × Except Error σ} {good : α → Prop}
    (hstep : ∀ state item left next, step state item = (left, .ok next) → good left)
    {state last : σ} {items updated : List α}
    (h : walk step state items = (updated, .ok last)) : ∀ item ∈ updated, good item := by
  induction items generalizing state updated with
  | nil =>
      cases h
      exact List.forall_mem_nil _
  | cons item rest ih =>
      obtain ⟨left, next, tail, hleft, hrest, rfl⟩ := walk_cons_ok h
      exact List.forall_mem_cons.2 ⟨hstep _ _ _ _ hleft, ih hrest⟩

namespace Program

/-- A layout that succeeds knows every parameter. -/
theorem layout_resolved {program : Program} {labels : Labels}
    (h : (layout program).labels = .ok labels) :
    ∀ b ∈ (layout program).program, ∀ c ∈ b.chunks, c.Resolved := by
  cases hmeasured : measure program with
  | mk measured outcome =>
      cases outcome with
      | error e =>
          simp only [layout, hmeasured] at h
          cases h
      | ok total =>
          obtain ⟨placed, settled, placement, found, hpasses⟩ := exists_passes hmeasured
          rw [hpasses.program_eq]
          rw [hpasses.layout_eq] at h
          unfold finish at h
          cases found with
          | error e => cases h
          | ok done =>
              refine forall_mem_of_walk_ok (fun _ b left _ hblock => ?_) hpasses.hsettle
              obtain ⟨last, hwalk, -⟩ := Block.settle_ok hblock
              exact forall_mem_of_walk_ok (fun _ _ _ _ => Chunk.settle_resolved) hwalk

end Program

theorem Chunk.encode_untagged {c : Chunk} (h : c.Resolved) : c.untagged.encode = c.encode := by
  cases c with
  | op tag code param position =>
      obtain ⟨mode, value, rfl⟩ := h
      rfl
  | _ => rfl

theorem Block.encodeFrom_untagged (written : Bytes) {cs : List Chunk}
    (h : ∀ c ∈ cs, c.Resolved) :
    encodeFrom written (cs.map Chunk.untagged) = encodeFrom written cs := by
  induction cs generalizing written with
  | nil => rfl
  | cons c cs ih =>
      obtain ⟨hc, hcs⟩ := List.forall_mem_cons.1 h
      rw [List.map_cons, encodeFrom, encodeFrom, Chunk.encode_untagged hc]
      cases c.encode with
      | ok data => exact ih (data.reverseAux written) hcs
      | error fault => rfl

namespace Program

theorem imageFrom_untagged (base : Int) (size : Nat) (written : Bytes) {program : Program}
    (h : ∀ b ∈ program, ∀ c ∈ b.chunks, c.Resolved) :
    imageFrom base size written (program.map Block.untagged) =
      imageFrom base size written program := by
  induction program generalizing size written with
  | nil => rfl
  | cons b rest ih =>
      obtain ⟨hb, hrest⟩ := List.forall_mem_cons.1 h
      have hencode : b.untagged.encode = b.encode := Block.encodeFrom_untagged [] hb
      have hposition : b.untagged.position = b.position := rfl
      rw [List.map_cons, imageFrom, imageFrom, hencode, hposition]
      cases b.position with
      | none => rfl
      | some position =>
          simp only
          split
          · rfl
          · split
            · rfl
            · exact ih _ _ hrest

theorem image_untagged {program : Program} (h : ∀ b ∈ program, ∀ c ∈ b.chunks, c.Resolved) :
    image (program.map Block.untagged) = image program := by
  have horigin : origin (program.map Block.untagged) = origin program := by
    cases program <;> rfl
  rw [image, image, horigin, imageFrom_untagged _ _ _ h]

end Program

/-! ## Outcomes -/

/-- What went wrong, apart from the place. -/
def Error.cause : Error → Problem ⊕ Fault
  | .problem p _ => .inl p
  | .fault f => .inr f

theorem Error.cause_untagged (e : Error) : e.untagged.cause = e.cause := by
  cases e <;> rfl

/-- What went wrong, apart from the place and the wording of the message. -/
def Failure.cause : Failure → Problem ⊕ Fault
  | .problem _ p _ => .inl p
  | .fault f => .inr f

/-- The code and the labels of statements, or what went wrong. -/
def Program.outcome (statements : List Statement) : Except (Problem ⊕ Fault) (Bytes × Labels) :=
  match ofStatements statements with
  | .error e => .error e.cause
  | .ok built =>
      match (layout built).labels with
      | .error e => .error e.cause
      | .ok labels =>
          match image (layout built).program with
          | .error fault => .error (.inr fault)
          | .ok code => .ok (code, labels)

/-- The outcome depends only on the statements that count, without the places in them. -/
theorem Program.outcome_core (statements : List Statement) :
    outcome (Statement.core statements) = outcome statements := by
  unfold outcome
  rw [ofStatements_core]
  cases ofStatements statements with
  | error e => exact congrArg Except.error e.cause_untagged
  | ok built =>
      obtain ⟨hprogram, hlabels⟩ := layout_untagged built
      simp only [untag, hprogram, hlabels]
      cases hlayout : (layout built).labels with
      | error e => exact congrArg Except.error e.cause_untagged
      | ok labels =>
          -- only what is resolved is encoded in the same way without places
          simp only [id, image_untagged (layout_resolved hlayout)]

namespace Session

variable {session other : Session}

/-- What the assembly of a session comes to: the code and the labels, or what went wrong. -/
def result (session : Session) : Except (Problem ⊕ Fault) (Bytes × Labels) :=
  match session.assemble.2 with
  | .ok output => .ok (output.code, output.labels)
  | .error failure => .error failure.cause

theorem cause_ofError {units : Units} {e : Error}
    (h : e = .problem .capacity none ∨ e.Located units.Covers) :
    (Failure.ofError units e).cause = e.cause := by
  rcases h with rfl | ⟨problem, tag, rfl, hplaced⟩
  · rfl
  · obtain ⟨message, hmessage⟩ := @Units.describe_ok units problem tag hplaced
    simp only [Failure.ofError, hmessage]
    rfl

/-- No failure of a session is one of its messages. -/
theorem Covered.result_eq (h : session.Covered) :
    session.result = Program.outcome session.statements := by
  unfold result assemble Program.outcome
  -- every place lies in a unit, so each error has a message and stays what it is
  cases hbuild : Program.ofStatements session.statements with
  | error e =>
      have hlocated := Program.ofStatements_located h hbuild
      exact congrArg Except.error (cause_ofError (Or.inr hlocated))
  | ok built =>
      simp only
      cases hlayout : (Program.layout built).labels with
      | error e =>
          have herror := Program.layout_error (Program.ofStatements_sound h hbuild) hlayout
          exact congrArg Except.error (cause_ofError herror)
      | ok labels =>
          simp only
          cases Program.image (Program.layout built).program <;> rfl

/-- Sessions whose statements differ only in places, comments and include directives come to the
same. -/
theorem Covered.result_congr (h : session.Covered) (hother : other.Covered)
    (hcore : Statement.core session.statements = Statement.core other.statements) :
    session.result = other.result := by
  rw [h.result_eq, hother.result_eq, ← Program.outcome_core, hcore, Program.outcome_core]

end Session

end Asm65
