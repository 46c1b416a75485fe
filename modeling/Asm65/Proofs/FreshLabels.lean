import Asm65.Proofs.Outcomes
import Asm65.Proofs.Readings

/-!
# Fresh labels

A label that is neither defined nor used elsewhere can be put between any two statements.  It ends
a block and begins another one, but nothing else comes of it: addresses, bytes and failures stay,
and the label stands for the address in front of it.  Only in front of all that counts it must not
come before a move, because the image would then start at zero and not where the move leads.
-/

namespace Asm65

/-- A statement neither defines a label nor uses it. -/
structure Statement.Avoids (name : String) (s : Statement) : Prop where
  not_label : ∀ tag, s ≠ .label tag name
  not_used : ∀ r, s.reference? = some r → r.name ≠ name

/-! ## References that are known alike -/

/-- Two tables of labels say the same about a reference, if there is one. -/
def Labels.Agree (labels others : Labels) (r? : Option Reference) : Prop :=
  ∀ r, r? = some r → others[r.name]? = labels[r.name]?

section Agree

variable {labels others : Labels} {position : Int}

theorem Labels.find_congr {name : String} {tag : Option Tag}
    (h : others[name]? = labels[name]?) : others.find name tag = labels.find name tag := by
  rw [find, find, h]

theorem Param.resolve_congr {param : Param} (h : labels.Agree others param.reference?) :
    param.resolve others position = param.resolve labels position := by
  cases param with
  | resolved mode value => rfl
  | unknown => rfl
  | address mode tag name => simp only [resolve, Labels.find_congr (h _ rfl)]
  | lowByte mode tag name => simp only [resolve, Labels.find_congr (h _ rfl)]
  | highByte mode tag name => simp only [resolve, Labels.find_congr (h _ rfl)]

theorem Chunk.settle_congr {c : Chunk} (h : labels.Agree others c.reference?) :
    c.settle others position = c.settle labels position := by
  cases c with
  | op tag code param old => simp only [settle, Param.resolve_congr h]
  | bytes data => rfl
  | vector tag name value => simp only [settle, Labels.find_congr (h _ rfl)]
  | unknown => rfl

/-- The bytes of pieces depend on the labels that the pieces use, and on no others. -/
theorem Piece.output_congr {base cursor : Int} {written : Nat} {ps : List Piece}
    (h : ∀ c, .chunk c ∈ ps → labels.Agree others c.reference?) :
    output others base cursor written ps = output labels base cursor written ps := by
  induction ps generalizing cursor written with
  | nil => rfl
  | cons p ps ih =>
      have hrest := fun c hc => h c (List.mem_cons_of_mem p hc)
      have hadded : p.added others base cursor written = p.added labels base cursor written := by
        cases p with
        | chunk c =>
            have hsettle := @Chunk.settle_congr _ _ cursor _ (h c List.mem_cons_self)
            rw [added, added, Chunk.settledAt, Chunk.settledAt, hsettle]
        | block position label => rfl
      rw [output, output, hadded, ih hrest]

namespace FlatWalk

variable {walk other : FlatWalk} {statements : List Statement}

theorem step_cursor_congr (h : other.cursor = walk.cursor) (s : Statement) :
    (other.step s).cursor = (walk.step s).cursor := by
  cases s <;> simp [step, h]

/-- What is wrong with references depends on the cursor and on the labels they use. -/
theorem firstProblem?_congr (hcursor : other.cursor = walk.cursor)
    (h : ∀ s ∈ statements, labels.Agree others s.reference?) :
    other.firstProblem? others statements = walk.firstProblem? labels statements := by
  induction statements generalizing walk other with
  | nil => rfl
  | cons s rest ih =>
      obtain ⟨hs, hrest⟩ := List.forall_mem_cons.1 h
      have hproblem : other.problem? others s = walk.problem? labels s := by
        unfold problem?
        rw [hcursor]
        cases hr : s.reference? with
        | none => rfl
        | some r => simp only [Option.bind_some, Reference.problem?, hs r hr]
      rw [firstProblem?, firstProblem?, hproblem, ih (step_cursor_congr hcursor s) hrest]

theorem firstProblem?_append (labels : Labels) (walk : FlatWalk) (front back : List Statement) :
    walk.firstProblem? labels (front ++ back) =
      (walk.firstProblem? labels front).or
        ((front.foldl step walk).firstProblem? labels back) := by
  induction front generalizing walk with
  | nil => rfl
  | cons s front ih =>
      rw [List.cons_append, firstProblem?, firstProblem?, ih, Option.or_assoc]
      rfl

end FlatWalk

end Agree

/-! ## The walk past a fresh label -/

namespace FlatWalk

/-- A walk has found what another one has, and a label besides. -/
structure Extends (name : String) (address : Int) (plain labelled : FlatWalk) : Prop where
  cursor : labelled.cursor = plain.cursor
  instructions : labelled.instructions = plain.instructions
  labels : ∀ other : String, labelled.labels[other]? =
    if other = name then some address else plain.labels[other]?

variable {name : String} {address : Int} {plain labelled : FlatWalk} {s : Statement}
  {statements : List Statement}

theorem extends_label (walk : FlatWalk) (tag : Option Tag) (name : String) :
    walk.Extends name walk.cursor (walk.step (.label tag name)) where
  cursor := rfl
  instructions := rfl
  labels := fun other => Labels.getElem?_insert walk.labels name other walk.cursor

theorem Extends.insert (h : plain.Extends name address labelled) {another : String}
    (hanother : another ≠ name) (other : String) :
    (labelled.labels.insert another labelled.cursor)[other]? =
      if other = name then some address
      else (plain.labels.insert another plain.cursor)[other]? := by
  rw [Labels.getElem?_insert, Labels.getElem?_insert, h.labels other, h.cursor]
  by_cases hother : other = another
  · rw [if_pos hother, if_pos hother, if_neg (hother ▸ hanother)]
  · rw [if_neg hother, if_neg hother]

/-- A statement that does not define the label keeps one walk ahead of the other by it. -/
theorem Extends.step (h : plain.Extends name address labelled) (hs : ∀ tag, s ≠ .label tag name) :
    (plain.step s).Extends name address (labelled.step s) := by
  have hcursor := step_cursor_congr h.cursor s
  cases s with
  | label tag another =>
      have hanother : another ≠ name := by
        rintro rfl
        exact hs tag rfl
      exact ⟨hcursor, h.instructions, h.insert hanother⟩
  | instruction tag mnemonic operand =>
      refine ⟨hcursor, ?_, h.labels⟩
      show labelled.instructions ++ [⟨labelled.cursor, tag⟩] = _
      rw [h.instructions, h.cursor]
      rfl
  | comment tag => exact h
  | includeFile tag path => exact h
  | unknown => exact h
  | org tag address => exact ⟨hcursor, h.instructions, h.labels⟩
  | pad tag address => exact ⟨hcursor, h.instructions, h.labels⟩
  | bytes tag values => exact ⟨hcursor, h.instructions, h.labels⟩
  | words tag values => exact ⟨hcursor, h.instructions, h.labels⟩
  | vector tag label => exact ⟨hcursor, h.instructions, h.labels⟩

theorem Extends.foldl_step (h : plain.Extends name address labelled)
    (hne : ∀ s ∈ statements, ∀ tag, s ≠ .label tag name) :
    (statements.foldl FlatWalk.step plain).Extends name address
      (statements.foldl FlatWalk.step labelled) := by
  induction statements generalizing plain labelled with
  | nil => exact h
  | cons s rest ih =>
      obtain ⟨hs, hrest⟩ := List.forall_mem_cons.1 hne
      exact ih (h.step hs) hrest

/-- A fresh label changes the walk by itself only. -/
theorem across_extends {front back : List Statement} (tag : Option Tag)
    (hfresh : ∀ s ∈ front ++ back, s.Avoids name) :
    (across (front ++ back)).Extends name (across front).cursor
      (across (front ++ .label tag name :: back)) := by
  simp only [across, List.foldl_append, List.foldl_cons]
  apply Extends.foldl_step (extends_label _ tag name)
  intro s hs
  exact (hfresh s (List.mem_append_right front hs)).not_label

end FlatWalk

/-! ## The outcome past a fresh label -/

namespace Statement

variable {name : String} {front back : List Statement} (tag : Option Tag)

/-- All references know their labels with a fresh label as without it. -/
theorem agree_of_fresh (hfresh : ∀ s ∈ front ++ back, s.Avoids name) :
    ∀ s ∈ front ++ back, (FlatWalk.across (front ++ back)).labels.Agree
      (FlatWalk.across (front ++ .label tag name :: back)).labels s.reference? := by
  intro s hs r hr
  rw [(FlatWalk.across_extends tag hfresh).labels r.name,
    if_neg ((hfresh s hs).not_used r hr)]

theorem firstError?_of_fresh (hfresh : ∀ s ∈ front ++ back, s.Avoids name) :
    firstError? (front ++ .label tag name :: back) = firstError? (front ++ back) := by
  have hagree := agree_of_fresh tag hfresh
  have hproblem : FlatWalk.start.firstProblem?
      (FlatWalk.across (front ++ .label tag name :: back)).labels
      (front ++ .label tag name :: back) =
      FlatWalk.start.firstProblem? (FlatWalk.across (front ++ back)).labels (front ++ back) := by
    obtain ⟨hfront, hback⟩ := List.forall_mem_append.1 hagree
    rw [FlatWalk.firstProblem?_append, FlatWalk.firstProblem?_append,
      FlatWalk.firstProblem?_congr rfl hfront]
    -- the label itself uses nothing and leaves the cursor where it is
    have hcursor : ((front.foldl FlatWalk.step .start).step (.label tag name)).cursor =
        (front.foldl FlatWalk.step .start).cursor := rfl
    exact congrArg _ (FlatWalk.firstProblem?_congr hcursor hback)
  have hsize : ((front ++ .label tag name :: back).map size).sum =
      ((front ++ back).map size).sum := by
    simp [size]
  have hbuild : (front ++ .label tag name :: back).findSome? buildError? =
      (front ++ back).findSome? buildError? := by
    rw [List.findSome?_append, List.findSome?_append]
    rfl
  rw [firstError?, firstError?, hproblem, hsize, hbuild]

/-- Statements start at zero if the first that counts is not a move. -/
theorem imageStart_of_stays {statements : List Statement}
    (h : ∀ s, (statements.filter counts).head? = some s → s.isMove = false) :
    imageStart statements = 0 := by
  induction statements with
  | nil => rfl
  | cons s rest ih =>
      cases s with
      | comment tag => exact ih h
      | includeFile tag path => exact ih h
      | org tag address => cases h _ rfl
      | pad tag address => cases h _ rfl
      | label tag name => rfl
      | instruction tag mnemonic operand => rfl
      | bytes tag values => rfl
      | words tag values => rfl
      | vector tag label => rfl
      | unknown => rfl

theorem imageStart_of_fresh
    (hopening : (∃ s ∈ front, s.counts = true) ∨
      ∀ s, (back.filter counts).head? = some s → s.isMove = false) :
    imageStart (front ++ .label tag name :: back) = imageStart (front ++ back) := by
  induction front with
  | nil =>
      rcases hopening with ⟨s, hs, -⟩ | hback
      · cases hs
      · exact (imageStart_of_stays hback).symm
  | cons s front ih =>
      have hrest : s.counts = false → (∃ s ∈ front, s.counts = true) ∨
          ∀ s, (back.filter counts).head? = some s → s.isMove = false := by
        intro hs
        refine hopening.imp_left ?_
        rintro ⟨u, hu, hcounts⟩
        rcases List.mem_cons.1 hu with rfl | hu
        · cases hs.symm.trans hcounts
        · exact ⟨u, hu, hcounts⟩
      cases s with
      | comment place => exact ih (hrest rfl)
      | includeFile place path => exact ih (hrest rfl)
      | org place address => rfl
      | pad place address => rfl
      | label place other => rfl
      | instruction place mnemonic operand => rfl
      | bytes place values => rfl
      | words place values => rfl
      | vector place label => rfl
      | unknown => rfl

theorem imageSize_of_fresh (base : Int) :
    (ImageWalk.across base (front ++ .label tag name :: back)).size =
      (ImageWalk.across base (front ++ back)).size := by
  rw [ImageWalk.across, ImageWalk.across, List.foldl_append, List.foldl_append]
  rfl

/-- A fresh label adds no bytes, and changes none. -/
theorem output_of_fresh {good : Tag → Prop} {base : Int}
    (hform : ∀ s ∈ front ++ back, s.WellFormed good)
    (hall : ∀ s ∈ front ++ back, ∃ p, s.piece = .ok p)
    (hfresh : ∀ s ∈ front ++ back, s.Avoids name) :
    Piece.output (FlatWalk.across (front ++ .label tag name :: back)).labels base 0 0
        ((front ++ .label tag name :: back).filterMap piece?) =
      Piece.output (FlatWalk.across (front ++ back)).labels base 0 0
        ((front ++ back).filterMap piece?) := by
  have hagree : ∀ c, .chunk c ∈ (front ++ back).filterMap piece? →
      (FlatWalk.across (front ++ back)).labels.Agree
        (FlatWalk.across (front ++ .label tag name :: back)).labels c.reference? := by
    intro c hc
    obtain ⟨s, hs, hpiece⟩ := List.mem_filterMap.1 hc
    obtain ⟨added, hadded⟩ := hall s hs
    rw [piece?_of_ok hadded] at hpiece
    rw [hpiece] at hadded
    rw [reference?_of_piece (hform s hs) hadded]
    exact agree_of_fresh tag hfresh s hs
  rw [← Piece.output_congr hagree, List.filterMap_append, List.filterMap_append,
    Piece.output_append, Piece.output_append]
  rfl

end Statement

/-- A fresh label is transparent.  Put a label that no statement of a text defines or uses between
any two of them, but not in front of a move that opens the text.  Then the assembly fails with the
same error as without it, or the image is too large with it and without it; or both succeed, with
the same code, origin and source map, and with the same labels but for the new one, which stands
for the address that the walk has reached in front of it. -/
theorem fresh_label_is_transparent {unit : Int} {text : List Char} {front back : List Statement}
    {name : String} {tag : Tag} (hparse : Statement.parse unit text = .ok (front ++ back))
    (hfresh : ∀ s ∈ front ++ back, s.Avoids name)
    (hopening : (∃ s ∈ front, s.counts = true) ∨
      ∀ s, (back.filter Statement.counts).head? = some s → s.isMove = false) :
    (∃ e, Output.ofStatements (front ++ back) = .error e ∧
        Output.ofStatements (front ++ .label (some tag) name :: back) = .error e) ∨
      (∃ size size',
        Output.ofStatements (front ++ back) = .error (.fault (.imageTooLarge size)) ∧
        Output.ofStatements (front ++ .label (some tag) name :: back) =
          .error (.fault (.imageTooLarge size'))) ∨
      ∃ plain labelled, Output.ofStatements (front ++ back) = .ok plain ∧
        Output.ofStatements (front ++ .label (some tag) name :: back) = .ok labelled ∧
        labelled.code = plain.code ∧ labelled.origin = plain.origin ∧
        labelled.mapEntries = plain.mapEntries ∧
        (∀ units, labelled.sourceMap units = plain.sourceMap units) ∧
        plain.labels[name]? = none ∧
        ∀ other : String, labelled.labels[other]? =
          if other = name then some (FlatWalk.across front).cursor else plain.labels[other]? := by
  have hform := Statement.wellFormed_of_parse hparse
  have hformLabel : ∀ s ∈ front ++ .label (some tag) name :: back, s.WellFormed fun _ => True := by
    obtain ⟨hfront, hback⟩ := List.forall_mem_append.1 hform
    exact List.forall_mem_append.2
      ⟨hfront, List.forall_mem_cons.2 ⟨⟨tag, rfl, trivial⟩, hback⟩⟩
  have hfirst := Statement.firstError?_of_fresh (some tag) hfresh
  have hstart := @Statement.imageStart_of_fresh name front back (some tag) hopening
  cases hplain : Statement.firstError? (front ++ back) with
  | some e =>
      rw [hplain] at hfirst
      exact Or.inl ⟨e, Output.ofStatements_eq_error hform hplain,
        Output.ofStatements_eq_error hformLabel hfirst⟩
  | none =>
      right
      rw [hplain] at hfirst
      have hsize := @Statement.imageSize_of_fresh name front back (some tag)
        (Statement.imageStart (front ++ back))
      rw [← hstart] at hsize
      rcases Nat.lt_or_ge addressSpace (ImageWalk.across (Statement.imageStart (front ++ back))
        (front ++ back)).size with hlarge | hfits
      · left
        obtain ⟨size, herror⟩ := Output.ofStatements_too_large hform hplain hlarge
        obtain ⟨size', herror'⟩ := Output.ofStatements_too_large hformLabel hfirst
          (by rw [hsize, hstart]; exact hlarge)
        exact ⟨size, size', herror, herror'⟩
      · right
        obtain ⟨plain, hrun, hrenders⟩ := Output.ofStatements_fits hform hplain hfits
        obtain ⟨labelled, hrun', hrenders'⟩ := Output.ofStatements_fits hformLabel hfirst
          (by rw [hsize, hstart]; exact hfits)
        have hextends := FlatWalk.across_extends (some tag) hfresh
        have hentries : labelled.mapEntries = plain.mapEntries := by
          rw [hrenders.entries_eq, hrenders'.entries_eq, hextends.instructions]
        refine ⟨plain, labelled, hrun, hrun', ?_, ?_, hentries, ?_, ?_, ?_⟩
        · rw [hrenders.code_eq, hrenders'.code_eq, hstart]
          exact Statement.output_of_fresh (some tag) hform
            (Statement.piece_of_firstError? hplain) hfresh
        · rw [hrenders.origin_eq, hrenders'.origin_eq, hstart]
        · intro units
          rw [Output.sourceMap, Output.sourceMap, hentries]
        · rw [hrenders.labels_eq]
          exact FlatWalk.across_labels_nowhere fun s hs => (hfresh s hs).not_label
        · intro other
          rw [hrenders.labels_eq, hrenders'.labels_eq]
          exact hextends.labels other

/-- A label at the end of a block, in front of a move that leads back. -/
theorem label_before_move_back_is_transparent :
    ∃ front back plain labelled,
      Statement.parse 0 ".org $8000\njmp x\n.org $7000\nx: rts".toList = .ok (front ++ back) ∧
      Output.ofStatements (front ++ back) = .ok plain ∧
      Output.ofStatements (front ++ .label (some ⟨0, 17⟩) "y" :: back) = .ok labelled ∧
      labelled.code = plain.code ∧ labelled.origin = plain.origin ∧
      labelled.mapEntries = plain.mapEntries ∧ labelled.labels["y"]? = some 0x8003 ∧
      labelled.labels["x"]? = plain.labels["x"]? := by
  let jump : Statement :=
    .instruction (some ⟨0, 11⟩) "jmp" (.plain .address (.name (some ⟨0, 15⟩) "x"))
  let front : List Statement := [.org (some ⟨0, 0⟩) ⟨.word, 0x8000⟩, jump]
  let back : List Statement :=
    [.org (some ⟨0, 17⟩) ⟨.word, 0x7000⟩, .label (some ⟨0, 28⟩) "x",
      .instruction (some ⟨0, 31⟩) "rts" .none]
  have hparse : Statement.parse 0 ".org $8000\njmp x\n.org $7000\nx: rts".toList =
      .ok (front ++ back) := rfl
  have hrun : (Output.ofStatements (front ++ back)).isOk = true := by decide +kernel
  have hfresh : ∀ s ∈ front ++ back, s.Avoids "y" := by
    intro s hs
    simp only [front, back, jump, List.cons_append, List.nil_append, List.mem_cons,
      List.not_mem_nil, or_false] at hs
    rcases hs with rfl | rfl | rfl | rfl | rfl
    · exact ⟨nofun, nofun⟩
    · refine ⟨nofun, ?_⟩
      rintro r ⟨⟩
      decide
    · exact ⟨nofun, nofun⟩
    · exact ⟨by simp, nofun⟩
    · exact ⟨nofun, nofun⟩
  rcases @fresh_label_is_transparent 0 _ front back "y" ⟨0, 17⟩ hparse hfresh
    (Or.inl ⟨jump, by simp [front], rfl⟩) with
      ⟨e, herror, -⟩ | ⟨size, -, herror, -⟩ |
        ⟨plain, labelled, hplain, hlabelled, hcode, horigin, hentries, -, -, hlabels⟩
  · rw [herror] at hrun
    cases hrun
  · rw [herror] at hrun
    cases hrun
  · have haddress : (FlatWalk.across front).cursor = 0x8003 := by decide +kernel
    have hnew := hlabels "y"
    rw [if_pos rfl, haddress] at hnew
    exact ⟨front, back, plain, labelled, hparse, hplain, hlabelled, hcode, horigin, hentries, hnew,
      (hlabels "x").trans (if_neg (by decide))⟩

end Asm65
