import Mathlib.Data.List.Forall2
import Asm65.Proofs.Locations
import Asm65.Proofs.Tiling

/-!
# Source maps lead back to instructions

A statement has the place of its first token, and so has the map entry of an instruction.  Within a
text the places of statements increase, since the tokens tile the text.

Included files come under numbers of their own, in the middle of the statements of the file that
includes them.  So the statements of a session can be told apart by their units: those in one unit
are the statements of its text, all of them and in their order, whatever stands between them.
-/

namespace Asm65

namespace Statement

/-- The place of a statement. -/
def tag : Statement → Option Tag
  | .comment tag | .label tag _ | .instruction tag _ _ | .org tag _ | .pad tag _ | .bytes tag _
  | .words tag _ | .vector tag _ | .includeFile tag _ => tag
  | .unknown => none

/-- Whether a statement has its place in the unit of a number. -/
def isIn (id : Nat) (s : Statement) : Bool :=
  s.tag.any fun t => t.unit == (id : Int)

/-- If both statements are in one unit, the first stands before the second. -/
def Precedes (s s' : Statement) : Prop :=
  ∀ t ∈ s.tag, ∀ t' ∈ s'.tag, t.unit = t'.unit → t.offset < t'.offset

/-- An instruction stands at an offset of a text: it has this place, and here the text goes on with
its mnemonic, as it is written. -/
def StandsAt (s : Statement) (id : Nat) (text : List Char) (offset : Nat) : Prop :=
  ∃ mnemonic operand rest, s = .instruction (some ⟨id, offset⟩) mnemonic operand ∧
    offset ≤ text.length ∧ text.drop offset = mnemonic.toList ++ rest ∧
    Token.Stops Token.isNameChar rest

theorem StandsAt.tag_eq {s : Statement} {id offset : Nat} {text : List Char}
    (h : s.StandsAt id text offset) : s.tag = some ⟨id, offset⟩ := by
  obtain ⟨mnemonic, operand, rest, rfl, -⟩ := h
  rfl

theorem StandsAt.offset_le {s : Statement} {id offset : Nat} {text : List Char}
    (h : s.StandsAt id text offset) : offset ≤ text.length := by
  obtain ⟨mnemonic, operand, rest, -, hoffset, -⟩ := h
  exact hoffset

theorem isIn_iff {id : Nat} {s : Statement} :
    s.isIn id = true ↔ ∃ t ∈ s.tag, t.unit = id := by
  simp [isIn, Option.any_eq_true]

/-- A statement is in one unit only. -/
theorem eq_of_isIn {id other : Nat} {s : Statement} (h : s.isIn id = true)
    (h' : s.isIn other = true) : id = other := by
  obtain ⟨t, ht, hunit⟩ := isIn_iff.1 h
  obtain ⟨t', ht', hunit'⟩ := isIn_iff.1 h'
  cases ht.symm.trans ht'
  exact Int.ofNat.inj (hunit.symm.trans hunit')

theorem filter_isIn_eq_nil {ids : Nat → Prop} {id : Nat} {statements : List Statement}
    (h : ∀ s ∈ statements, ∃ other, ids other ∧ s.isIn other = true) (hid : ¬ ids id) :
    statements.filter (isIn id) = [] := by
  rw [List.filter_eq_nil_iff]
  intro s hs hin
  obtain ⟨other, hother, hs'⟩ := h s hs
  rw [eq_of_isIn hin hs'] at hid
  exact hid hother

end Statement

/-! ## The statements of a text -/

namespace Token

/-- A token of a text stands in it at its offset. -/
theorem Tiles.text_at {unit : Int} {text : List Char} {tokens : List Token} {t : Token}
    (h : Tiles unit .start text tokens) (ht : t ∈ tokens) :
    t.unit = unit ∧ t.offset ≤ text.length ∧
      ∀ name, t.kind = .identifier name →
        ∃ rest, text.drop t.offset = name.toList ++ rest ∧ Stops isNameChar rest := by
  obtain ⟨before, after, rfl⟩ := List.append_of_mem ht
  obtain ⟨front, back, rfl, -, hplaced, hat, -⟩ := h.split
  have hoffset : t.offset = front.length := offset_of_placed hplaced
  refine ⟨by rw [hplaced]; rfl, by simp [hoffset], fun name hname => ?_⟩
  rw [hoffset, List.drop_left]
  cases hat with
  | stop hkind => cases hkind.symm.trans hname
  | lexeme hlexeme =>
      rw [hname] at hlexeme
      cases hlexeme with
      | identifier _ hstop => exact ⟨_, by rw [String.toList_ofList], hstop⟩
      | punctuation hmark => exact absurd (mem_of_punctuation? hmark) (by simp)

end Token

section Sublists

variable {α β : Type} {related : α → β → Prop} {xs xs' : List α} {ys ys' : List β}

theorem exists_of_sublistForall₂ (h : List.SublistForall₂ related xs ys) :
    ∀ x ∈ xs, ∃ y ∈ ys, related x y := by
  induction h with
  | nil => exact List.forall_mem_nil _
  | cons hxy _ ih =>
      refine List.forall_mem_cons.2 ⟨⟨_, List.mem_cons_self, hxy⟩, fun x hx => ?_⟩
      obtain ⟨y, hy, hrelated⟩ := ih x hx
      exact ⟨y, List.mem_cons_of_mem _ hy, hrelated⟩
  | cons_right _ ih =>
      intro x hx
      obtain ⟨y, hy, hrelated⟩ := ih x hx
      exact ⟨y, List.mem_cons_of_mem _ hy, hrelated⟩

theorem sublistForall₂_append (h : List.SublistForall₂ related xs ys)
    (h' : List.SublistForall₂ related xs' ys') :
    List.SublistForall₂ related (xs ++ xs') (ys ++ ys') := by
  obtain ⟨zs, hzs, hsub⟩ := List.sublistForall₂_iff.1 h
  obtain ⟨zs', hzs', hsub'⟩ := List.sublistForall₂_iff.1 h'
  exact List.sublistForall₂_iff.2 ⟨zs ++ zs', List.rel_append hzs hzs', hsub.append hsub'⟩

/-- An order of lists is handed on to what is related to them. -/
theorem pairwise_of_sublistForall₂ {before : α → α → Prop} {before' : β → β → Prop}
    (h : List.SublistForall₂ related xs ys) (hpairs : ys.Pairwise before')
    (hrelated : ∀ x y x' y', related x y → related x' y' → before' y y' → before x x') :
    xs.Pairwise before := by
  induction h with
  | nil => exact .nil
  | cons hxy hrest ih =>
      obtain ⟨hfirst, hpairs⟩ := List.pairwise_cons.1 hpairs
      refine .cons (fun x hx => ?_) (ih hpairs)
      obtain ⟨y, hy, hxy'⟩ := exists_of_sublistForall₂ hrest x hx
      exact hrelated _ _ _ _ hxy hxy' (hfirst y hy)
  | cons_right _ ih => exact ih (List.pairwise_cons.1 hpairs).2

end Sublists

namespace Grammar

variable {tokens : List Token} {statements : List Statement}

/-- A statement has the place of a token; an instruction has it from its mnemonic. -/
structure StartsAt (s : Statement) (t : Token) : Prop where
  tag_eq : s.tag = some t.tag
  mnemonic : ∀ tag mnemonic operand, s = .instruction tag mnemonic operand →
    t.kind = .identifier mnemonic

theorem StartsAt.of_tag {s : Statement} {t : Token} (htag : s.tag = some t.tag)
    (hs : s.isInstruction = false) : StartsAt s t where
  tag_eq := htag
  mnemonic := by
    rintro tag mnemonic operand rfl
    cases hs

theorem IsDirective.startsAt {s : Statement} (h : IsDirective tokens s) :
    List.SublistForall₂ StartsAt [s] tokens := by
  cases h <;> exact .cons (.of_tag rfl rfl) .nil

theorem IsBody.startsAt (h : IsBody tokens statements) :
    List.SublistForall₂ StartsAt statements tokens := by
  cases h with
  | none => exact .nil
  | instruction hkind _ =>
      refine .cons ⟨rfl, ?_⟩ .nil
      rintro tag mnemonic operand ⟨⟩
      exact hkind
  | directive hdirective => exact hdirective.startsAt

theorem IsLine.startsAt (h : IsLine tokens statements) :
    List.SublistForall₂ StartsAt statements tokens := by
  obtain ⟨hlabel, hbody, hcomment⟩ := h
  next label body comment labels bodies comments =>
    have hlabels : List.SublistForall₂ StartsAt labels label := by
      cases hlabel with
      | none => exact .nil
      | label _ _ => exact .cons (.of_tag rfl rfl) .nil
    have hcomments : List.SublistForall₂ StartsAt comments comment := by
      cases hcomment with
      | none => exact .nil
      | comment _ => exact .cons (.of_tag rfl rfl) .nil
    have hfront := sublistForall₂_append hlabels hbody.startsAt
    split
    · exact sublistForall₂_append (@List.SublistForall₂.nil _ _ _ (label ++ body)) hcomments
    · rw [← List.append_nil (labels ++ bodies)]
      exact sublistForall₂_append hfront .nil

theorem startsAt_of_lines {lines : List (List Token)} {parts : List (List Statement)}
    (h : List.Forall₂ IsLine lines parts) :
    List.SublistForall₂ StartsAt parts.flatten lines.flatten := by
  induction h with
  | nil => exact .nil
  | cons hline _ ih => exact sublistForall₂_append hline.startsAt ih

end Grammar

open Grammar

namespace Statement

variable {id : Nat} {text : List Char} {statements : List Statement}

/-- Each statement of a text starts at a token of its own, in the order of the text. -/
theorem exists_startsAt_of_parse {unit : Int} (h : parse unit text = .ok statements) :
    ∃ tokens, Token.Tiles unit .start text tokens ∧
      List.SublistForall₂ StartsAt statements tokens := by
  obtain ⟨tokens, parts, hscan, hparts, rfl⟩ := parse_eq_ok_iff.1 h
  refine ⟨tokens, Token.scan_eq_iff_tiles.1 hscan, ?_⟩
  have hlines := startsAt_of_lines hparts
  rw [Token.lines, flatten_splitOnP] at hlines
  obtain ⟨heads, hheads, hsub⟩ := List.sublistForall₂_iff.1 hlines
  refine List.sublistForall₂_iff.2 ⟨heads, hheads, hsub.trans ?_⟩
  exact List.filter_sublist.trans (List.takeWhile_sublist _)

/-- An instruction of a text stands in it at its place. -/
theorem standsAt_of_parse {s : Statement} (h : parse id text = .ok statements)
    (hs : s ∈ statements) (hinstruction : s.isInstruction = true) :
    ∃ offset, s.StandsAt id text offset := by
  obtain ⟨tokens, htiles, hstarts⟩ := exists_startsAt_of_parse h
  obtain ⟨t, ht, hstart⟩ := exists_of_sublistForall₂ hstarts s hs
  obtain ⟨hunit, hoffset, hname⟩ := htiles.text_at ht
  obtain ⟨tag, mnemonic, operand, rfl⟩ := eq_of_isInstruction hinstruction
  obtain ⟨rest, hdrop, hstop⟩ := hname mnemonic (hstart.mnemonic _ _ _ rfl)
  have htag : tag = some ⟨id, t.offset⟩ := by
    rw [← hunit]
    exact hstart.tag_eq
  exact ⟨t.offset, mnemonic, operand, rest, by rw [htag], hoffset, hdrop, hstop⟩

theorem isIn_of_parse (h : parse id text = .ok statements) :
    ∀ s ∈ statements, s.isIn id = true := by
  obtain ⟨tokens, htiles, hstarts⟩ := exists_startsAt_of_parse h
  intro s hs
  obtain ⟨t, ht, hstart⟩ := exists_of_sublistForall₂ hstarts s hs
  exact isIn_iff.2 ⟨t.tag, hstart.tag_eq, (htiles.text_at ht).1⟩

/-- The places of the statements of a text increase. -/
theorem pairwise_precedes_of_parse (h : parse id text = .ok statements) :
    statements.Pairwise Precedes := by
  obtain ⟨tokens, htiles, hstarts⟩ := exists_startsAt_of_parse h
  refine pairwise_of_sublistForall₂ hstarts htiles.pairwise_offset ?_
  intro s t s' t' hs hs' hbefore p hp p' hp' _
  cases hs.tag_eq.symm.trans hp
  cases hs'.tag_eq.symm.trans hp'
  exact Int.ofNat_lt.2 hbefore

end Statement

/-! ## The statements of units -/

open Statement

/-- The statements are in the units. -/
def Units.Hold (units : Units) (statements : List Statement) : Prop :=
  ∀ s ∈ statements, ∃ id, id < units.length ∧ s.isIn id = true

/-- How statements of old units go on when more units are added.  In an old unit there are the same
statements as before, and in a new one there are the statements of its text. -/
structure Units.Account (units next : Units) (old statements : List Statement) : Prop where
  placed : ∀ s ∈ statements,
    s ∈ old ∨ ∃ id, (units.length ≤ id ∧ id < next.length) ∧ s.isIn id = true
  kept : ∀ id < units.length, statements.filter (isIn id) = old.filter (isIn id)
  parsed : ∀ id unit, units.length ≤ id → next[id]? = some unit →
    parse id unit.text = .ok (statements.filter (isIn id))

namespace Units

variable {units middle next : Units} {old inner flat : List Statement} {s : Statement}
  {name : String} {text : List Char}

theorem Hold.mono (h : units.Hold old) (hmore : units <+: next) : next.Hold old := by
  intro s hs
  obtain ⟨id, hid, hin⟩ := h s hs
  exact ⟨id, hid.trans_le hmore.length_le, hin⟩

theorem Account.nil (units : Units) : units.Account units [] [] where
  placed := List.forall_mem_nil _
  kept := fun _ _ => rfl
  parsed := by
    intro id unit hid hunit
    rw [List.getElem?_eq_none hid] at hunit
    cases hunit

/-- A statement of an old unit changes nothing. -/
theorem Account.cons (h : units.Account next old flat)
    (hs : ∃ id, id < units.length ∧ s.isIn id = true) :
    units.Account next (s :: old) (s :: flat) where
  placed := by
    refine List.forall_mem_cons.2 ⟨Or.inl List.mem_cons_self, fun s hs => ?_⟩
    exact (h.placed s hs).imp_left (List.mem_cons_of_mem _)
  kept := by
    intro id hid
    rw [List.filter_cons, List.filter_cons, h.kept id hid]
  parsed := by
    intro id unit hid hunit
    have hnone : [s].filter (isIn id) = [] :=
      filter_isIn_eq_nil (List.forall_mem_singleton.2 hs) hid.not_gt
    rw [← List.singleton_append, List.filter_append, hnone]
    exact h.parsed id unit hid hunit

theorem Account.hold (h : units.Account next [] flat) : next.Hold flat := by
  intro s hs
  rcases h.placed s hs with hnil | ⟨id, ⟨-, hid⟩, hin⟩
  · cases hnil
  · exact ⟨id, hid, hin⟩

/-- Two additions one behind the other: each new unit was added by one of them. -/
theorem Account.append (h : units.Account middle [] inner) (h' : middle.Account next old flat)
    (hmiddle : units <+: middle) (hnext : middle <+: next) (hold : units.Hold old) :
    units.Account next old (inner ++ flat) where
  placed := by
    refine List.forall_mem_append.2 ⟨fun s hs => ?_, fun s hs => ?_⟩
    · rcases h.placed s hs with hnil | ⟨id, ⟨hlow, hhigh⟩, hin⟩
      · cases hnil
      · exact Or.inr ⟨id, ⟨hlow, hhigh.trans_le hnext.length_le⟩, hin⟩
    · refine (h'.placed s hs).imp_right ?_
      rintro ⟨id, ⟨hlow, hhigh⟩, hin⟩
      exact ⟨id, ⟨hmiddle.length_le.trans hlow, hhigh⟩, hin⟩
  kept := by
    intro id hid
    rw [List.filter_append, h.kept id hid, h'.kept id (hid.trans_le hmiddle.length_le)]
    rfl
  parsed := by
    intro id unit hid hunit
    rw [List.filter_append]
    rcases lt_or_ge id middle.length with hlt | hge
    · rw [h'.kept id hlt, filter_isIn_eq_nil hold hid.not_gt, List.append_nil]
      obtain ⟨more, rfl⟩ := hnext
      rw [List.getElem?_append_left hlt] at hunit
      exact h.parsed id unit hid hunit
    · rw [filter_isIn_eq_nil h.hold hge.not_gt, List.nil_append]
      exact h'.parsed id unit hge hunit

/-- A text adds its statements and what its inclusions add. -/
theorem Account.of_parse (hparse : parse units.length text = .ok old)
    (hunits : units ++ [⟨name, text⟩] <+: next)
    (haccount : Units.Account (units ++ [⟨name, text⟩]) next old flat) :
    units.Account next [] flat where
  placed := by
    have hadded := hunits.length_le
    rw [List.length_append, List.length_singleton] at hadded
    intro s hs
    right
    rcases haccount.placed s hs with hown | ⟨id, ⟨hlow, hhigh⟩, hin⟩
    · exact ⟨units.length, ⟨Nat.le_refl _, hadded⟩, isIn_of_parse hparse s hown⟩
    · rw [List.length_append] at hlow
      exact ⟨id, ⟨by omega, hhigh⟩, hin⟩
  kept := by
    intro id hid
    rw [haccount.kept id (hid.trans_le (List.prefix_append _ _).length_le)]
    exact @filter_isIn_eq_nil (· = units.length) _ _
      (fun s hs => ⟨_, rfl, isIn_of_parse hparse s hs⟩) hid.ne
  parsed := by
    intro id unit hid hunit
    rcases hid.eq_or_lt with rfl | hlater
    · obtain ⟨more, rfl⟩ := hunits
      rw [List.append_assoc, List.getElem?_append_right (Nat.le_refl _), Nat.sub_self] at hunit
      cases hunit
      rw [hparse, haccount.kept _ (by simp), List.filter_eq_self.2 (isIn_of_parse hparse)]
    · refine haccount.parsed id unit ?_ hunit
      rw [List.length_append]
      exact hlater

theorem Hold.of_parse (h : parse units.length text = .ok old) :
    Units.Hold (units ++ [⟨name, text⟩]) old :=
  fun s hs => ⟨units.length, by simp, isIn_of_parse h s hs⟩

end Units

namespace Library

variable {library : Library} {active : List Place} {home : Option Place} {units next : Units}
  {statements flat : List Statement} {name : String} {text : List Char}

/-- A file is accounted for under its own number, wherever it is included. -/
theorem Flattens.account (h : library.Flattens active home units statements next flat)
    (hhold : units.Hold statements) : units.Account next statements flat := by
  induction h with
  | nil => exact .nil _
  | plain _ _ ih =>
      obtain ⟨hs, hrest⟩ := List.forall_mem_cons.1 hhold
      exact (ih hrest).cons hs
  | included henters hinner hrest ihinner ihrest =>
      obtain ⟨hs, hold⟩ := List.forall_mem_cons.1 hhold
      have hmiddle := (List.prefix_append _ _).trans hinner.units_prefix
      -- the units of the file come before those that are added behind the directive
      have hfile := Units.Account.of_parse henters.parse hinner.units_prefix
        (ihinner (.of_parse henters.parse))
      have hbehind := ihrest (Units.Hold.mono hold hmiddle)
      exact (hfile.append hbehind hmiddle hrest.units_prefix hold).cons hs

theorem Reads.account (h : library.Reads active home name text units next (.ok flat)) :
    units.Account next [] flat := by
  cases h with
  | flat hparse hflat =>
      exact .of_parse hparse hflat.units_prefix (hflat.account (.of_parse hparse))

end Library

theorem Call.Adds.account {searchPaths : List Path} {units next : Units} {call : Call}
    {flat : List Statement} (h : call.Adds searchPaths units next flat) :
    units.Account next [] flat := by
  induction h with
  | addText _ hreads => exact hreads.account
  | addFile _ _ ih => exact ih
  | assemble => exact .nil units

/-- The statements of a session are in its units.  In one unit there are all the statements of its
text, or none if the call that read it has failed. -/
structure Session.Accounted (session : Session) : Prop where
  placed : session.units.Hold session.statements
  parsed : ∀ id unit, session.units[id]? = some unit →
    session.statements.filter (isIn id) = [] ∨
      parse id unit.text = .ok (session.statements.filter (isIn id))

namespace Session

variable {session : Session}

theorem Accounted.perform (h : session.Accounted) (call : Call) :
    (session.perform call).1.Accounted := by
  have hunits := session.units_perform call
  rcases session.perform_cases call with
    ⟨next, flat, hadds, hsession, -⟩ | ⟨next, hsession, -⟩ <;> rw [hsession] at hunits ⊢
  · have hadded := hadds.account
    refine ⟨List.forall_mem_append.2 ⟨h.placed.mono hunits, hadded.hold⟩, fun id unit hunit => ?_⟩
    rw [List.filter_append]
    rcases lt_or_ge id session.units.length with hlt | hge
    · obtain ⟨more, rfl⟩ := hunits
      rw [List.getElem?_append_left hlt] at hunit
      rw [hadded.kept id hlt, List.filter_nil, List.append_nil]
      exact h.parsed id unit hunit
    · rw [filter_isIn_eq_nil h.placed hge.not_gt]
      exact Or.inr (hadded.parsed id unit hge hunit)
  · refine ⟨h.placed.mono hunits, fun id unit hunit => ?_⟩
    rcases lt_or_ge id session.units.length with hlt | hge
    · obtain ⟨more, rfl⟩ := hunits
      rw [List.getElem?_append_left hlt] at hunit
      exact h.parsed id unit hunit
    · exact Or.inl (filter_isIn_eq_nil h.placed hge.not_gt)

theorem Accounted.after (h : session.Accounted) (calls : List Call) :
    (session.after calls).Accounted := by
  induction calls generalizing session with
  | nil => exact h
  | cons call calls ih => exact ih (h.perform call)

theorem start_accounted (searchPaths : List String) : (start searchPaths).Accounted where
  placed := List.forall_mem_nil _
  parsed := fun _ _ _ => Or.inl rfl

/-- A unit with a statement has been read. -/
theorem Accounted.parse_eq_ok (h : session.Accounted) {id : Nat} {s : Statement}
    (hs : s ∈ session.statements) (hin : s.isIn id = true) :
    ∃ unit, session.units[id]? = some unit ∧
      parse id unit.text = .ok (session.statements.filter (isIn id)) := by
  have hmem : s ∈ session.statements.filter (isIn id) := List.mem_filter.2 ⟨hs, hin⟩
  have hid : id < session.units.length := by
    by_contra hnot
    rw [filter_isIn_eq_nil h.placed hnot] at hmem
    cases hmem
  obtain ⟨unit, hunit⟩ : ∃ unit, session.units[id]? = some unit :=
    ⟨_, List.getElem?_eq_getElem hid⟩
  rcases h.parsed id unit hunit with hnil | hparse
  · rw [hnil] at hmem
    cases hmem
  · exact ⟨unit, hunit, hparse⟩

theorem Accounted.pairwise_precedes (h : session.Accounted) :
    session.statements.Pairwise Precedes := by
  rw [List.pairwise_iff_forall_sublist]
  intro s s' hsub t ht t' ht' hunits
  have hs : s ∈ session.statements := hsub.subset List.mem_cons_self
  obtain ⟨id, -, hin⟩ := h.placed s hs
  obtain ⟨_, -, hparse⟩ := h.parse_eq_ok hs hin
  -- both are in one unit, whose statements are in the order of its text
  obtain ⟨u, hu, hid⟩ := isIn_iff.1 hin
  cases ht.symm.trans hu
  have hin' : s'.isIn id = true := isIn_iff.2 ⟨t', ht', hunits.symm.trans hid⟩
  have hown : [s, s'].Sublist (session.statements.filter (isIn id)) := by
    simpa [hin, hin'] using hsub.filter (isIn id)
  exact List.pairwise_iff_forall_sublist.1 (pairwise_precedes_of_parse hparse) hown
    t ht t' ht' hunits

end Session

/-! ## Lines of source maps -/

namespace Tag

theorem toList_rowsFrom (earlier : Array Nat) (row : Nat) (text : List Char) :
    (rowsFrom earlier row text).toList =
      earlier.toList ++
        (List.range (text.length + 1)).map fun i => row + (text.take i).count '\n' := by
  induction text generalizing earlier row with
  | nil => simp [rowsFrom]
  | cons c text ih =>
      rw [rowsFrom, ih, List.length_cons, @List.range_succ_eq_map (text.length + 1), List.map_cons,
        List.map_map, Array.toList_push, List.append_assoc]
      congr 1
      by_cases hc : c = '\n'
      · simp [hc, Function.comp_def, Nat.add_assoc, Nat.add_comm 1]
      · simp [hc, Function.comp_def]

/-- The row of an offset is found by counting the line feeds before it. -/
theorem rowIn_rows (unit : Int) {offset : Nat} {text : List Char} (h : offset ≤ text.length) :
    rowIn ⟨unit, offset⟩ (rows text) = 1 + (text.take offset).count '\n' := by
  have hrows := toList_rowsFrom #[] 1 text
  rw [List.nil_append] at hrows
  have hsize : (rows text).size - 1 = text.length := by
    rw [← Array.length_toList, rows, hrows]
    simp
  rw [rowIn, hsize, charsBefore_natCast h, Array.getD_eq_getD_getElem?, ← Array.getElem?_toList,
    rows, hrows]
  simp [Nat.lt_succ_of_le h]

end Tag

/-- The map entry that a line of a source map was made of. -/
def SourceMap.Line.entry (line : SourceMap.Line) : MapEntry :=
  ⟨line.address, some ⟨line.unit, line.offset⟩⟩

/-- A line of a source map leads to an instruction: it names the place where the instruction stands
and the row of this place. -/
def SourceMap.Line.LeadsTo (line : SourceMap.Line) (units : Units) (s : Statement) : Prop :=
  ∃ (id offset : Nat) (unit : SourceUnit),
    units[id]? = some unit ∧ s.StandsAt id unit.text offset ∧
    line.unit = id ∧ line.offset = offset ∧ line.line = 1 + (unit.text.take offset).count '\n'

namespace SourceMap

variable {units : Units}

/-- An entry with the place of an instruction has a line that leads to the instruction. -/
theorem locate_of_standsAt {id offset : Nat} {unit : SourceUnit} {s : Statement} {entry : MapEntry}
    (hunit : units[id]? = some unit) (hs : s.StandsAt id unit.text offset)
    (htag : entry.tag = s.tag) :
    ∃ line, locate units (units.map fun unit => Tag.rows unit.text) entry = .ok line ∧
      line.entry = entry ∧ line.LeadsTo units s := by
  have hrows : (units.map fun unit => Tag.rows unit.text).getD id #[] = Tag.rows unit.text := by
    rw [List.getD_eq_getElem?_getD, List.getElem?_map, hunit]
    rfl
  have htag : entry.tag = some ⟨id, offset⟩ := htag.trans hs.tag_eq
  refine ⟨⟨id, offset, 1 + (unit.text.take offset).count '\n', entry.address⟩, ?_, ?_,
    ⟨id, offset, unit, hunit, hs, rfl, rfl, rfl⟩⟩
  · simp only [locate, htag, (Units.numbered hunit).1]
    show Except.ok _ = _
    rw [hrows, Tag.rowIn_rows id hs.offset_le]
  · rw [Line.entry, ← htag]

/-- Entries with the places of instructions have lines that lead to the instructions. -/
theorem locateAll_of_standsAt {instructions : List Statement} {entries : List MapEntry}
    (found : List Line)
    (hstands : ∀ s ∈ instructions, ∃ id offset unit, units[id]? = some unit ∧
      s.StandsAt id unit.text offset)
    (htags : entries.map MapEntry.tag = instructions.map Statement.tag) :
    ∃ lines, locateAll units (units.map fun unit => Tag.rows unit.text) found entries =
        .ok (found.reverse ++ lines) ∧
      lines.map Line.entry = entries ∧
      List.Forall₂ (fun line s => line.LeadsTo units s) lines instructions := by
  induction entries generalizing found instructions with
  | nil =>
      rw [List.map_nil, eq_comm, List.map_eq_nil_iff] at htags
      exact ⟨[], by rw [locateAll, List.append_nil], rfl, htags ▸ .nil⟩
  | cons entry entries ih =>
      obtain ⟨s, others, rfl, htag, hothers⟩ := List.map_eq_cons_iff.1 htags.symm
      obtain ⟨⟨id, offset, unit, hunit, hs⟩, hrest⟩ := List.forall_mem_cons.1 hstands
      obtain ⟨line, hline, hentry, hleads⟩ := locate_of_standsAt hunit hs htag.symm
      obtain ⟨lines, hlines, hentries, hall⟩ := ih (line :: found) hrest hothers.symm
      refine ⟨line :: lines, ?_, by rw [List.map_cons, hentry, hentries], .cons hleads hall⟩
      simp only [locateAll, hline]
      rw [hlines, List.reverse_cons, List.append_assoc, List.singleton_append]

end SourceMap

/-- A walk finds the instructions among the statements, in their order. -/
theorem FlatWalk.map_tag_foldl_step (walk : FlatWalk) (statements : List Statement) :
    (statements.foldl step walk).instructions.map MapEntry.tag =
      walk.instructions.map MapEntry.tag ++
        (statements.filter Statement.isInstruction).map Statement.tag := by
  induction statements generalizing walk with
  | nil => simp
  | cons s statements ih =>
      rw [List.foldl_cons, ih, List.filter_cons]
      cases hs : s.isInstruction with
      | false => rw [step_instructions hs, if_neg Bool.false_ne_true]
      | true =>
          obtain ⟨tag, mnemonic, operand, rfl⟩ := Statement.eq_of_isInstruction hs
          simp [step, Statement.tag]

/-- Whatever a session was asked for before, and whatever files were included: if it assembles, the
entries of the source map have the places of the instructions, one for each and in their order.  Its
lines can be found and lead to the instructions, and it lists the units under their numbers.  The
statements that are in one unit are the statements of its text, or none if it was not read; their
places increase. -/
theorem source_map_leads_to_instructions (searchPaths : List String) (calls : List Call)
    (output : Output)
    (h : ((Session.start searchPaths).after calls).assemble.2 = .ok output) :
    let session := (Session.start searchPaths).after calls
    let instructions := session.statements.filter Statement.isInstruction
    output.mapEntries.map MapEntry.tag = instructions.map Statement.tag ∧
    (∃ map, output.sourceMap session.units = .ok map ∧
      map.entries.map SourceMap.Line.entry = output.mapEntries ∧
      List.Forall₂ (fun line s => line.LeadsTo session.units s) map.entries instructions ∧
      ∀ (id : Nat) (unit : SourceUnit), session.units[id]? = some unit →
        map.units[id]? = some (id, unit.name)) ∧
    (∀ (id : Nat) (unit : SourceUnit), session.units[id]? = some unit →
      session.statements.filter (isIn id) = [] ∨
        parse id unit.text = .ok (session.statements.filter (isIn id))) ∧
    session.statements.Pairwise Precedes := by
  intro session instructions
  have haccounted : session.Accounted := (Session.start_accounted searchPaths).after calls
  have hcovered := ((Session.Reachable.start searchPaths).after calls).covered
  obtain ⟨program, hbuild, hlayout, -, -, hprogram⟩ := Session.assemble_ok h
  obtain ⟨hentries, -⟩ := Program.layout_eq_across hcovered hbuild hlayout
  have htags : output.mapEntries.map MapEntry.tag = instructions.map Statement.tag := by
    rw [Output.mapEntries, hprogram, hentries]
    exact FlatWalk.map_tag_foldl_step .start session.statements
  have hstands : ∀ s ∈ instructions, ∃ id offset unit, session.units[id]? = some unit ∧
      s.StandsAt id unit.text offset := by
    intro s hs
    obtain ⟨hmem, hinstruction⟩ := List.mem_filter.1 hs
    obtain ⟨id, -, hin⟩ := haccounted.placed s hmem
    obtain ⟨unit, hunit, hparse⟩ := haccounted.parse_eq_ok hmem hin
    obtain ⟨offset, hoffset⟩ :=
      standsAt_of_parse hparse (List.mem_filter.2 ⟨hmem, hin⟩) hinstruction
    exact ⟨id, offset, unit, hunit, hoffset⟩
  refine ⟨htags, ?_, haccounted.parsed, haccounted.pairwise_precedes⟩
  obtain ⟨lines, hlines, hmade, hleads⟩ := SourceMap.locateAll_of_standsAt [] hstands htags
  refine ⟨⟨session.units.names, lines⟩, ?_, hmade, hleads, fun id unit hunit =>
    (Units.numbered hunit).2⟩
  rw [Output.sourceMap, SourceMap.ofEntries, hlines]
  rfl

/-- A working directory with a file that includes another one twice. -/
def repeatingTree : FileTree :=
  let file (text : String) : FileEntry := .file (text.toList.map fun c => c.toNat.toUInt8)
  ⟨[(["w", "main.s"], file "nop\n.include \"part.inc\"\n.include \"part.inc\"\n RTS"),
    (["w", "part.inc"], file "\nLda #1")], ["w"]⟩

/-- The calls: a text that includes a file that is missing, and then the file. -/
def repeatingCalls : List Call :=
  [.addText repeatingTree inputName ".include \"other.inc\"".toList,
    .addFile repeatingTree "main.s"]

/-- The file that is included twice is two units, and the text of the failed call is one without
statements. -/
theorem repeated_inclusion_mapped :
    ∃ output map, ((Session.start []).after repeatingCalls).assemble.2 = .ok output ∧
      output.sourceMap ((Session.start []).after repeatingCalls).units = .ok map ∧
      map.units = [(0, inputName), (1, "main.s"), (2, "/w/part.inc"), (3, "/w/part.inc")] ∧
      map.entries = [⟨1, 0, 1, 0⟩, ⟨2, 1, 2, 1⟩, ⟨3, 1, 2, 3⟩, ⟨1, 45, 4, 5⟩] ∧
      List.Forall₂ (fun line s => line.LeadsTo ((Session.start []).after repeatingCalls).units s)
        map.entries
        (((Session.start []).after repeatingCalls).statements.filter Statement.isInstruction) := by
  have hrun : ((Session.start []).after repeatingCalls).assemble.2.toOption.bind
      (fun output =>
        (output.sourceMap ((Session.start []).after repeatingCalls).units).toOption) =
      some ⟨[(0, inputName), (1, "main.s"), (2, "/w/part.inc"), (3, "/w/part.inc")],
        [⟨1, 0, 1, 0⟩, ⟨2, 1, 2, 1⟩, ⟨3, 1, 2, 3⟩, ⟨1, 45, 4, 5⟩]⟩ := by decide +kernel
  cases hdone : ((Session.start []).after repeatingCalls).assemble.2 with
  | error failure =>
      rw [hdone] at hrun
      cases hrun
  | ok output =>
      obtain ⟨-, ⟨map, hmap, -, hleads, -⟩, -⟩ :=
        source_map_leads_to_instructions [] repeatingCalls output hdone
      rw [hdone] at hrun
      simp only [Except.toOption, Option.bind_some, hmap] at hrun
      cases hrun
      exact ⟨output, _, rfl, hmap, rfl, rfl, hleads⟩

end Asm65
