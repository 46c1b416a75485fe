import Asm65.File.Tree

/-!
# Paths and their texts

The names in a path have no slashes in them, and none is empty or a dot; so a path can be read back
from its text.  The text of the path behind a suffix is the text with the suffix behind it.
-/

namespace Asm65

/-- No piece of a list that is split has the separator in it. -/
theorem not_mem_of_mem_splitOn {α : Type} [DecidableEq α] {separator : α} {xs : List α} :
    ∀ piece ∈ xs.splitOn separator, separator ∉ piece := by
  unfold List.splitOn
  induction xs with
  | nil => simp
  | cons x xs ih =>
      rw [List.splitOnP_cons_eq_if_modifyHead]
      split
      · exact List.forall_mem_cons.2 ⟨List.not_mem_nil, ih⟩
      · next hx =>
          cases hpieces : xs.splitOnP (· == separator) with
          | nil => simp
          | cons piece pieces =>
              rw [hpieces] at ih
              obtain ⟨hpiece, hpieces⟩ := List.forall_mem_cons.1 ih
              refine List.forall_mem_cons.2 ⟨?_, hpieces⟩
              rw [List.mem_cons, not_or]
              exact ⟨fun h => hx (by simp [← h]), hpiece⟩

theorem splitOn_cons_self {α : Type} [DecidableEq α] (separator : α) (xs : List α) :
    (separator :: xs).splitOn separator = [] :: xs.splitOn separator := by
  rw [List.splitOn, List.splitOnP_cons_eq_if_modifyHead, if_pos (beq_self_eq_true separator)]
  rfl

theorem map_ofList_toList (names : List String) :
    (names.map String.toList).map String.ofList = names := by
  have hsame : String.ofList ∘ String.toList = id := funext fun _ => String.ofList_toList
  rw [List.map_map, hsame, List.map_id]

/-- What stands behind the last part stands behind the whole. -/
theorem intercalate_append_last {α : Type} (separator : List α) (front : List (List α))
    (last more : List α) :
    separator.intercalate (front ++ [last ++ more]) =
      separator.intercalate (front ++ [last]) ++ more := by
  induction front with
  | nil => simp [List.intercalate]
  | cons part front ih =>
      cases front with
      | nil => simp [List.intercalate]
      | cons second front =>
          simp only [List.cons_append, List.intercalate_cons_cons] at ih ⊢
          rw [ih, List.append_assoc, List.append_assoc, List.append_assoc]

/-- The names between the slashes are what the characters between them spell. -/
theorem pathComponents_eq (text : String) :
    pathComponents text = (text.toList.splitOn '/').map String.ofList := by
  let step (c : Char) (found : List Char × List String) : List Char × List String :=
    if c == '/' then ([], String.ofList found.1 :: found.2) else (c :: found.1, found.2)
  have hstep (cs : List Char) : cs.splitOn '/' =
      (cs.foldr step ([], [])).1 :: (cs.foldr step ([], [])).2.map String.toList := by
    induction cs with
    | nil => rfl
    | cons c cs ih =>
        rw [List.splitOn] at ih ⊢
        rw [List.splitOnP_cons_eq_if_modifyHead, ih, List.foldr_cons]
        generalize cs.foldr step ([], []) = found
        by_cases hc : (c == '/') = true
        · simp only [step, if_pos hc, List.map_cons, String.toList_ofList]
        · simp only [step, if_neg hc, List.modifyHead_cons]
  rw [hstep, List.map_cons, map_ofList_toList]
  rfl

namespace Path

/-- What is kept as a name when a path text is read. -/
def IsName (name : String) : Prop :=
  '/' ∉ name.toList ∧ name ≠ "" ∧ name ≠ "."

/-- A path whose names can be read back. -/
def WellFormed (p : Path) : Prop :=
  ∀ name ∈ p.names, IsName name

theorem ofText_wellFormed (text : String) : (ofText text).WellFormed := by
  intro name hname
  obtain ⟨hmem, hkept⟩ := List.mem_filter.1 hname
  rw [pathComponents_eq] at hmem
  obtain ⟨piece, hpiece, rfl⟩ := List.mem_map.1 hmem
  have hslash := not_mem_of_mem_splitOn piece hpiece
  simp only [Bool.and_eq_true, bne_iff_ne, ne_eq] at hkept
  exact ⟨by rwa [String.toList_ofList], hkept.1, hkept.2⟩

theorem rootOf_append {c : Char} (hc : c ≠ '/') (root : PathRoot) (rest : List Char) :
    rootOf (root.text.toList ++ c :: rest) = root := by
  cases root <;> simp [rootOf, PathRoot.text, hc]

theorem IsName.exists_cons {name : String} (h : IsName name) :
    ∃ c rest, name.toList = c :: rest ∧ c ≠ '/' := by
  obtain ⟨hslash, hempty, -⟩ := h
  cases hchars : name.toList with
  | nil => exact absurd (String.toList_eq_nil_iff.1 hchars) hempty
  | cons c rest =>
      refine ⟨c, rest, rfl, ?_⟩
      rintro rfl
      exact hslash (hchars ▸ List.mem_cons_self)

/-- A path is read back from its text. -/
theorem ofText_text {p : Path} (h : p.WellFormed) : ofText p.text = p := by
  obtain ⟨root, names⟩ := p
  cases names with
  | nil => cases root <;> decide
  | cons name names =>
      have hchars : (text ⟨root, name :: names⟩).toList =
          root.text.toList ++ ['/'].intercalate ((name :: names).map String.toList) := by
        simp [text, String.toList_intercalate]
      have hsplit : (['/'].intercalate ((name :: names).map String.toList)).splitOn '/' =
          (name :: names).map String.toList := by
        refine List.splitOn_intercalate '/' ?_ (by simp)
        intro chars hmem
        obtain ⟨part, hpart, rfl⟩ := List.mem_map.1 hmem
        exact (h part hpart).1
      have hroot : rootOf (text ⟨root, name :: names⟩).toList = root := by
        obtain ⟨c, rest, hname, hc⟩ := (h name List.mem_cons_self).exists_cons
        rw [hchars]
        cases names with
        | nil => simpa [List.intercalate, hname] using rootOf_append hc root rest
        | cons second names =>
            rw [List.map_cons, List.map_cons, List.intercalate_cons_cons, hname]
            exact rootOf_append hc root _
      have hkept : (name :: names).filter (fun part => part != "" && part != ".") =
          name :: names := by
        refine List.filter_eq_self.2 fun part hpart => ?_
        obtain ⟨-, hempty, hdot⟩ := h part hpart
        simp [hempty, hdot]
      have hnames : (pathComponents (text ⟨root, name :: names⟩)).filter
          (fun part => part != "" && part != ".") = name :: names := by
        rw [pathComponents_eq, hchars]
        -- each slash in front adds an empty name, which is not kept
        cases root with
        | relative =>
            rw [show PathRoot.relative.text.toList = [] from rfl, List.nil_append, hsplit,
              map_ofList_toList, hkept]
        | slash =>
            rw [show PathRoot.slash.text.toList = ['/'] from rfl, List.singleton_append,
              splitOn_cons_self, hsplit, List.map_cons, map_ofList_toList]
            exact hkept
        | doubleSlash =>
            rw [show PathRoot.doubleSlash.text.toList = ['/', '/'] from rfl, List.cons_append,
              List.singleton_append, splitOn_cons_self, splitOn_cons_self, hsplit, List.map_cons,
              List.map_cons, map_ofList_toList]
            exact hkept
      rw [ofText, hroot, hnames]

/-- The text behind which a suffix was put. -/
theorem text_of_withSuffix {p q : Path} {suffix : String} (h : p.withSuffix suffix = .ok q) :
    q.text = p.text ++ suffix := by
  unfold withSuffix at h
  split at h
  · cases h
  · next name hlast =>
      cases h
      obtain ⟨front, hfront⟩ := List.getLast?_eq_some_iff.1 hlast
      have hjoin : String.intercalate "/" (front ++ [name ++ suffix]) =
          String.intercalate "/" (front ++ [name]) ++ suffix := by
        apply String.toList_inj.1
        simp only [String.toList_append, String.toList_intercalate, List.map_append, List.map_cons,
          List.map_nil]
        exact intercalate_append_last _ _ _ _
      simp [text, hfront, hjoin, String.append_assoc]

theorem IsName.text_ofText {name : String} (h : IsName name) : (ofText name).text = name := by
  have hsingle : text ⟨.relative, [name]⟩ = name := by simp [text, PathRoot.text]
  have hback := @ofText_text ⟨.relative, [name]⟩ (List.forall_mem_singleton.2 h)
  rw [hsingle] at hback
  rw [hback, hsingle]

end Path

namespace FileTree

variable {tree : FileTree}

theorem follow_of_long {name : String} (hname : name ≠ "" ∧ name ≠ "." ∧ name ≠ "..")
    (hlong : nameLimit < name.utf8ByteSize) (rest : List String) :
    tree.follow tree.workDir (name :: rest) = .error .tooLong := by
  have hdirectory : tree.entry? tree.workDir = some .directory := by
    unfold entry?
    rw [if_pos (List.isPrefixOf_iff_prefix.2 (List.prefix_refl _))]
  obtain ⟨hempty, hdot, hdots⟩ := hname
  simp only [follow, hdirectory, hempty, hdot, hdots, or_self, if_false, if_pos hlong]

/-- A name that is too long is not looked up. -/
theorem locateFile_of_long {name : String} (hslash : '/' ∉ name.toList)
    (hnull : '\x00' ∉ name.toList) (hlong : nameLimit < name.utf8ByteSize) :
    tree.locateFile name = .error (.nameTooLong name) := by
  have hother (short : String) (hshort : short.utf8ByteSize ≤ nameLimit) : name ≠ short := by
    rintro rfl
    omega
  have hempty : name ≠ "" := hother "" (by decide)
  have hstart : tree.startOf name = tree.workDir := by
    refine if_neg fun hhead => hslash ?_
    exact List.mem_of_head? hhead
  have hlocate : tree.locate name = .error .tooLong := by
    rw [locate, textObstacle?, if_neg (by simpa using hnull), if_neg hempty]
    by_cases hpath : name.utf8ByteSize > pathLimit
    · rw [if_pos hpath]
    · rw [if_neg hpath, hstart, pathComponents_eq, List.splitOn_eq_singleton hslash]
      rw [List.map_singleton, String.ofList_toList]
      exact follow_of_long ⟨hempty, hother "." (by decide), hother ".." (by decide)⟩ hlong []
  rw [locateFile, hlocate]

end FileTree

end Asm65
