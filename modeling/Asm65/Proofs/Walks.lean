import Asm65.Program.Walk

/-!
# Walks

What a walk does can be said of its single steps.  A walk keeps what each step keeps; and if a
step, taken again at what it left behind, changes nothing and ends as before, the same holds of
the walk, also of one that stopped on its way.
-/

namespace Asm65

variable {α β σ ε : Type} {step : σ → α → α × Except ε σ}

theorem walkFrom_eq (passed : List α) (state : σ) (items : List α) :
    walkFrom step passed state items =
      (passed.reverse ++ (walk step state items).1, (walk step state items).2) := by
  unfold walk
  induction items generalizing passed state with
  | nil => simp [walkFrom]
  | cons item rest ih =>
      simp only [walkFrom]
      split
      · next left next hstep =>
          rw [ih (left :: passed), ih [left]]
          simp
      · simp [List.reverseAux_eq]

@[simp] theorem walk_nil (state : σ) : walk step state [] = ([], .ok state) :=
  rfl

theorem walk_cons (state : σ) (item : α) (rest : List α) :
    walk step state (item :: rest) =
      match step state item with
      | (left, .ok next) => (left :: (walk step next rest).1, (walk step next rest).2)
      | (left, .error e) => (left :: rest, .error e) := by
  unfold walk
  rw [walkFrom]
  cases hstep : step state item with
  | mk left outcome =>
      cases outcome with
      | ok next =>
          simp only
          rw [walkFrom_eq]
          rfl
      | error e => rfl

/-- A walk that reaches the end has passed its first item. -/
theorem walk_cons_ok {state last : σ} {item : α} {rest updated : List α}
    (h : walk step state (item :: rest) = (updated, .ok last)) :
    ∃ left next tail, step state item = (left, .ok next) ∧
      walk step next rest = (tail, .ok last) ∧ updated = left :: tail := by
  rw [walk_cons] at h
  split at h
  · next left next hstep =>
      cases hrest : walk step next rest with
      | mk tail outcome =>
          rw [hrest] at h
          cases h
          exact ⟨left, next, tail, hstep, hrest, rfl⟩
  · cases h

/-- A walk that stops has stopped at an item. -/
theorem walk_error {state : σ} {items : List α} {e : ε}
    (h : (walk step state items).2 = .error e) :
    ∃ before, ∃ item ∈ items, (step before item).2 = .error e := by
  induction items generalizing state with
  | nil => cases h
  | cons item rest ih =>
      rw [walk_cons] at h
      split at h
      · obtain ⟨before, found, hfound, hstep⟩ := ih h
        exact ⟨before, found, List.mem_cons_of_mem item hfound, hstep⟩
      · next left e' hstep =>
          cases h
          exact ⟨state, item, List.mem_cons_self, by rw [hstep]⟩

/-! ## What a walk keeps -/

/-- A walk keeps what is seen of each item, if its steps do. -/
theorem map_walk {view : α → β} (hstep : ∀ state item, view (step state item).1 = view item)
    (state : σ) (items : List α) : (walk step state items).1.map view = items.map view := by
  induction items generalizing state with
  | nil => rfl
  | cons item rest ih =>
      have hitem := hstep state item
      rw [walk_cons]
      split
      · next left next hleft =>
          rw [hleft] at hitem
          rw [List.map_cons, List.map_cons, hitem, ih next]
      · next left e hleft =>
          rw [hleft] at hitem
          rw [List.map_cons, List.map_cons, hitem]

@[simp] theorem length_walk (state : σ) (items : List α) :
    (walk step state items).1.length = items.length := by
  have hmap := @map_walk α Unit σ ε step (fun _ => ()) (fun _ _ => rfl) state items
  simpa using congrArg List.length hmap

/-- A walk keeps a property of all items, if its steps do. -/
theorem forall_mem_walk {good : α → Prop}
    (hstep : ∀ state item, good item → good (step state item).1) {state : σ} {items : List α}
    (hitems : ∀ item ∈ items, good item) : ∀ item ∈ (walk step state items).1, good item := by
  induction items generalizing state with
  | nil => exact hitems
  | cons item rest ih =>
      obtain ⟨hitem, hrest⟩ := List.forall_mem_cons.1 hitems
      have hleft := hstep state item hitem
      rw [walk_cons]
      split
      · next left next hpassed =>
          rw [hpassed] at hleft
          exact List.forall_mem_cons.2 ⟨hleft, ih hrest⟩
      · next left e hstopped =>
          rw [hstopped] at hleft
          exact List.forall_mem_cons.2 ⟨hleft, hrest⟩

/-- A walk that reaches the end and changes nothing has steps that change nothing. -/
theorem step_of_walk_fixed {state last : σ} {items : List α}
    (h : walk step state items = (items, .ok last)) :
    ∀ item ∈ items, ∃ before after, step before item = (item, .ok after) := by
  induction items generalizing state with
  | nil => nofun
  | cons item rest ih =>
      obtain ⟨left, next, tail, hstep, hrest, hlists⟩ := walk_cons_ok h
      obtain ⟨rfl, rfl⟩ := List.cons.inj hlists
      exact List.forall_mem_cons.2 ⟨⟨state, next, hstep⟩, ih hrest⟩

/-! ## Walks taken again -/

/-- A walk over what a walk has left changes nothing and ends as that walk did, if this holds of
single steps. -/
theorem walk_walk (hstep : ∀ state item, step state (step state item).1 = step state item)
    (state : σ) (items : List α) :
    walk step state (walk step state items).1 = walk step state items := by
  induction items generalizing state with
  | nil => rfl
  | cons item rest ih =>
      have hitem := hstep state item
      cases hleft : step state item with
      | mk left outcome =>
          rw [hleft] at hitem
          cases outcome with
          | ok next => simp only [walk_cons, hleft, hitem, ih next]
          -- the walk stopped here, and the items behind it are still as they were
          | error e => simp only [walk_cons, hleft, hitem]

/-- A walk that changes nothing ends the same way over items that look the same to its steps, and
does not change these either. -/
theorem walk_eq_of_map_eq {view : α → β}
    (hstep : ∀ state x y outcome, view x = view y → step state x = (x, outcome) →
      step state y = (y, outcome))
    {state : σ} {xs ys : List α} {outcome : Except ε σ} (hview : xs.map view = ys.map view)
    (h : walk step state xs = (xs, outcome)) : walk step state ys = (ys, outcome) := by
  induction xs generalizing state ys with
  | nil =>
      obtain rfl := List.map_eq_nil_iff.1 hview.symm
      exact h
  | cons x xs ih =>
      obtain ⟨y, ys, rfl, hy, hys⟩ := List.map_eq_cons_iff.1 hview.symm
      rw [walk_cons] at h ⊢
      split at h
      · next left next hx =>
          obtain ⟨hlists, hlast⟩ := Prod.mk.inj h
          obtain ⟨rfl, hxs⟩ := List.cons.inj hlists
          have hrest := ih hys.symm (Prod.ext hxs hlast : walk step next xs = (xs, outcome))
          simp only [hstep _ _ _ _ hy.symm hx, hrest]
      · next left e hx =>
          obtain ⟨hlists, rfl⟩ := Prod.mk.inj h
          obtain ⟨rfl, -⟩ := List.cons.inj hlists
          simp only [hstep _ _ _ _ hy.symm hx]

end Asm65
