/-!
# Walking a list under a running state

A walk goes through a list from the left, updates each item and carries a state along.  It may
stop: the items before the stop stay updated, the item at the stop is as its step left it, and
the items after it are untouched.
-/

namespace Asm65

universe u v w

variable {α : Type u} {σ : Type v} {ε : Type w}

/-- A walk over a list; `passed` holds the updated items so far, newest first. -/
def walkFrom (step : σ → α → α × Except ε σ) (passed : List α) (state : σ) :
    List α → List α × Except ε σ
  | [] => (passed.reverse, .ok state)
  | item :: rest =>
      match step state item with
      | (left, .ok next) => walkFrom step (left :: passed) next rest
      | (left, .error e) => (passed.reverseAux (left :: rest), .error e)

/-- A walk over a list. -/
def walk (step : σ → α → α × Except ε σ) (state : σ) (items : List α) : List α × Except ε σ :=
  walkFrom step [] state items

end Asm65
