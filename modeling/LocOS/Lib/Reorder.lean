import Mathlib.Data.List.Perm.Basic

/-!
# Reorder — folds of steps that commute

A fold over a list of steps gives the same result in every order, up to a
relation the steps respect, when neighbours commute. The invariant may speak
of the steps still to come, as long as it does not depend on their order.
-/

namespace Reorder

variable {σ α : Type*} {step : σ → α → σ} {R : σ → σ → Prop}

/-- Steps that respect a relation, one after the other. -/
theorem foldl_congr (hstep : ∀ a s t, R s t → R (step s a) (step t a)) (l : List α) {s t : σ}
    (h : R s t) : R (l.foldl step s) (l.foldl step t) := by
  induction l generalizing s t with
  | nil => exact h
  | cons a l ih => exact ih (hstep a s t h)

/-- The order of the steps does not matter. -/
theorem foldl_perm (hrefl : ∀ s, R s s) (htrans : ∀ s t u, R s t → R t u → R s u)
    (hstep : ∀ a s t, R s t → R (step s a) (step t a)) {I : List α → σ → Prop}
    (hperm : ∀ l l' s, l.Perm l' → I l s → I l' s)
    (hkeep : ∀ a l s, I (a :: l) s → I l (step s a))
    (hswap : ∀ a b l s, I (a :: b :: l) s → R (step (step s a) b) (step (step s b) a))
    {l l' : List α} (h : l.Perm l') {s : σ} (hI : I l s) :
    R (l.foldl step s) (l'.foldl step s) := by
  induction h generalizing s with
  | nil => exact hrefl s
  | cons a _ ih => exact ih (hkeep _ _ _ hI)
  | swap a b l => exact foldl_congr hstep l (hswap b a l s hI)
  | trans h _ ih ih' => exact htrans _ _ _ (ih hI) (ih' (hperm _ _ _ h hI))

end Reorder
