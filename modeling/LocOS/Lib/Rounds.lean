import Mathlib.Algebra.Order.BigOperators.Group.Finset
import Mathlib.Logic.Function.Iterate

/-!
# Rounds — finite allowances

A map on states, taken again and again, that only ever uses allowances up:
finitely many parties, each with a number of rounds left. If no round adds a
party or raises an allowance, and every round ends some party or lowers its
allowance, all of them end.
-/

namespace Rounds

variable {σ ι : Type*} [DecidableEq ι]

/-- What a round does to the parties `live` and to what they have `left`. -/
structure Uses (live : σ → Finset ι) (left : σ → ι → Nat) (s t : σ) : Prop where
  subset : live t ⊆ live s
  le : ∀ i ∈ live t, left t i ≤ left s i
  lt : live s ≠ ∅ → ∃ i ∈ live s, i ∈ live t → left t i < left s i

/-- The rounds of all parties, one more for each so that its end counts too. -/
def total (live : σ → Finset ι) (left : σ → ι → Nat) (s : σ) : Nat :=
  ∑ i ∈ live s, (left s i + 1)

variable {live : σ → Finset ι} {left : σ → ι → Nat}

theorem Uses.total_lt {s t : σ} (h : Uses live left s t) (hlive : live s ≠ ∅) :
    total live left t < total live left s := by
  obtain ⟨i, hi, hlt⟩ := h.lt hlive
  have hle : ∀ j ∈ live t, left t j + 1 ≤ left s j + 1 := fun j hj =>
    Nat.succ_le_succ (h.le j hj)
  by_cases hmem : i ∈ live t
  · calc ∑ j ∈ live t, (left t j + 1)
        < ∑ j ∈ live t, (left s j + 1) :=
          Finset.sum_lt_sum hle ⟨i, hmem, Nat.succ_lt_succ (hlt hmem)⟩
      _ ≤ ∑ j ∈ live s, (left s j + 1) := Finset.sum_le_sum_of_subset h.subset
  · calc ∑ j ∈ live t, (left t j + 1)
        ≤ ∑ j ∈ live t, (left s j + 1) := Finset.sum_le_sum hle
      _ < ∑ j ∈ live s, (left s j + 1) :=
          Finset.sum_lt_sum_of_subset h.subset hi hmem (Nat.succ_pos _) fun _ _ _ => Nat.zero_le _

/-- All parties end. -/
theorem all_end {round : σ → σ} (I : σ → Prop) (hkeep : ∀ s, I s → I (round s))
    (huses : ∀ s, I s → Uses live left s (round s)) {s : σ} (h : I s) :
    ∃ k, live (round^[k] s) = ∅ := by
  induction hn : total live left s using Nat.strong_induction_on generalizing s with
  | _ n ih =>
      by_cases hlive : live s = ∅
      · exact ⟨0, hlive⟩
      · have hlt := (huses s h).total_lt hlive
        obtain ⟨k, hk⟩ := ih _ (hn ▸ hlt) (hkeep s h) rfl
        exact ⟨k + 1, by rwa [Function.iterate_succ_apply]⟩

end Rounds
