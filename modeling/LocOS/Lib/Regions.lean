import Mathlib.Order.Interval.Finset.Nat

/-!
# Regions — what a bump pointer hands out

An allocator that only moves its pointer forward keeps no record of what it
gave away. The record is the invariant here: the regions lie one behind the
other below the pointer, so they are disjoint.
-/

/-- A range of words. -/
structure Region where
  base : Nat
  size : Nat
deriving DecidableEq

namespace Region

/-- The words of a region. -/
def words (r : Region) : Finset Nat := Finset.Ico r.base (r.base + r.size)

@[simp] theorem mem_words {r : Region} {x : Nat} :
    x ∈ r.words ↔ r.base ≤ x ∧ x < r.base + r.size := Finset.mem_Ico

theorem disjoint_words {a b : Region} (h : a.base + a.size ≤ b.base) :
    Disjoint a.words b.words := by
  rw [Finset.disjoint_left]
  intro x hxa hxb
  rw [mem_words] at hxa hxb
  omega

end Region

/-- The regions lie one behind the other below `next`. -/
structure Packed (regions : List Region) (next : Nat) : Prop where
  ordered : regions.Pairwise fun a b => a.base + a.size ≤ b.base
  below : ∀ r ∈ regions, r.base + r.size ≤ next

namespace Packed

variable {regions : List Region} {next : Nat}

theorem nil (next : Nat) : Packed [] next := ⟨.nil, fun r hr => by cases hr⟩

/-- The pointer moves over the region it hands out. -/
theorem bump (h : Packed regions next) (size : Nat) :
    Packed (regions ++ [⟨next, size⟩]) (next + size) := by
  constructor
  · rw [List.pairwise_append]
    refine ⟨h.ordered, List.pairwise_singleton _ _, fun a ha b hb => ?_⟩
    obtain rfl := List.mem_singleton.mp hb
    exact h.below a ha
  · intro r hr
    rcases List.mem_append.mp hr with hr | hr
    · exact Nat.le_trans (h.below r hr) (Nat.le_add_right next size)
    · obtain rfl := List.mem_singleton.mp hr
      exact Nat.le_refl _

theorem disjoint (h : Packed regions next) :
    regions.Pairwise fun a b => Disjoint a.words b.words :=
  h.ordered.imp Region.disjoint_words

/-- The regions lie where the pointer has been. -/
theorem words_subset (h : Packed regions next) {limit : Nat} (hnext : next ≤ limit) {r : Region}
    (hr : r ∈ regions) : r.words ⊆ Finset.range limit := by
  intro x hx
  have hbelow := h.below r hr
  rw [Region.mem_words] at hx
  rw [Finset.mem_range]
  omega

end Packed
