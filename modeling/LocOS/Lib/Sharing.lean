import Mathlib.Algebra.Order.BigOperators.Group.Finset
import Mathlib.Data.Finset.Lattice.Fold
import Mathlib.Order.Lattice.Nat

/-!
# Sharing — the greedy bound

Parties with work left share a number of servers. A round that keeps every
server at work, or serves everybody there is, takes at least as much from the
total work plus the longest work on the other servers as there are servers.
So greedy service ends in time: the total work and, on all servers but one,
the longest, divided by the number of servers.
-/

namespace Sharing

variable {σ ι β : Type*}

/-- A greedy round: no party comes and no work grows, and the parties served,
as many as there are servers or all of them, end or have less left. -/
structure Serves (live : σ → Finset ι) (work : σ → ι → Nat) (servers : Nat) (s t : σ) :
    Prop where
  subset : live t ⊆ live s
  le : ∀ i ∈ live t, work t i ≤ work s i
  greedy : ∃ served ⊆ live s, (∀ i ∈ served, i ∈ live t → work t i < work s i) ∧
    (servers ≤ served.card ∨ served = live s)

/-- The work of all parties. -/
def total (live : σ → Finset ι) (work : σ → ι → Nat) (s : σ) : Nat := ∑ i ∈ live s, work s i

/-- The longest work of a party. -/
def longest (live : σ → Finset ι) (work : σ → ι → Nat) (s : σ) : Nat := (live s).sup (work s)

/-- What greedy rounds use up. -/
def potential (live : σ → Finset ι) (work : σ → ι → Nat) (servers : Nat) (s : σ) : Nat :=
  total live work s + (servers - 1) * longest live work s

variable {live : σ → Finset ι} {work : σ → ι → Nat} {servers : Nat} {s t : σ}

theorem longest_le (hsub : live t ⊆ live s) (hle : ∀ i ∈ live t, work t i ≤ work s i) :
    longest live work t ≤ longest live work s :=
  Finset.sup_le fun i hi => (hle i hi).trans (Finset.le_sup (f := work s) (hsub hi))

theorem potential_mono (hsub : live t ⊆ live s) (hle : ∀ i ∈ live t, work t i ≤ work s i) :
    potential live work servers t ≤ potential live work servers s := by
  have htotal : total live work t ≤ total live work s :=
    (Finset.sum_le_sum hle).trans (Finset.sum_le_sum_of_subset hsub)
  exact Nat.add_le_add htotal (Nat.mul_le_mul_left _ (longest_le hsub hle))

namespace Serves

/-- Each party served takes one from the total work. -/
theorem total_add_card [DecidableEq ι] (h : Serves live work servers s t)
    (hpos : ∀ i ∈ live s, 1 ≤ work s i) {served : Finset ι} (hserved : served ⊆ live s)
    (hless : ∀ i ∈ served, i ∈ live t → work t i < work s i) :
    total live work t + served.card ≤ total live work s := by
  have hleft : total live work t = ∑ i ∈ live s, if i ∈ live t then work t i else 0 := by
    rw [total, ← Finset.sum_filter]
    congr 1
    ext i
    rw [Finset.mem_filter]
    exact ⟨fun hi => ⟨h.subset hi, hi⟩, fun hi => hi.2⟩
  have hcard : served.card = ∑ i ∈ live s, if i ∈ served then 1 else 0 := by
    rw [← Finset.sum_filter, Finset.filter_mem_eq_inter, Finset.inter_eq_right.mpr hserved,
      Finset.card_eq_sum_ones]
  rw [hleft, hcard, ← Finset.sum_add_distrib, total]
  refine Finset.sum_le_sum fun i hi => ?_
  by_cases ht : i ∈ live t
  · rw [if_pos ht]
    by_cases hs : i ∈ served
    · rw [if_pos hs]
      exact hless i hs ht
    · rw [if_neg hs]
      exact h.le i ht
  · rw [if_neg ht, Nat.zero_add]
    split
    · exact hpos i hi
    · exact Nat.zero_le _

/-- A round that serves everybody shortens the longest work. -/
theorem longest_lt (hpos : ∀ i ∈ live s, 1 ≤ work s i) (hlive : (live s).Nonempty)
    (hsub : live t ⊆ live s) (hless : ∀ i ∈ live s, i ∈ live t → work t i < work s i) :
    longest live work t < longest live work s := by
  obtain ⟨j, hj⟩ := hlive
  have hlongest : 0 < longest live work s :=
    Nat.lt_of_lt_of_le (hpos j hj) (Finset.le_sup (f := work s) hj)
  refine (Finset.sup_lt_iff hlongest).mpr fun i hi => ?_
  exact (hless i (hsub hi) hi).trans_le (Finset.le_sup (f := work s) (hsub hi))

/-- A greedy round uses up as much as there are servers. -/
theorem potential_add [DecidableEq ι] (h : Serves live work servers s t)
    (hpos : ∀ i ∈ live s, 1 ≤ work s i) (hlive : (live s).Nonempty) (hservers : 1 ≤ servers) :
    potential live work servers t + servers ≤ potential live work servers s := by
  obtain ⟨served, hserved, hless, hmany | rfl⟩ := h.greedy
  · have htotal := h.total_add_card hpos hserved hless
    have hlongest := Nat.mul_le_mul_left (servers - 1) (longest_le h.subset h.le)
    unfold potential
    omega
  · have htotal := h.total_add_card hpos hserved hless
    have hcard := hlive.card_pos
    have hlongest := Nat.mul_le_mul_left (servers - 1)
      (longest_lt hpos hlive h.subset hless)
    rw [Nat.mul_succ] at hlongest
    unfold potential
    omega

end Serves

/-- Work that is left leaves a potential of one round at least. -/
theorem servers_le_potential (hpos : ∀ i ∈ live s, 1 ≤ work s i) (hlive : (live s).Nonempty)
    (hservers : 1 ≤ servers) : servers ≤ potential live work servers s := by
  obtain ⟨j, hj⟩ := hlive
  have htotal : work s j ≤ total live work s :=
    Finset.single_le_sum (f := work s) (fun _ _ => Nat.zero_le _) hj
  have hlongest : 1 ≤ longest live work s := (hpos j hj).trans (Finset.le_sup (f := work s) hj)
  have hmul := Nat.mul_le_mul_left (servers - 1) hlongest
  have hone := hpos j hj
  unfold potential
  omega

section
variable {round : σ → β → σ} (I : σ → Prop) (hpos : ∀ s, I s → ∀ i ∈ live s, 1 ≤ work s i)
  (hkeep : ∀ s b, I s → I (round s b))
  (hserves : ∀ s b, I s → Serves live work servers s (round s b))
include hkeep hserves

theorem live_foldl_subset (bs : List β) {s : σ} (h : I s) :
    I (bs.foldl round s) ∧ live (bs.foldl round s) ⊆ live s := by
  induction bs generalizing s with
  | nil => exact ⟨h, Finset.Subset.refl _⟩
  | cons b bs ih =>
      obtain ⟨hI, hsub⟩ := ih (hkeep s b h)
      exact ⟨hI, hsub.trans (hserves s b h).subset⟩

include hpos

/-- While anybody is left, every round was a greedy one. -/
theorem potential_foldl (hservers : 1 ≤ servers) (bs : List β) {s : σ} (h : I s)
    (hlive : (live (bs.foldl round s)).Nonempty) :
    potential live work servers (bs.foldl round s) + servers * bs.length ≤
      potential live work servers s := by
  classical
  induction bs generalizing s with
  | nil => exact Nat.le_refl _
  | cons b bs ih =>
      have hrest := ih (hkeep s b h) hlive
      have hsub := (live_foldl_subset I hkeep hserves (b :: bs) h).2
      have hround := (hserves s b h).potential_add (hpos s h) (hlive.mono hsub) hservers
      rw [List.length_cons, Nat.mul_succ, List.foldl_cons]
      omega

/-- The greedy bound, over rounds of any kind. -/
theorem all_end_within (hservers : 1 ≤ servers) (bs : List β) {s : σ} (h : I s)
    (hlong : potential live work servers s / servers ≤ bs.length) :
    live (bs.foldl round s) = ∅ := by
  by_contra hleft
  have hlive := Finset.nonempty_iff_ne_empty.mpr hleft
  have hused := potential_foldl I hpos hkeep hserves hservers bs h hlive
  have hend := (live_foldl_subset I hkeep hserves bs h).1
  have hlast := servers_le_potential (hpos _ hend) hlive hservers
  have hdiv := Nat.lt_mul_div_succ (potential live work servers s) hservers
  have hmul := Nat.mul_le_mul_left servers hlong
  rw [Nat.mul_succ] at hdiv
  omega

end

end Sharing
