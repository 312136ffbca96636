import Mathlib.Order.Lattice
import Mathlib.Tactic.Push

/-!
# Least — a scan for the least value with a marker among the values

A scan for the least of `d 0, .., d (n - 1)` that starts from a marker for
"none yet". When the marker is a value `d` can take, the scan forgets a
minimum equal to it. The result is still the first of the least exactly when
no value but the last is the marker, or some value lies below it.
-/

namespace Least

variable {α : Type*} [LinearOrder α]

/-- The least value so far and its position. -/
def scan (mark : α) (d : Nat → α) : Nat → α × Option Nat
  | 0 => (mark, none)
  | n + 1 =>
      let s := scan mark d n
      if s.1 = mark ∨ d n < s.1 then (d n, some n) else s

/-- The scan reads the first `n` values. -/
theorem scan_congr {mark : α} {d d' : Nat → α} {n : Nat} (h : ∀ i, i < n → d i = d' i) :
    scan mark d n = scan mark d' n := by
  induction n with
  | zero => rfl
  | succ n ih =>
      rw [scan, scan, ih fun i hi => h i (Nat.lt_succ_of_lt hi), h n (Nat.lt_succ_self n)]

/-- Position `i` is the first of the least among the first `n`. -/
structure First (d : Nat → α) (n i : Nat) : Prop where
  lt : i < n
  le : ∀ k, k < n → d i ≤ d k
  first : ∀ k, k < i → d i < d k

/-- The marker does no harm among the first `n` values. -/
def MarkHarmless (mark : α) (d : Nat → α) (n : Nat) : Prop :=
  ∀ j, j + 1 < n → d j = mark → ∃ k, k < n ∧ d k < mark

/-- What the scan holds is one of the values. -/
theorem scan_found (mark : α) (d : Nat → α) {n : Nat} (hn : 0 < n) :
    ∃ i, i < n ∧ scan mark d n = (d i, some i) := by
  induction n with
  | zero => exact absurd hn (Nat.lt_irrefl 0)
  | succ n ih =>
      rw [scan]
      split
      · exact ⟨n, Nat.lt_succ_self n, rfl⟩
      · rename_i hkeep
        rcases Nat.eq_zero_or_pos n with rfl | hpos
        · exact absurd (.inl rfl) hkeep
        · obtain ⟨i, hi, he⟩ := ih hpos
          exact ⟨i, Nat.lt_succ_of_lt hi, he⟩

theorem First.of_succ {d : Nat → α} {n i : Nat} (h : First d (n + 1) i) (hi : i < n) :
    First d n i :=
  ⟨hi, fun k hk => h.le k (Nat.lt_succ_of_lt hk), h.first⟩

/-- A next value that is not below leaves the first of the least. -/
theorem First.succ {d : Nat → α} {n i : Nat} (h : First d n i) (hle : d i ≤ d n) :
    First d (n + 1) i where
  lt := Nat.lt_succ_of_lt h.lt
  le := by
    intro k hk
    rcases Nat.lt_succ_iff_lt_or_eq.mp hk with hk | rfl
    · exact h.le k hk
    · exact hle
  first := h.first

/-- A next value below all the others is the first of the least. -/
theorem First.below {d : Nat → α} {n : Nat} (h : ∀ k, k < n → d n < d k) : First d (n + 1) n where
  lt := Nat.lt_succ_self n
  le := by
    intro k hk
    rcases Nat.lt_succ_iff_lt_or_eq.mp hk with hk | rfl
    · exact le_of_lt (h k hk)
    · exact le_refl _
  first := h

/-- A least value that is not the marker lies below every marker there is. -/
theorem First.harmless {mark : α} {d : Nat → α} {n i : Nat} (h : First d n i)
    (hne : d i ≠ mark) : MarkHarmless mark d (n + 1) := by
  intro j hj hdj
  have hle : d i ≤ d j := h.le j (Nat.lt_of_succ_lt_succ hj)
  exact ⟨i, Nat.lt_succ_of_lt h.lt, lt_of_le_of_ne (hdj ▸ hle) hne⟩

/-- After a marker at `j` that nothing undercuts, the harm is undone exactly
by a next value below the marker. -/
theorem markHarmless_succ_iff {mark : α} {d : Nat → α} {n j : Nat} (hj : j < n)
    (hdj : d j = mark) (hleast : ∀ k, k < n → mark ≤ d k) :
    MarkHarmless mark d (n + 1) ↔ d n < mark := by
  constructor
  · intro h
    obtain ⟨k, hk, hlow⟩ := h j (Nat.succ_lt_succ hj) hdj
    rcases Nat.lt_succ_iff_lt_or_eq.mp hk with hk | rfl
    · exact absurd hlow (not_lt.mpr (hleast k hk))
    · exact hlow
  · intro hlow k _ _
    exact ⟨n, Nat.lt_succ_self n, hlow⟩

/-- The scan finds the first of the least exactly when the marker does no
harm. -/
theorem scan_first_iff (mark : α) (d : Nat → α) {n i : Nat} (hn : 0 < n)
    (hscan : scan mark d n = (d i, some i)) : First d n i ↔ MarkHarmless mark d n := by
  induction n generalizing i with
  | zero => exact absurd hn (Nat.lt_irrefl 0)
  | succ n ih =>
      rcases Nat.eq_zero_or_pos n with rfl | hpos
      · obtain rfl : 0 = i := by simpa [scan] using congrArg Prod.snd hscan
        exact iff_of_true (.below fun k hk => absurd hk (Nat.not_lt_zero k))
          fun j hj => absurd hj (by omega)
      obtain ⟨m, hm, hprev⟩ := scan_found mark d hpos
      have hih := ih hpos hprev
      rw [scan, hprev] at hscan
      dsimp only at hscan
      -- a marker at `j` that nothing undercuts: only the next value can
      have hmarked : ∀ j, j < n → d j = mark → (∀ k, k < n → mark ≤ d k) →
          (First d (n + 1) n ↔ MarkHarmless mark d (n + 1)) := by
        intro j hj hdj hleast
        rw [markHarmless_succ_iff hj hdj hleast]
        exact ⟨fun h => hdj ▸ h.first j hj,
          fun h => .below fun k hk => lt_of_lt_of_le h (hleast k hk)⟩
      by_cases hfirst : First d n m
      · split at hscan
        · rename_i htake
          obtain rfl : n = i := by simpa using congrArg Prod.snd hscan
          by_cases hmark : d m = mark
          · exact hmarked m hm hmark fun k hk => hmark ▸ hfirst.le k hk
          · have hlow : d n < d m := htake.resolve_left hmark
            exact iff_of_true (.below fun k hk => lt_of_lt_of_le hlow (hfirst.le k hk))
              (hfirst.harmless hmark)
        · rename_i hkeep
          rw [not_or, not_lt] at hkeep
          obtain rfl : m = i := by simpa using congrArg Prod.snd hscan
          exact iff_of_true (hfirst.succ hkeep.2) (hfirst.harmless hkeep.1)
      · have hbad := mt hih.mpr hfirst
        unfold MarkHarmless at hbad
        push Not at hbad
        obtain ⟨j, hj, hdj, hleast⟩ := hbad
        split at hscan
        · obtain rfl : n = i := by simpa using congrArg Prod.snd hscan
          exact hmarked j (Nat.lt_of_succ_lt hj) hdj hleast
        · rename_i hkeep
          rw [not_or, not_lt] at hkeep
          obtain rfl : m = i := by simpa using congrArg Prod.snd hscan
          refine iff_of_false (fun h => hfirst (h.of_succ hm)) ?_
          rw [markHarmless_succ_iff (Nat.lt_of_succ_lt hj) hdj hleast]
          exact not_lt.mpr (le_trans (hleast m hm) hkeep.2)

/-! ## The scan as a fold -/

/-- The candidate taken after `n` steps is the one the scan is at. -/
theorem foldl_take {β : Type*} (key : β → α) (start : β) (l : List β) (n : Nat)
    (hn : n ≤ l.length) :
    let s := scan (key start) (fun i => key (l.getD i start)) n
    let b := (l.take n).foldl
      (fun b c => if key b = key start ∨ key c < key b then c else b) start
    b = (s.2.map fun i => l.getD i start).getD start ∧ key b = s.1 := by
  induction n with
  | zero => exact ⟨rfl, rfl⟩
  | succ n ih =>
      obtain ⟨hb, hkey⟩ := ih (Nat.le_of_succ_le hn)
      have hget : l[n]? = some (l.getD n start) := by
        rw [List.getD_eq_getElem?_getD, List.getElem?_eq_getElem hn]
        rfl
      dsimp only at hb hkey ⊢
      rw [List.take_add_one, hget, Option.toList_some, List.foldl_append, scan, ← hkey]
      simp only [List.foldl_cons, List.foldl_nil]
      split
      · exact ⟨rfl, rfl⟩
      · exact ⟨hb, hkey⟩

/-- Over candidates none of which has the marker for a key, the fold takes
the first of those with the least key. -/
theorem foldl_first {β : Type*} {key : β → α} {start : β} {l : List β} (hne : l ≠ [])
    (hmark : ∀ c ∈ l, key c ≠ key start) :
    ∃ i, First (fun i => key (l.getD i start)) l.length i ∧
      l.foldl (fun b c => if key b = key start ∨ key c < key b then c else b) start =
        l.getD i start := by
  have hpos : 0 < l.length := List.length_pos_iff.mpr hne
  obtain ⟨i, hi, hscan⟩ := scan_found (key start) (fun i => key (l.getD i start)) hpos
  have hharmless : MarkHarmless (key start) (fun i => key (l.getD i start)) l.length := by
    intro j hj hmarked
    have hmem : l.getD j start ∈ l := by
      rw [List.getD_eq_getElem?_getD, List.getElem?_eq_getElem (Nat.lt_of_succ_lt hj)]
      exact List.getElem_mem _
    exact absurd hmarked (hmark _ hmem)
  have htake := (foldl_take key start l l.length (Nat.le_refl _)).1
  rw [List.take_length, hscan] at htake
  exact ⟨i, (scan_first_iff _ _ hpos hscan).mpr hharmless, htake⟩

end Least
