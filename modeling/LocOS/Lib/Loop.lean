import Mathlib.Data.List.Basic
import Mathlib.Logic.Function.Basic

/-!
# Loop — counted loops over a state

A counted `for` loop is a structural recursion on its bound: `up` runs the
body at `0, 1, .., n-1`, `down` at `n-1, .., 1, 0`. The invariant rules carry
a predicate indexed by the counter, so a loop is verified by one step.
-/

namespace Loop

variable {σ : Type*}

/-- `for (i = 0; i < n; i++) body(i)`. -/
def up (body : Nat → σ → σ) : Nat → σ → σ
  | 0, s => s
  | n + 1, s => body n (up body n s)

/-- `for (i = n - 1; i >= 0; i--) body(i)`. -/
def down (body : Nat → σ → σ) : Nat → σ → σ
  | 0, s => s
  | n + 1, s => down body n (body n s)

@[simp] theorem up_zero (body : Nat → σ → σ) (s : σ) : up body 0 s = s := rfl

@[simp] theorem up_succ (body : Nat → σ → σ) (n : Nat) (s : σ) :
    up body (n + 1) s = body n (up body n s) := rfl

@[simp] theorem down_zero (body : Nat → σ → σ) (s : σ) : down body 0 s = s := rfl

@[simp] theorem down_succ (body : Nat → σ → σ) (n : Nat) (s : σ) :
    down body (n + 1) s = down body n (body n s) := rfl

/-- The invariant rule of an upward loop: `P i` holds before the body runs
at `i`. -/
theorem up_inv {body : Nat → σ → σ} {n : Nat} {s : σ} (P : Nat → σ → Prop)
    (h0 : P 0 s) (hstep : ∀ i t, i < n → P i t → P (i + 1) (body i t)) :
    P n (up body n s) := by
  induction n with
  | zero => exact h0
  | succ n ih =>
      exact hstep n _ (Nat.lt_succ_self n)
        (ih fun i t hi => hstep i t (Nat.lt_succ_of_lt hi))

/-- A counted loop is a fold over the counter's values. -/
theorem up_eq_foldl (body : Nat → σ → σ) (n : Nat) (s : σ) :
    up body n s = (List.range n).foldl (fun s i => body i s) s := by
  induction n with
  | zero => rfl
  | succ n ih =>
      rw [up_succ, ih, List.range_succ, List.foldl_append]
      rfl

/-- The invariant rule of a downward loop: `P i` holds when `i` iterations
remain. -/
theorem down_inv {body : Nat → σ → σ} {n : Nat} {s : σ} (P : Nat → σ → Prop)
    (h0 : P n s) (hstep : ∀ i t, i < n → P (i + 1) t → P i (body i t)) :
    P 0 (down body n s) := by
  induction n generalizing s with
  | zero => exact h0
  | succ n ih =>
      exact ih (hstep n s (Nat.lt_succ_self n) h0)
        fun i t hi => hstep i t (Nat.lt_succ_of_lt hi)

/-- A predicate every iteration keeps survives a fold over a list. -/
theorem foldl_inv {α : Type*} {body : σ → α → σ} {l : List α} {s : σ}
    (P : σ → Prop) (h0 : P s) (hstep : ∀ a ∈ l, ∀ t, P t → P (body t a)) :
    P (l.foldl body s) := by
  induction l generalizing s with
  | nil => exact h0
  | cons a l ih =>
      exact ih (hstep a (by simp) s h0) fun b hb => hstep b (by simp [hb])

/-- The invariant rule of a fold that keeps the elements still to come. -/
theorem foldl_rest_inv {α : Type*} {body : σ → α → σ} {l : List α} {s : σ}
    (P : List α → σ → Prop) (h0 : P l s)
    (hstep : ∀ a rest t, (a :: rest) <:+ l → P (a :: rest) t → P rest (body t a)) :
    P [] (l.foldl body s) := by
  induction l generalizing s with
  | nil => exact h0
  | cons a l ih =>
      exact ih (hstep a l s List.suffix_rfl h0)
        fun b rest t hsuf => hstep b rest t (hsuf.trans (List.suffix_cons a l))

/-- Stores at the consecutive addresses `a, a+1, .., a+n-1`, one an
iteration, leave every other address alone. -/
theorem up_update {α : Type*} (f : Nat → α) (a n : Nat) (m : Nat → α) (x : Nat) :
    up (fun i t => Function.update t (a + i) (f i)) n m x =
      if a ≤ x ∧ x < a + n then f (x - a) else m x := by
  induction n with
  | zero => rw [up_zero, if_neg (by omega)]
  | succ n ih =>
      rw [up_succ]
      by_cases hx : x = a + n
      · subst hx
        simp
      · rw [Function.update_of_ne hx, ih]
        by_cases hin : a ≤ x ∧ x < a + n
        · rw [if_pos hin, if_pos ⟨hin.1, by omega⟩]
        · rw [if_neg hin, if_neg fun h => hin ⟨h.1, by omega⟩]

/-- A loop on a record, seen through one of its fields. -/
theorem up_map {τ : Type*} (π : σ → τ) {body : Nat → σ → σ} (body' : Nat → τ → τ)
    (h : ∀ i s, π (body i s) = body' i (π s)) (n : Nat) (s : σ) :
    π (up body n s) = up body' n (π s) := by
  induction n with
  | zero => rfl
  | succ n ih => rw [up_succ, up_succ, h, ih]

/-- A field no iteration writes. -/
theorem up_const {τ : Type*} (π : σ → τ) {body : Nat → σ → σ}
    (h : ∀ i s, π (body i s) = π s) (n : Nat) (s : σ) : π (up body n s) = π s := by
  induction n with
  | zero => rfl
  | succ n ih => rw [up_succ, h, ih]

theorem length_up_shift {α : Type*} (d : α) (k n : Nat) (l : List α) :
    (up (fun i t => t.set (k + i) (t.getD (k + i + 1) d)) n l).length = l.length :=
  up_const List.length (fun _ _ => List.length_set ..) n l

/-- What every slot and the value behind the last one are, every slot stays. -/
theorem forall_mem_up_shift {α : Type*} {P : α → Prop} {d : α} (hd : P d) (k n : Nat) {l : List α}
    (h : ∀ a ∈ l, P a) : ∀ a ∈ up (fun i t => t.set (k + i) (t.getD (k + i + 1) d)) n l, P a := by
  refine up_inv (fun _ t => ∀ a ∈ t, P a) h fun i t _ ht a ha => ?_
  rcases List.mem_or_eq_of_mem_set ha with ha | rfl
  · exact ht a ha
  · rw [List.getD_eq_getElem?_getD]
    cases hget : t[k + i + 1]? with
    | none => exact hd
    | some b => exact ht b (List.mem_of_getElem? hget)

/-- Slots the loop has not reached hold what they held. -/
theorem getElem?_up_combine_of_le {α : Type*} (f : α → α → α) (d : α) (k n : Nat) (l : List α)
    {j : Nat} (hj : k + n ≤ j) :
    (up (fun i t => t.modify (k + i) fun a => f a (t.getD (k + i + 1) d)) n l)[j]? = l[j]? := by
  induction n with
  | zero => rfl
  | succ n ih => rw [up_succ, List.getElem?_modify_ne _ _ (by omega), ih (by omega)]

/-- The gap-closing loop that copies only a part of the next slot. -/
theorem getElem?_up_combine {α : Type*} (f : α → α → α) (d : α) (k n : Nat) (l : List α)
    (hn : k + n < l.length) (j : Nat) :
    (up (fun i t => t.modify (k + i) fun a => f a (t.getD (k + i + 1) d)) n l)[j]? =
      if k ≤ j ∧ j < k + n then (l[j]?).bind fun a => (l[j + 1]?).map (f a) else l[j]? := by
  induction n with
  | zero => rw [up_zero, if_neg (by omega)]
  | succ n ih =>
      have ih := ih (by omega)
      rw [up_succ]
      by_cases hj : k + n = j
      · subst hj
        have hnext : l[k + n + 1]? = some l[k + n + 1] := List.getElem?_eq_getElem (by omega)
        rw [List.getElem?_modify_eq, List.getD_eq_getElem?_getD,
          getElem?_up_combine_of_le f d k n l (by omega),
          getElem?_up_combine_of_le f d k n l (by omega), if_pos (by omega), hnext]
        cases l[k + n]? <;> rfl
      · rw [List.getElem?_modify_ne _ _ hj, ih]
        by_cases hin : k ≤ j ∧ j < k + n
        · rw [if_pos hin, if_pos (by omega)]
        · rw [if_neg hin, if_neg (by omega)]

/-- The gap-closing loop `for (i = k; i < k + n; i++) l[i] = l[i + 1]`. -/
theorem getElem?_up_shift {α : Type*} (d : α) (k n : Nat) (l : List α)
    (hn : k + n < l.length) (j : Nat) :
    (up (fun i t => t.set (k + i) (t.getD (k + i + 1) d)) n l)[j]? =
      if k ≤ j ∧ j < k + n then l[j + 1]? else l[j]? := by
  simp only [List.set_eq_modify]
  rw [getElem?_up_combine (fun _ b => b) d k n l hn j]
  by_cases hj : k ≤ j ∧ j < k + n
  · rw [if_pos hj, if_pos hj, List.getElem?_eq_getElem (by omega : j < l.length), Option.bind_some,
      Option.map_id']
  · rw [if_neg hj, if_neg hj]

/-- The gap-closing step: what a cleared slot hides wanders up by one. -/
theorem filterMap_set_modify {α β : Type*} (g : α → Option β) {c : α → α}
    (hc : ∀ a, g (c a) = none) (d : α) {i : Nat} {l : List α} (hi : i + 1 < l.length) :
    ((l.set i (l.getD (i + 1) d)).modify (i + 1) c).filterMap g = (l.modify i c).filterMap g := by
  induction l generalizing i with
  | nil => simp at hi
  | cons a l ih =>
      cases i with
      | zero =>
          obtain ⟨b, l, rfl⟩ := List.exists_cons_of_length_pos (by simpa using hi)
          simp [List.filterMap_cons, hc]
      | succ i =>
          have hl := ih (by simpa using hi)
          simp only [List.set_cons_succ, List.getD_cons_succ, List.modify_succ_cons,
            List.filterMap_cons, hl]

/-- The gap-closing loop loses what slot `k` holds and nothing else. -/
theorem filterMap_up_shift {α β : Type*} (g : α → Option β) {c : α → α}
    (hc : ∀ a, g (c a) = none) (d : α) (k n : Nat) (l : List α) (hn : k + n < l.length) :
    ((up (fun i t => t.set (k + i) (t.getD (k + i + 1) d)) n l).modify (k + n) c).filterMap g =
      (l.modify k c).filterMap g := by
  induction n with
  | zero => rfl
  | succ n ih =>
      rw [up_succ, ← ih (by omega)]
      exact filterMap_set_modify g hc d (by rw [length_up_shift]; omega)

/-- A component of the state that some elements overwrite keeps the last value
written. -/
theorem foldl_last {α β : Type*} {body : σ → α → σ} (π : σ → β) (p : α → Bool)
    (f : α → Option β)
    (hstep : ∀ s a, π (body s a) = if p a then (f a).getD (π s) else π s) (l : List α) (s : σ) :
    π (l.foldl body s) = ((l.filter p).filterMap f).getLast?.getD (π s) := by
  induction l generalizing s with
  | nil => rfl
  | cons a l ih =>
      rw [List.foldl_cons, ih, hstep, List.filter_cons]
      cases p a with
      | false => rfl
      | true =>
          rw [if_pos rfl, if_pos rfl, List.filterMap_cons]
          cases f a with
          | none => rfl
          | some b => rw [List.getLast?_cons]; rfl

/-! ## Where a fold changes something -/

section
variable {α β : Type*} [DecidableEq β]

/-- The positions, counted from `i`, at which a fold changes what `π` sees. -/
def changes (body : σ → α → σ) (π : σ → β) : Nat → σ → List α → List Nat
  | _, _, [] => []
  | i, s, a :: l =>
      if π (body s a) = π s then changes body π (i + 1) (body s a) l
      else i :: changes body π (i + 1) (body s a) l

theorem le_of_mem_changes {body : σ → α → σ} {π : σ → β} {i : Nat} {s : σ} {l : List α} {j : Nat}
    (h : j ∈ changes body π i s l) : i ≤ j := by
  induction l generalizing i s with
  | nil => cases h
  | cons a l ih =>
      rw [changes] at h
      split at h
      · exact Nat.le_of_succ_le (ih h)
      · rcases List.mem_cons.mp h with rfl | h
        · exact Nat.le_refl _
        · exact Nat.le_of_succ_le (ih h)

/-- A fold that changes nothing under an invariant, up to and including `d`. -/
theorem changes_skip (body : σ → α → σ) (π : σ → β) (P : σ → Prop) {pre : List α} {d : α}
    {s : σ} (h0 : P s) (hpre : ∀ a ∈ pre, ∀ t, P t → P (body t a) ∧ π (body t a) = π t)
    (hd : ∀ t, P t → π (body t d) = π t) (i : Nat) (post : List α) :
    ∃ t, P t ∧ changes body π i s (pre ++ d :: post) =
      changes body π (i + pre.length + 1) (body t d) post := by
  induction pre generalizing s i with
  | nil => exact ⟨s, h0, by rw [List.nil_append, changes, if_pos (hd s h0)]; rfl⟩
  | cons a pre ih =>
      obtain ⟨hP, hπ⟩ := hpre a (by simp) s h0
      obtain ⟨t, ht, he⟩ := ih hP (fun b hb => hpre b (by simp [hb])) (i + 1)
      refine ⟨t, ht, ?_⟩
      rw [List.cons_append, changes, if_pos hπ, he, List.length_cons]
      congr 1
      omega

/-- A fold under an invariant that changes nothing. -/
theorem changes_eq_nil {body : σ → α → σ} {π : σ → β} (P : σ → Prop) {l : List α} {s : σ}
    (h0 : P s) (hstep : ∀ a ∈ l, ∀ t, P t → P (body t a) ∧ π (body t a) = π t) (i : Nat) :
    changes body π i s l = [] := by
  induction l generalizing s i with
  | nil => rfl
  | cons a l ih =>
      obtain ⟨hP, hπ⟩ := hstep a (by simp) s h0
      rw [changes, if_pos hπ]
      exact ih hP (fun b hb => hstep b (by simp [hb])) (i + 1)

end

end Loop
