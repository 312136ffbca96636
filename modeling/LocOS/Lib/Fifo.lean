import Mathlib.Data.List.Count
import Mathlib.Data.List.Nodup

/-!
# Fifo — histories of a first-in first-out queue

A history is a list of elements put in and taken out. It replays from a
starting queue when every element taken is the head at that moment. While an
element waits, the history can only take out what was before it, once each.
-/

namespace Fifo

variable {α : Type*}

/-- An element put in, or the one taken out. -/
inductive Op (α : Type*) where
  | put (a : α)
  | take (a : α)

/-- The elements taken out, in order. -/
def taken (ops : List (Op α)) : List α :=
  ops.filterMap fun
    | .put _ => none
    | .take a => some a

@[simp] theorem taken_nil : taken ([] : List (Op α)) = [] := rfl

@[simp] theorem taken_put (a : α) (ops : List (Op α)) : taken (.put a :: ops) = taken ops := rfl

@[simp] theorem taken_take (a : α) (ops : List (Op α)) :
    taken (.take a :: ops) = a :: taken ops := rfl

variable [DecidableEq α]

/-- The queue after a history; `none` when something taken was not the head. -/
def replay : List α → List (Op α) → Option (List α)
  | q, [] => some q
  | q, .put a :: ops => replay (q ++ [a]) ops
  | [], .take _ :: _ => none
  | b :: q, .take a :: ops => if b = a then replay q ops else none

@[simp] theorem replay_nil (q : List α) : replay q [] = some q := by
  cases q <;> rfl

@[simp] theorem replay_put (q : List α) (a : α) (ops : List (Op α)) :
    replay q (.put a :: ops) = replay (q ++ [a]) ops := by
  cases q <;> rfl

theorem replay_append (q : List α) (ops ops' : List (Op α)) :
    replay q (ops ++ ops') = (replay q ops).bind fun q' => replay q' ops' := by
  induction ops generalizing q with
  | nil => simp
  | cons op ops ih =>
      cases op with
      | put a => simp [ih]
      | take a =>
          cases q with
          | nil => rfl
          | cons b q =>
              simp only [List.cons_append, replay]
              split
              · exact ih q
              · rfl

/-- An element that waits is passed by nobody: what is taken out meanwhile
stood before it, in that order. -/
theorem replay_waiting {w : α} {before after q : List α} {ops : List (Op α)}
    (h : replay (before ++ w :: after) ops = some q) (hw : w ∉ taken ops) :
    ∃ before' after', before = taken ops ++ before' ∧ q = before' ++ w :: after' := by
  induction ops generalizing before after with
  | nil =>
      rw [replay_nil] at h
      exact ⟨before, after, rfl, (Option.some.inj h).symm⟩
  | cons op ops ih =>
      cases op with
      | put a =>
          rw [replay_put, List.append_assoc] at h
          exact ih h hw
      | take a =>
          rw [taken_take, List.mem_cons, not_or] at hw
          cases before with
          | nil =>
              -- the head is the waiting element itself
              simp only [List.nil_append, replay] at h
              rw [if_neg hw.1] at h
              cases h
          | cons b before =>
              simp only [List.cons_append, replay] at h
              by_cases hb : b = a
              · rw [if_pos hb] at h
                obtain ⟨before', after', hbefore, hq⟩ := ih h hw.2
                exact ⟨before', after', by rw [taken_take, hbefore, hb, List.cons_append], hq⟩
              · rw [if_neg hb] at h
                cases h

/-- While one element waits, no other is taken out twice. -/
theorem count_taken_le {w : α} {q q' : List α} {ops : List (Op α)} (hnd : q.Nodup)
    (h : replay q ops = some q') (hmem : w ∈ q) (hw : w ∉ taken ops) (a : α) :
    (taken ops).count a ≤ 1 := by
  obtain ⟨before, after, rfl⟩ := List.append_of_mem hmem
  obtain ⟨before', _, hbefore, _⟩ := replay_waiting h hw
  have hnd' : before.Nodup := hnd.of_append_left
  rw [hbefore] at hnd'
  exact List.nodup_iff_count_le_one.mp hnd'.of_append_left a

end Fifo
