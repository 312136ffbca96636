import Mathlib.Data.List.Nodup
import Mathlib.Data.List.Perm.Basic

/-!
# Split — a list around one position

Writing one position of a list, seen as the list before it, the element and
the list after it: the form in which a write commutes with `flatMap`, `Perm`
and membership.
-/

namespace List

variable {α : Type*}

theorem split_modify {l : List α} {i : Nat} {a : α} (h : l[i]? = some a) :
    ∃ pre post, l = pre ++ a :: post ∧ ∀ f : α → α, l.modify i f = pre ++ f a :: post := by
  induction l generalizing i with
  | nil => simp at h
  | cons b l ih =>
      cases i with
      | zero =>
          obtain rfl : b = a := by simpa using h
          exact ⟨[], l, rfl, fun f => by simp⟩
      | succ i =>
          obtain ⟨pre, post, hl, hmod⟩ := ih (by simpa using h)
          exact ⟨b :: pre, post, by rw [hl]; rfl, fun f => by simp [hmod f]⟩

theorem modify_eq_set_of_getElem? {l : List α} {i : Nat} {a : α} (h : l[i]? = some a)
    (f : α → α) : l.modify i f = l.set i (f a) := by
  have : Inhabited α := ⟨a⟩
  rw [modify_eq_set, h, Option.getD_some]

theorem mem_modify {l : List α} {n : Nat} {f : α → α} {a : α}
    (h : a ∈ l.modify n f) : a ∈ l ∨ ∃ b, a = f b := by
  obtain ⟨i, hi⟩ := getElem?_of_mem h
  rw [getElem?_modify] at hi
  obtain ⟨b, hold, rfl⟩ := Option.map_eq_some_iff.mp hi
  split
  · exact .inr ⟨b, rfl⟩
  · exact .inl (mem_of_getElem? hold)

theorem modify_concat (l : List α) (a : α) (f : α → α) :
    (l ++ [a]).modify l.length f = l ++ [f a] := by
  induction l with
  | nil => rfl
  | cons b l ih => exact congrArg (b :: ·) ih

theorem split_set {l : List α} {i : Nat} {a : α} (h : l[i]? = some a) :
    ∃ pre post, l = pre ++ a :: post ∧ ∀ b : α, l.set i b = pre ++ b :: post := by
  induction l generalizing i with
  | nil => simp at h
  | cons b l ih =>
      cases i with
      | zero =>
          obtain rfl : b = a := by simpa using h
          exact ⟨[], l, rfl, fun c => by simp⟩
      | succ i =>
          obtain ⟨pre, post, hl, hset⟩ := ih (by simpa using h)
          exact ⟨b :: pre, post, by rw [hl]; rfl, fun c => by simp [hset c]⟩

/-- Erasing a position gives the element back up to order. -/
theorem perm_cons_eraseIdx {l : List α} {i : Nat} {a : α} (h : l[i]? = some a) :
    l.Perm (a :: l.eraseIdx i) := by
  obtain ⟨hi, rfl⟩ := getElem?_eq_some_iff.mp h
  exact (getElem_cons_eraseIdx_perm hi).symm

/-- Rewriting one position of a list of bags: the bag put in replaces the bag
taken out. -/
theorem flatMap_set_perm {β : Type*} {l : List α} {i : Nat} {a : α}
    (h : l[i]? = some a) (b : α) (f : α → List β) {r s : List β}
    (hperm : (f b ++ r).Perm (f a ++ s)) :
    ((l.set i b).flatMap f ++ r).Perm (l.flatMap f ++ s) := by
  obtain ⟨pre, post, hl, hset⟩ := split_set h
  rw [hset b, hl]
  simp only [flatMap_append, flatMap_cons, append_assoc]
  refine Perm.append_left _ ?_
  calc f b ++ (post.flatMap f ++ r)
      ~ f b ++ (r ++ post.flatMap f) := Perm.append_left _ perm_append_comm
    _ = (f b ++ r) ++ post.flatMap f := (append_assoc ..).symm
    _ ~ (f a ++ s) ++ post.flatMap f := Perm.append_right _ hperm
    _ = f a ++ (s ++ post.flatMap f) := append_assoc ..
    _ ~ f a ++ (post.flatMap f ++ s) := Perm.append_left _ perm_append_comm

/-- The first element that passes a test gives up the head of its list; those
before it have empty lists, and no other list changes. -/
theorem flatMap_eq_cons {β : Type*} {l : List α} (hnd : l.Nodup) {test : α → Bool} {a : α}
    (hfind : l.find? test = some a) {f g : α → List β} {b : β}
    (hempty : ∀ c ∈ l, test c = false → f c = []) (hsame : ∀ c, c ≠ a → g c = f c)
    (hhead : f a = b :: g a) : l.flatMap f = b :: l.flatMap g := by
  obtain ⟨_, pre, post, rfl, hpre⟩ := find?_eq_some_iff_append.mp hfind
  obtain ⟨hout, _⟩ := nodup_cons.mp (nodup_middle.mp hnd)
  rw [mem_append, not_or] at hout
  have hskip : pre.flatMap f = [] := by
    rw [flatMap_eq_nil_iff]
    intro c hc
    refine hempty c (mem_append_left _ hc) ?_
    simpa using hpre c hc
  have hfront : pre.flatMap g = pre.flatMap f :=
    flatMap_congr fun c hc => hsame c fun he => hout.1 (he ▸ hc)
  have hback : post.flatMap g = post.flatMap f :=
    flatMap_congr fun c hc => hsame c fun he => hout.2 (he ▸ hc)
  rw [flatMap_append, flatMap_append, flatMap_cons, flatMap_cons, hfront, hback, hskip, hhead]
  rfl

end List
