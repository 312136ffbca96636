import Mathlib.Algebra.Order.Group.Multiset
import Mathlib.Tactic.Common

/-!
# Custody — resources acquired, held and released

A program acquires resources, any of which it may be refused, and releases
what it holds, above all when a later one is refused. What it holds is a
multiset, so a step is judged by what it takes and gives, wherever it stands.
-/

namespace Custody

/-- `note` is a step that concerns no resource. -/
inductive Step (ρ ν : Type*) where
  | acquire (r : ρ)
  | release (r : ρ)
  | note (n : ν)
  deriving DecidableEq, Repr

variable {ρ ν : Type*}

/-! ## What is held -/

section
variable [DecidableEq ρ]

/-- What is held behind the steps; `none` when one releases what is not
held. -/
def held (before : Multiset ρ) : List (Step ρ ν) → Option (Multiset ρ)
  | [] => some before
  | .acquire r :: steps => held (r ::ₘ before) steps
  | .release r :: steps => if r ∈ before then held (before.erase r) steps else none
  | .note _ :: steps => held before steps

theorem held_append (before : Multiset ρ) (steps more : List (Step ρ ν)) :
    held before (steps ++ more) = (held before steps).bind fun left => held left more := by
  induction steps generalizing before with
  | nil => rfl
  | cons step steps ih =>
      cases step with
      | acquire r => exact ih _
      | note n => exact ih _
      | release r =>
          simp only [List.cons_append, held]
          split
          · exact ih _
          · rfl

theorem held_release (before : Multiset ρ) (r : ρ) (steps : List (Step ρ ν)) :
    held (r ::ₘ before) (.release r :: steps) = held before steps := by
  rw [held, if_pos (Multiset.mem_cons_self r before), Multiset.erase_cons_head]

theorem held_acquires (rs : List ρ) (before : Multiset ρ) :
    held before (rs.map .acquire : List (Step ρ ν)) = some ((rs : Multiset ρ) + before) := by
  induction rs generalizing before with
  | nil => exact congrArg some (zero_add before).symm
  | cons r rs ih =>
      rw [List.map_cons, held, ih, ← Multiset.cons_coe, Multiset.cons_add, Multiset.add_cons]

/-- What is held can be released. -/
theorem held_releases (rs : List ρ) (before : Multiset ρ) :
    held ((rs : Multiset ρ) + before) (rs.map .release : List (Step ρ ν)) = some before := by
  induction rs with
  | nil => exact congrArg some (zero_add before)
  | cons r rs ih =>
      rw [← Multiset.cons_coe, Multiset.cons_add, List.map_cons, held_release]
      exact ih

end

/-! ## What is counted -/

/-- What the steps acquire, in their order. -/
def acquired (steps : List (Step ρ ν)) : List ρ :=
  steps.filterMap fun
    | .acquire r => some r
    | _ => none

/-- What the steps release, in their order. -/
def released (steps : List (Step ρ ν)) : List ρ :=
  steps.filterMap fun
    | .release r => some r
    | _ => none

@[simp] theorem acquired_append (steps more : List (Step ρ ν)) :
    acquired (steps ++ more) = acquired steps ++ acquired more := List.filterMap_append

@[simp] theorem released_append (steps more : List (Step ρ ν)) :
    released (steps ++ more) = released steps ++ released more := List.filterMap_append

@[simp] theorem acquired_releases (rs : List ρ) :
    acquired (rs.map .release : List (Step ρ ν)) = [] := by
  simp [acquired, List.filterMap_map]

@[simp] theorem acquired_acquires (rs : List ρ) :
    acquired (rs.map .acquire : List (Step ρ ν)) = rs := by
  simp [acquired, List.filterMap_map]

@[simp] theorem released_releases (rs : List ρ) :
    released (rs.map .release : List (Step ρ ν)) = rs := by
  simp [released, List.filterMap_map]

/-- Nothing held gets lost: what is held in the end and what was released is
what was held at first and what was acquired. -/
theorem count_held [DecidableEq ρ] {before left : Multiset ρ} {steps : List (Step ρ ν)}
    (h : held before steps = some left) (r : ρ) :
    left.count r + (released steps).count r = before.count r + (acquired steps).count r := by
  induction steps generalizing before with
  | nil =>
      obtain rfl := Option.some.inj h
      rfl
  | cons step steps ih =>
      cases step with
      | note n => exact ih h
      | acquire r' =>
          have hrest := ih h
          simp only [acquired, released, List.filterMap_cons, Multiset.count_cons,
            List.count_cons, beq_iff_eq] at hrest ⊢
          grind
      | release r' =>
          rw [held] at h
          split at h
          · rename_i hmem
            have hrest := ih h
            have hcons := congrArg (Multiset.count r) (Multiset.cons_erase hmem)
            simp only [acquired, released, List.filterMap_cons, Multiset.count_cons,
              List.count_cons, beq_iff_eq] at hrest hcons ⊢
            grind
          · cases h

/-- What is held stays so until it is released. -/
theorem mem_held [DecidableEq ρ] {before left : Multiset ρ} {steps : List (Step ρ ν)}
    (h : held before steps = some left) {r : ρ} (hr : r ∈ before) (hkeep : r ∉ released steps) :
    r ∈ left := by
  have hcount := count_held h r
  have hpos := Multiset.one_le_count_iff_mem.mpr hr
  rw [List.count_eq_zero.mpr hkeep] at hcount
  exact Multiset.one_le_count_iff_mem.mp (by omega)

/-- Who acquires nothing twice releases nothing twice. -/
theorem nodup_released [DecidableEq ρ] {left : Multiset ρ} {steps : List (Step ρ ν)}
    (h : held 0 steps = some left) (hnd : (acquired steps).Nodup) : (released steps).Nodup := by
  rw [List.nodup_iff_count_le_one] at hnd ⊢
  intro r
  have hcount := count_held h r
  rw [Multiset.count_zero] at hcount
  have := hnd r
  omega

/-! ## Attempts -/

/-- What was done, and the resource that was refused, if one was. -/
structure Attempt (ρ ν : Type*) where
  steps : List (Step ρ ν)
  refused : Option ρ

namespace Attempt

/-- Steps that ask for nothing. -/
def does (steps : List (Step ρ ν)) : Attempt ρ ν := ⟨steps, none⟩

/-- Asks for one resource. -/
def ask (granted : ρ → Bool) (r : ρ) : Attempt ρ ν :=
  if granted r then ⟨[.acquire r], none⟩ else ⟨[], some r⟩

/-- `if (!a) { release(cleanup); return NULL; } rest`. -/
def check (a : Attempt ρ ν) (cleanup : List ρ) (rest : Attempt ρ ν) : Attempt ρ ν :=
  match a.refused with
  | none => ⟨a.steps ++ rest.steps, rest.refused⟩
  | some r => ⟨a.steps ++ cleanup.map .release, some r⟩

/-- `for (i = 0; i < n; i++) body(i)`, left when an iteration is refused
something. -/
def loop (body : Nat → Attempt ρ ν) : Nat → Attempt ρ ν
  | 0 => does []
  | n + 1 => (loop body n).check [] (body n)

theorem check_of_none {a rest : Attempt ρ ν} {cleanup : List ρ} (h : a.refused = none) :
    a.check cleanup rest = ⟨a.steps ++ rest.steps, rest.refused⟩ := by
  unfold check
  rw [h]

theorem check_of_some {a rest : Attempt ρ ν} {cleanup : List ρ} {r : ρ} (h : a.refused = some r) :
    a.check cleanup rest = ⟨a.steps ++ cleanup.map .release, some r⟩ := by
  unfold check
  rw [h]

/-- Who goes on behind a whole attempt goes on behind its last part. -/
theorem check_assoc (a b rest : Attempt ρ ν) (cleanup : List ρ) :
    (a.check cleanup b).check [] rest = a.check cleanup (b.check [] rest) := by
  cases hrefused : a.refused with
  | none =>
      rw [check_of_none hrefused, check_of_none hrefused]
      cases hb : b.refused with
      | none => simp [check, hb]
      | some r => simp [check, hb]
  | some r =>
      rw [check_of_some hrefused, check_of_some hrefused]
      simp [check]

theorem does_nil_check (rest : Attempt ρ ν) : (does []).check [] rest = rest := rfl

/-! ### Pre- and postconditions -/

section
variable [DecidableEq ρ] {granted : ρ → Bool} {a rest : Attempt ρ ν} {cleanup : List ρ}
  {before after last : Multiset ρ} {err err' : ρ → Multiset ρ → Prop}

/-- From `before` the attempt gets to `after`, or, when it is refused `r`, to
something of `err r`. -/
def Meets (a : Attempt ρ ν) (before after : Multiset ρ) (err : ρ → Multiset ρ → Prop) : Prop :=
  ∃ left, held before a.steps = some left ∧
    match a.refused with
    | none => left = after
    | some r => err r left

theorem Meets.mono (h : a.Meets before after err) (himp : ∀ r left, err r left → err' r left) :
    a.Meets before after err' := by
  obtain ⟨left, hheld, hpost⟩ := h
  refine ⟨left, hheld, ?_⟩
  revert hpost
  cases a.refused with
  | none => exact id
  | some r => exact himp r left

theorem does_meets {steps : List (Step ρ ν)} (h : held before steps = some after) :
    (does steps).Meets before after err := ⟨after, h, rfl⟩

theorem ask_meets (granted : ρ → Bool) (r : ρ) (before : Multiset ρ) :
    (ask granted r : Attempt ρ ν).Meets before (r ::ₘ before)
      fun r' left => r' = r ∧ left = before := by
  unfold ask
  split
  · exact ⟨_, rfl, rfl⟩
  · exact ⟨_, rfl, rfl, rfl⟩

/-- The cleanup releases what was held, and leaves what the caller expects. -/
theorem Meets.check (h : a.Meets before after err) (hrest : rest.Meets after last err')
    (hclean : ∀ r left, err r left →
      ∃ left', left = (cleanup : Multiset ρ) + left' ∧ err' r left') :
    (a.check cleanup rest).Meets before last err' := by
  obtain ⟨left, hheld, hpost⟩ := h
  unfold Attempt.check
  cases hrefused : a.refused with
  | none =>
      rw [hrefused] at hpost
      obtain ⟨left', hheld', hpost'⟩ := hrest
      refine ⟨left', ?_, hpost'⟩
      rw [held_append, hheld, hpost]
      exact hheld'
  | some r =>
      rw [hrefused] at hpost
      obtain ⟨left', rfl, herr⟩ := hclean r left hpost
      refine ⟨left', ?_, herr⟩
      rw [held_append, hheld]
      exact held_releases cleanup left'

theorem Meets.does_check {steps : List (Step ρ ν)} (h : held before steps = some after)
    (hrest : rest.Meets after last err) : ((does steps).check [] rest).Meets before last err := by
  obtain ⟨left, hheld, hpost⟩ := hrest
  refine ⟨left, ?_, hpost⟩
  show held before (steps ++ rest.steps) = some left
  rw [held_append, h]
  exact hheld

/-- `inv i` is held before the body runs at `i`. -/
theorem Meets.loop {body : Nat → Attempt ρ ν} (inv : Nat → Multiset ρ) {n : Nat}
    (hbody : ∀ i < n, (body i).Meets (inv i) (inv (i + 1)) err) :
    (Attempt.loop body n).Meets (inv 0) (inv n) err := by
  induction n with
  | zero => exact does_meets rfl
  | succ n ih =>
      refine (ih fun i hi => hbody i (Nat.lt_succ_of_lt hi)).check (hbody n (Nat.lt_succ_self n)) ?_
      exact fun r left herr => ⟨left, (zero_add left).symm, herr⟩

end

/-! ### What is asked for -/

section
variable {granted : ρ → Bool} {a rest : Attempt ρ ν} {cleanup plan more : List ρ}

theorem acquired_ask (granted : ρ → Bool) (r : ρ) :
    (acquired (ask granted r : Attempt ρ ν).steps).Sublist [r] := by
  unfold ask
  split
  · exact List.Sublist.refl _
  · exact List.nil_sublist _

theorem acquired_check (h : (acquired a.steps).Sublist plan)
    (hrest : (acquired rest.steps).Sublist more) :
    (acquired (a.check cleanup rest).steps).Sublist (plan ++ more) := by
  unfold check
  cases a.refused with
  | none =>
      rw [acquired_append]
      exact h.append hrest
  | some r =>
      rw [acquired_append, acquired_releases, List.append_nil]
      exact h.trans (List.sublist_append_left ..)

/-- Steps that acquire nothing stand in between. -/
theorem acquired_check_nil {steps : List (Step ρ ν)} (hsteps : acquired steps = [])
    (hrest : (acquired rest.steps).Sublist plan) :
    (acquired ((does steps).check [] rest).steps).Sublist plan := by
  show (acquired (steps ++ rest.steps)).Sublist plan
  rw [acquired_append, hsteps]
  exact hrest

theorem acquired_loop {body : Nat → Attempt ρ ν} {plan : Nat → List ρ}
    (hbody : ∀ i, (acquired (body i).steps).Sublist (plan i)) (n : Nat) :
    (acquired (loop body n).steps).Sublist ((List.range n).flatMap plan) := by
  induction n with
  | zero => exact List.nil_sublist _
  | succ n ih =>
      rw [List.range_succ, List.flatMap_append, List.flatMap_singleton]
      exact acquired_check ih (hbody n)

end

/-! ### What is released on the way -/

section
variable {a rest : Attempt ρ ν} {cleanup : List ρ} {p : ρ → Prop}

/-- When nothing is refused, only resources with `p` are released. -/
def Releases (a : Attempt ρ ν) (p : ρ → Prop) : Prop :=
  a.refused = none → ∀ r ∈ released a.steps, p r

theorem ask_releases (granted : ρ → Bool) (r : ρ) :
    (ask granted r : Attempt ρ ν).Releases p := by
  unfold ask
  split
  · exact fun _ _ hr => absurd hr List.not_mem_nil
  · exact fun hnone => absurd hnone (Option.some_ne_none r)

theorem does_releases {steps : List (Step ρ ν)} (h : ∀ r ∈ released steps, p r) :
    (does steps).Releases p := fun _ => h

theorem check_refused : (a.check cleanup rest).refused = none ↔
    a.refused = none ∧ rest.refused = none := by
  unfold check
  cases a.refused <;> simp

theorem Releases.check (h : a.Releases p) (hrest : rest.Releases p) :
    (a.check cleanup rest).Releases p := by
  intro hnone r hr
  obtain ⟨ha, hb⟩ := check_refused.mp hnone
  rw [check_of_none ha, released_append] at hr
  exact (List.mem_append.mp hr).elim (h ha r) (hrest hb r)

theorem Releases.loop {body : Nat → Attempt ρ ν} (hbody : ∀ i, (body i).Releases p) (n : Nat) :
    (Attempt.loop body n).Releases p := by
  induction n with
  | zero => exact does_releases (List.forall_mem_nil _)
  | succ n ih => exact ih.check (hbody n)

end

/-! ### What stands at the end, and in between -/

section
variable {granted : ρ → Bool} {a rest : Attempt ρ ν} {cleanup : List ρ} {last : ρ}

/-- Refused something, the attempt releases `last` at the very end. -/
def EndsWith (a : Attempt ρ ν) (last : ρ) : Prop :=
  a.refused ≠ none → ∃ before, a.steps = before ++ [.release last]

theorem does_endsWith (steps : List (Step ρ ν)) : (does steps).EndsWith last :=
  fun hne => absurd rfl hne

/-- The cleanup does. -/
theorem EndsWith.check (hrest : rest.EndsWith last) :
    (a.check (cleanup ++ [last]) rest).EndsWith last := by
  intro hne
  cases hrefused : a.refused with
  | none =>
      rw [check_of_none hrefused] at hne ⊢
      obtain ⟨before, he⟩ := hrest hne
      exact ⟨a.steps ++ before, by rw [List.append_assoc, ← he]⟩
  | some r =>
      rw [check_of_some hrefused]
      exact ⟨a.steps ++ cleanup.map .release, by simp⟩

/-- The attempt itself does. -/
theorem EndsWith.check_nil (h : a.EndsWith last) (hrest : rest.EndsWith last) :
    (a.check [] rest).EndsWith last := by
  intro hne
  cases hrefused : a.refused with
  | none =>
      rw [check_of_none hrefused] at hne ⊢
      obtain ⟨before, he⟩ := hrest hne
      exact ⟨a.steps ++ before, by rw [List.append_assoc, ← he]⟩
  | some r =>
      rw [check_of_some hrefused, List.map_nil, List.append_nil]
      exact h (by rw [hrefused]; exact Option.some_ne_none r)

theorem EndsWith.loop {body : Nat → Attempt ρ ν} (hbody : ∀ i, (body i).EndsWith last) (n : Nat) :
    (Attempt.loop body n).EndsWith last := by
  induction n with
  | zero => exact does_endsWith []
  | succ n ih => exact ih.check_nil (hbody n)

/-- Resources apart, nothing is done. -/
def Silent (a : Attempt ρ ν) : Prop := ∀ n, .note n ∉ a.steps

theorem notMem_releases (rs : List ρ) (n : ν) : .note n ∉ (rs.map .release : List (Step ρ ν)) := by
  simp

theorem ask_silent (granted : ρ → Bool) (r : ρ) : (ask granted r : Attempt ρ ν).Silent := by
  intro n
  unfold ask
  split <;> simp

theorem does_silent (rs : List ρ) : (does (rs.map .release) : Attempt ρ ν).Silent :=
  notMem_releases rs

theorem Silent.check (h : a.Silent) (hrest : rest.Silent) : (a.check cleanup rest).Silent := by
  intro n hn
  cases hrefused : a.refused with
  | none =>
      rw [check_of_none hrefused] at hn
      exact (List.mem_append.mp hn).elim (h n) (hrest n)
  | some r =>
      rw [check_of_some hrefused] at hn
      exact (List.mem_append.mp hn).elim (h n) (notMem_releases cleanup n)

theorem Silent.loop {body : Nat → Attempt ρ ν} (hbody : ∀ i, (body i).Silent) (n : Nat) :
    (Attempt.loop body n).Silent := by
  induction n with
  | zero => exact fun _ hn => absurd hn List.not_mem_nil
  | succ n ih => exact ih.check (hbody n)

end

end Attempt
end Custody
