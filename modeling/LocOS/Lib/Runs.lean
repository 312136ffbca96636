import Mathlib.Logic.Relation

/-!
# Runs — labelled transition systems

A system is its initial states and its labelled steps. `Reachable` ranges
over all finite runs; `restrict` keeps the runs whose every step meets a
condition on the state before it, which is how a property is stated under a
condition on runs.
-/

/-- A labelled transition system. -/
structure Runs (σ α : Type*) where
  init : σ → Prop
  step : σ → α → σ → Prop

namespace Runs

variable {σ α : Type*}

/-- The states some finite run ends in. -/
inductive Reachable (S : Runs σ α) : σ → Prop
  | init {s : σ} : S.init s → Reachable S s
  | step {s t : σ} {a : α} : Reachable S s → S.step s a t → Reachable S t

/-- The runs whose every step is `ok` in the state it starts from. -/
def restrict (S : Runs σ α) (ok : σ → α → Prop) : Runs σ α where
  init := S.init
  step s a t := ok s a ∧ S.step s a t

variable {S : Runs σ α}

/-- The invariant rule. -/
theorem Reachable.invariant {s : σ} (h : S.Reachable s) (P : σ → Prop)
    (h0 : ∀ s, S.init s → P s) (hstep : ∀ s a t, P s → S.step s a t → P t) : P s := by
  induction h with
  | init hi => exact h0 _ hi
  | step _ hs ih => exact hstep _ _ _ ih hs

/-- States one run reaches from another state. -/
inductive Steps (S : Runs σ α) : σ → σ → Prop
  | refl (s : σ) : Steps S s s
  | tail {s t u : σ} {a : α} : Steps S s t → S.step t a u → Steps S s u

theorem Steps.single {s t : σ} {a : α} (h : S.step s a t) : S.Steps s t :=
  .tail (.refl s) h

theorem Steps.trans {s t u : σ} (h : S.Steps s t) (h' : S.Steps t u) : S.Steps s u := by
  induction h' with
  | refl => exact h
  | tail _ hs ih => exact .tail ih hs

/-- The invariant rule from a state on. -/
theorem Steps.invariant {s t : σ} (h : S.Steps s t) (P : σ → Prop) (h0 : P s)
    (hstep : ∀ s a t, P s → S.step s a t → P t) : P t := by
  induction h with
  | refl => exact h0
  | tail _ hs ih => exact hstep _ _ _ ih hs

theorem Reachable.steps {s t : σ} (h : S.Reachable s) (h' : S.Steps s t) : S.Reachable t := by
  induction h' with
  | refl => exact h
  | tail _ hs ih => exact .step ih hs

/-- A list of actions of a system that can always take them. -/
theorem Reachable.foldl {next : σ → α → σ} (hstep : ∀ s a, S.step s a (next s a)) {s : σ}
    (h : S.Reachable s) (as : List α) : S.Reachable (as.foldl next s) := by
  induction as generalizing s with
  | nil => exact h
  | cons a as ih => exact ih (h.step (hstep s a))

/-! ## Systems given by guards and effects -/

/-- The system in which label `a` is enabled in some states and leads from
each of them to one state. -/
def guarded (init : σ → Prop) (enabled : σ → α → Prop) (next : σ → α → σ) : Runs σ α where
  init := init
  step s a t := enabled s a ∧ t = next s a

theorem restrict_guarded (init : σ → Prop) (enabled ok : σ → α → Prop) (next : σ → α → σ) :
    (guarded init enabled next).restrict ok =
      guarded init (fun s a => ok s a ∧ enabled s a) next := by
  simp only [restrict, guarded, and_assoc]

/-- Follows a list of labels; `none` when one of them is not enabled. -/
def follow (enabled : σ → α → Prop) [∀ s a, Decidable (enabled s a)] (next : σ → α → σ) :
    List α → σ → Option σ
  | [], s => some s
  | a :: as, s => if enabled s a then follow enabled next as (next s a) else none

theorem Reachable.follow {init : σ → Prop} {enabled : σ → α → Prop}
    [∀ s a, Decidable (enabled s a)] {next : σ → α → σ} {s t : σ} {as : List α}
    (h : (guarded init enabled next).Reachable s) (hf : Runs.follow enabled next as s = some t) :
    (guarded init enabled next).Reachable t := by
  induction as generalizing s with
  | nil => exact Option.some.inj hf ▸ h
  | cons a as ih =>
      rw [Runs.follow] at hf
      split at hf
      · rename_i he
        exact ih (.step h ⟨he, rfl⟩) hf
      · cases hf

end Runs
