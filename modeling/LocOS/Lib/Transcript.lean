import Mathlib.Init

/-!
# Transcript — components that answer calls

A component takes a call in a state, answers it and moves to the next state.
Its transcript is the list of its answers to a list of calls. A simulation
relates the states of two components that answer alike; then no list of calls
tells them apart.
-/

namespace Transcript

variable {σ τ ι ο : Type*}

/-- The answers to a list of calls, and the state after them. -/
def run (call : σ → ι → ο × σ) : σ → List ι → List ο × σ
  | s, [] => ([], s)
  | s, i :: is =>
      let (answers, t) := run call (call s i).2 is
      ((call s i).1 :: answers, t)

@[simp] theorem run_nil (call : σ → ι → ο × σ) (s : σ) : run call s [] = ([], s) := rfl

@[simp] theorem run_cons (call : σ → ι → ο × σ) (s : σ) (i : ι) (is : List ι) :
    run call s (i :: is) =
      ((call s i).1 :: (run call (call s i).2 is).1, (run call (call s i).2 is).2) := rfl

/-- Related states answer alike and stay related. -/
structure Simulates (R : σ → τ → Prop) (call : σ → ι → ο × σ) (spec : τ → ι → ο × τ) : Prop where
  answer : ∀ s t i, R s t → (call s i).1 = (spec t i).1
  next : ∀ s t i, R s t → R (call s i).2 (spec t i).2

/-- From related states the transcripts agree, and the states after them are
related. -/
theorem Simulates.run {R : σ → τ → Prop} {call : σ → ι → ο × σ} {spec : τ → ι → ο × τ}
    (h : Simulates R call spec) {s : σ} {t : τ} (hst : R s t) (is : List ι) :
    (run call s is).1 = (run spec t is).1 ∧ R (run call s is).2 (run spec t is).2 := by
  induction is generalizing s t with
  | nil => exact ⟨rfl, hst⟩
  | cons i is ih =>
      obtain ⟨hanswers, hstates⟩ := ih (h.next s t i hst)
      rw [run_cons, run_cons, h.answer s t i hst, hanswers]
      exact ⟨rfl, hstates⟩

end Transcript
