import Mathlib.Data.List.Nodup
import Mathlib.Data.List.Perm.Subperm

/-!
# Objects — allocated, held and freed

Objects with consecutive names are allocated, held in a number of places, and
freed. A log tells which objects are freed and which are used. When no object
is held twice, and only one that is given up is freed, nobody uses an object
behind its release, and so nobody frees it twice.
-/

namespace Objects

open scoped List

/-- What the events of a log free and use. To free an object is to use it. -/
structure Vocabulary (ε : Type*) where
  freed : ε → Option Nat
  used : ε → List Nat
  used_of_freed : ∀ e p, freed e = some p → p ∈ used e

variable {ε : Type*} {v : Vocabulary ε}

namespace Vocabulary

/-- The objects released, in order. -/
def freedIn (v : Vocabulary ε) (log : List ε) : List Nat := log.filterMap v.freed

/-- No event behind the release of an object uses it. -/
def NoUseAfterFree (v : Vocabulary ε) (log : List ε) : Prop :=
  log.Pairwise fun e e' => ∀ p, v.freed e = some p → p ∉ v.used e'

theorem mem_freedIn {log : List ε} {p : Nat} :
    p ∈ v.freedIn log ↔ ∃ e ∈ log, v.freed e = some p := List.mem_filterMap

/-- Nothing is freed twice. -/
theorem NoUseAfterFree.nodup {log : List ε} (h : v.NoUseAfterFree log) :
    (v.freedIn log).Nodup := by
  refine (List.pairwise_filterMap ..).mpr (h.imp fun {e e'} hee => ?_)
  rintro p hp q hq rfl
  exact hee p hp (v.used_of_freed e' p hq)

/-- Events that use nothing freed before them and free nothing. -/
theorem NoUseAfterFree.append {log events : List ε} (h : v.NoUseAfterFree log)
    (hfree : ∀ e ∈ events, v.freed e = none)
    (huse : ∀ e ∈ events, ∀ p ∈ v.used e, p ∉ v.freedIn log) :
    v.NoUseAfterFree (log ++ events) := by
  refine List.pairwise_append.mpr ⟨h, ?_, fun e he e' he' p hp hu => ?_⟩
  · refine List.pairwise_of_forall_mem_list fun e he e' _ p hp => ?_
    rw [hfree e he] at hp
    cases hp
  · exact huse e' he' p hu (mem_freedIn.mpr ⟨e, he, hp⟩)

end Vocabulary

/-- Nothing is held twice, what is held is allocated, and what was allocated
is so until the log frees it. -/
structure Owned (v : Vocabulary ε) (live : Nat → Prop) (next : Nat) (log : List ε)
    (held : List Nat) : Prop where
  nodup : held.Nodup
  heldLive : ∀ p ∈ held, live p
  allocated : ∀ p, p < next ↔ live p ∨ p ∈ v.freedIn log
  dead : ∀ p ∈ v.freedIn log, ¬ live p
  history : v.NoUseAfterFree log

namespace Owned

variable {live live' : Nat → Prop} {next : Nat} {log : List ε} {held held' : List Nat}

theorem fresh (h : Owned v live next log held) : ¬ live next ∧ next ∉ v.freedIn log := by
  have hnot := mt (h.allocated next).mpr (Nat.lt_irrefl next)
  exact not_or.mp hnot

/-- Objects are passed on, lost and used. -/
theorem keep (h : Owned v live next log held) (hlive : ∀ p, live' p ↔ live p)
    (hheld : held' <+~ held) {events : List ε} (hfree : ∀ e ∈ events, v.freed e = none)
    (huse : ∀ e ∈ events, ∀ p ∈ v.used e, live p) :
    Owned v live' next (log ++ events) held' := by
  have hsame : v.freedIn (log ++ events) = v.freedIn log := by
    have hnone : v.freedIn events = [] := List.filterMap_eq_nil_iff.mpr hfree
    rw [Vocabulary.freedIn, List.filterMap_append]
    exact (congrArg (v.freedIn log ++ ·) hnone).trans (List.append_nil _)
  refine ⟨?_, fun p hp => (hlive p).mpr (h.heldLive p (hheld.subset hp)), fun p => ?_,
    fun p hp => ?_, ?_⟩
  · obtain ⟨l, hperm, hsub⟩ := hheld
    exact hperm.nodup_iff.mp (hsub.nodup h.nodup)
  · rw [hsame, hlive]
    exact h.allocated p
  · rw [hlive]
    exact h.dead p (hsame ▸ hp)
  · exact h.history.append hfree fun e he p hp hfreed => h.dead p hfreed (huse e he p hp)

/-- Objects are passed on and lost. -/
theorem pass (h : Owned v live next log held) (hlive : ∀ p, live' p ↔ live p)
    (hheld : held' <+~ held) : Owned v live' next log held' := by
  have hkeep := h.keep hlive hheld (List.forall_mem_nil _) (List.forall_mem_nil _)
  rwa [List.append_nil] at hkeep

/-- An object that is held is given up and freed. -/
theorem release (h : Owned v live next log held) {p : Nat} (hheld : held ~ p :: held')
    (hlive : ∀ q, live' q ↔ q ≠ p ∧ live q) {e : ε} (hfree : v.freed e = some p)
    (huse : ∀ q ∈ v.used e, q = p) : Owned v live' next (log ++ [e]) held' := by
  have hp : live p := h.heldLive p (hheld.mem_iff.mpr (List.mem_cons_self ..))
  obtain ⟨hout, hnd⟩ := List.nodup_cons.mp (hheld.nodup_iff.mp h.nodup)
  have hfreed : ∀ q, q ∈ v.freedIn (log ++ [e]) ↔ q ∈ v.freedIn log ∨ q = p := by
    intro q
    simp [Vocabulary.freedIn, hfree]
  refine ⟨hnd, fun q hq => ?_, fun q => ?_, fun q hq => ?_, ?_⟩
  · have hmem : q ∈ held := hheld.mem_iff.mpr (List.mem_cons_of_mem _ hq)
    exact (hlive q).mpr ⟨fun he => hout (he ▸ hq), h.heldLive q hmem⟩
  · rw [h.allocated, hfreed, hlive]
    by_cases hqp : q = p
    · exact iff_of_true (.inl (hqp ▸ hp)) (.inr (.inr hqp))
    · tauto
  · rw [hlive]
    rintro ⟨hne, hq'⟩
    exact h.dead q (((hfreed q).mp hq).resolve_right hne) hq'
  · refine List.pairwise_append.mpr ⟨h.history, List.pairwise_singleton .., ?_⟩
    intro e' he' e'' he'' q hq hu
    obtain rfl := List.mem_singleton.mp he''
    obtain rfl := huse q hu
    exact h.dead q (Vocabulary.mem_freedIn.mpr ⟨e', he', hq⟩) hp

/-- The next object is allocated, for somebody to hold. -/
theorem create (h : Owned v live next log held) (hlive : ∀ p, live' p ↔ p = next ∨ live p) :
    Owned v live' (next + 1) log (next :: held) := by
  obtain ⟨hdead, hunfreed⟩ := h.fresh
  refine ⟨List.nodup_cons.mpr ⟨fun hn => hdead (h.heldLive next hn), h.nodup⟩, fun p hp => ?_,
    fun p => ?_, fun p hp => ?_, h.history⟩
  · exact (hlive p).mpr ((List.mem_cons.mp hp).imp_right (h.heldLive p))
  · rw [Nat.lt_succ_iff_lt_or_eq, h.allocated, hlive]
    tauto
  · rw [hlive]
    rintro (rfl | hp')
    · exact hunfreed hp
    · exact h.dead p hp hp'

end Owned

end Objects
