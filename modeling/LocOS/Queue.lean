import LocOS.Process
import Mathlib.Data.Int.ModEq
import Mathlib.Data.Nat.ModEq

/-!
# Queue

`ProcessQueue` is a bounded FIFO: under the ring invariant an enqueue
appends to the logical list, a dequeue takes its head, and the capacity is
the only reason for a refusal.
-/

namespace LocOS

/-- Two positions less than a turn apart share a slot only if equal. -/
theorem ring_index_inj {cap front i j : Nat} (hi : i < cap) (hj : j < cap)
    (h : (front + i) % cap = (front + j) % cap) : i = j := by
  have hmod : i ≡ j [MOD cap] := Nat.ModEq.add_left_cancel' front h
  exact hmod.eq_of_lt_of_lt hi hj

namespace ProcessQueue

/-- The ring invariant: `rear` is the slot before the next free one. -/
structure WF (pq : ProcessQueue) : Prop where
  capPos : 0 < pq.maxCapacity
  frontLt : pq.front < pq.maxCapacity
  sizeLe : pq.currentSize ≤ pq.maxCapacity
  rearEq : (pq.rear + 1) % pq.maxCapacity =
    ((pq.front + pq.currentSize : Nat) : Int) % pq.maxCapacity

instance (pq : ProcessQueue) : Decidable pq.WF :=
  decidable_of_iff (0 < pq.maxCapacity ∧ pq.front < pq.maxCapacity ∧
      pq.currentSize ≤ pq.maxCapacity ∧ (pq.rear + 1) % pq.maxCapacity =
        ((pq.front + pq.currentSize : Nat) : Int) % pq.maxCapacity)
    ⟨fun ⟨hcap, hfront, hsize, hrear⟩ => ⟨hcap, hfront, hsize, hrear⟩,
      fun h => ⟨h.capPos, h.frontLt, h.sizeLe, h.rearEq⟩⟩

@[simp] theorem length_toList (pq : ProcessQueue) : pq.toList.length = pq.currentSize := by
  simp [toList]

theorem createProcessQueue_wf {capacity : Nat} (h : 0 < capacity) :
    (createProcessQueue capacity).WF where
  capPos := h
  frontLt := h
  sizeLe := Nat.zero_le _
  rearEq := rfl

@[simp] theorem createProcessQueue_toList (capacity : Nat) :
    (createProcessQueue capacity).toList = [] := rfl

/-- What an enqueue does: it refuses exactly at capacity, and otherwise
appends. -/
theorem enqueueProcess_cases {pq : ProcessQueue} (h : pq.WF) (p : PcbPtr) :
    (pq.currentSize = pq.maxCapacity ∧ pq.enqueueProcess p = none) ∨
    (pq.currentSize < pq.maxCapacity ∧ ∃ pq', pq.enqueueProcess p = some pq' ∧
      pq'.WF ∧ pq'.toList = pq.toList ++ [p] ∧
      pq'.maxCapacity = pq.maxCapacity ∧ pq'.currentSize = pq.currentSize + 1) := by
  unfold enqueueProcess
  rcases Nat.lt_or_ge pq.currentSize pq.maxCapacity with hlt | hge
  · right
    refine ⟨hlt, _, if_neg (by omega), ?_, ?_, rfl, rfl⟩
    · exact {
        capPos := h.capPos
        frontLt := h.frontLt
        sizeLe := hlt
        rearEq := by
          show ((pq.rear + 1) % (pq.maxCapacity : Int) + 1) % (pq.maxCapacity : Int) = _
          rw [h.rearEq, Int.emod_add_emod]
          push_cast
          rw [add_assoc] }
    · have hslot : ((pq.rear + 1) % (pq.maxCapacity : Int)).toNat =
          (pq.front + pq.currentSize) % pq.maxCapacity := by
        rw [h.rearEq]
        omega
      simp only [toList, hslot, List.range_succ, List.map_append, List.map_cons, List.map_nil,
        Function.update_self]
      congr 1
      apply List.map_congr_left
      intro i hi
      have hi : i < pq.currentSize := List.mem_range.mp hi
      refine Function.update_of_ne (fun he => ?_) _ _
      -- the slot written is none of the occupied ones
      have := ring_index_inj (by omega) hlt he
      omega
  · left
    have := h.sizeLe
    exact ⟨by omega, if_pos hge⟩

theorem enqueueProcess_some {pq pq' : ProcessQueue} (h : pq.WF) {p : PcbPtr}
    (he : pq.enqueueProcess p = some pq') :
    pq.currentSize < pq.maxCapacity ∧ pq'.WF ∧ pq'.toList = pq.toList ++ [p] ∧
      pq'.maxCapacity = pq.maxCapacity ∧ pq'.currentSize = pq.currentSize + 1 := by
  rcases enqueueProcess_cases h p with ⟨_, hnone⟩ | ⟨hlt, pq1, hsome, hfacts⟩
  · rw [hnone] at he
    cases he
  · obtain rfl := Option.some.inj (hsome.symm.trans he)
    exact ⟨hlt, hfacts⟩

/-- The counters after an enqueue, in any state of the ring. -/
theorem enqueueProcess_sizes {pq pq' : ProcessQueue} {p : PcbPtr}
    (he : pq.enqueueProcess p = some pq') :
    pq'.maxCapacity = pq.maxCapacity ∧ pq'.currentSize = pq.currentSize + 1 := by
  unfold enqueueProcess at he
  split at he
  · cases he
  · obtain rfl := Option.some.inj he
    exact ⟨rfl, rfl⟩

/-- The counters after a dequeue, in any state of the ring. -/
theorem dequeueProcess_sizes {pq pq' : ProcessQueue} {p : PcbPtr}
    (he : pq.dequeueProcess = some (p, pq')) :
    pq'.maxCapacity = pq.maxCapacity ∧ pq'.currentSize + 1 = pq.currentSize := by
  unfold dequeueProcess at he
  split at he
  · cases he
  · rename_i hne
    obtain ⟨_, rfl⟩ := Prod.mk.inj (Option.some.inj he)
    exact ⟨rfl, Nat.succ_pred_eq_of_ne_zero hne⟩

/-- What a dequeue does: it fails exactly on the empty queue, and otherwise
takes the head. -/
theorem dequeueProcess_cases {pq : ProcessQueue} (h : pq.WF) :
    (pq.currentSize = 0 ∧ pq.dequeueProcess = none) ∨
    (0 < pq.currentSize ∧ ∃ p pq', pq.dequeueProcess = some (p, pq') ∧ pq'.WF ∧
      pq.toList = p :: pq'.toList ∧ pq'.maxCapacity = pq.maxCapacity ∧
      pq.currentSize = pq'.currentSize + 1) := by
  unfold dequeueProcess
  rcases Nat.eq_zero_or_pos pq.currentSize with h0 | hpos
  · exact .inl ⟨h0, if_pos h0⟩
  · right
    refine ⟨hpos, _, _, if_neg (by omega), ?_, ?_, rfl, ?_⟩
    · exact {
        capPos := h.capPos
        frontLt := Nat.mod_lt _ h.capPos
        sizeLe := by
          show pq.currentSize - 1 ≤ pq.maxCapacity
          have := h.sizeLe
          omega
        rearEq := by
          show (pq.rear + 1) % (pq.maxCapacity : Int) = _
          rw [h.rearEq]
          show _ = (((pq.front + 1) % pq.maxCapacity + (pq.currentSize - 1) : Nat) : Int) % _
          norm_cast
          rw [Nat.mod_add_mod]
          congr 1
          omega }
    · obtain ⟨n, hn⟩ : ∃ n, pq.currentSize = n + 1 := ⟨pq.currentSize - 1, by omega⟩
      simp only [toList, hn, List.range_succ_eq_map, List.map_cons, List.map_map,
        Nat.add_zero, Nat.mod_eq_of_lt h.frontLt, Nat.add_sub_cancel]
      congr 1
      apply List.map_congr_left
      intro i _
      show pq.queue ((pq.front + (i + 1)) % pq.maxCapacity) = _
      congr 1
      show _ = ((pq.front + 1) % pq.maxCapacity + i) % pq.maxCapacity
      rw [Nat.mod_add_mod]
      congr 1
      omega
    · show pq.currentSize = pq.currentSize - 1 + 1
      omega

theorem dequeueProcess_some {pq pq' : ProcessQueue} (h : pq.WF) {p : PcbPtr}
    (hd : pq.dequeueProcess = some (p, pq')) :
    pq'.WF ∧ pq.toList = p :: pq'.toList ∧ pq'.maxCapacity = pq.maxCapacity ∧
      pq.currentSize = pq'.currentSize + 1 := by
  rcases dequeueProcess_cases h with ⟨_, hnone⟩ | ⟨_, q, pq1, hsome, hfacts⟩
  · rw [hnone] at hd
    cases hd
  · obtain ⟨rfl, rfl⟩ := Prod.mk.inj (Option.some.inj (hsome.symm.trans hd))
    exact hfacts

/-- The head is what a dequeue takes. -/
theorem exists_dequeue {pq : ProcessQueue} (h : pq.WF) {p : PcbPtr} {rest : List PcbPtr}
    (hl : pq.toList = p :: rest) :
    ∃ pq', pq.dequeueProcess = some (p, pq') ∧ pq'.toList = rest := by
  rcases dequeueProcess_cases h with ⟨hzero, _⟩ | ⟨_, q, pq', hd, _, hl', _⟩
  · rw [← length_toList, hl] at hzero
    cases hzero
  · obtain ⟨rfl, rfl⟩ := List.cons.inj (hl.symm.trans hl')
    exact ⟨pq', hd, rfl⟩

/-- A queue that took them all had room for them all. -/
theorem enqueueAll_eq_some {pq pq' : ProcessQueue} (h : pq.WF) {ps : List PcbPtr}
    (he : pq.enqueueAll ps = some pq') :
    pq.currentSize + ps.length ≤ pq.maxCapacity ∧ pq'.WF ∧ pq'.toList = pq.toList ++ ps ∧
      pq'.maxCapacity = pq.maxCapacity := by
  induction ps generalizing pq with
  | nil =>
      obtain rfl : pq = pq' := Option.some.inj he
      exact ⟨h.sizeLe, h, by simp, rfl⟩
  | cons p ps ih =>
      rw [enqueueAll] at he
      obtain ⟨pq1, hsome, he⟩ := Option.bind_eq_some_iff.mp he
      obtain ⟨_, hwf, hl, hc, hs⟩ := enqueueProcess_some h hsome
      obtain ⟨hfit, hwf', hl', hc'⟩ := ih hwf he
      refine ⟨?_, hwf', ?_, hc'.trans hc⟩
      · rw [List.length_cons]
        omega
      · rw [hl', hl, List.append_assoc]
        rfl

/-- A queue with room for them all takes them all. -/
theorem exists_enqueueAll {pq : ProcessQueue} (h : pq.WF) {ps : List PcbPtr}
    (hfit : pq.currentSize + ps.length ≤ pq.maxCapacity) : ∃ pq', pq.enqueueAll ps = some pq' := by
  induction ps generalizing pq with
  | nil => exact ⟨pq, rfl⟩
  | cons p ps ih =>
      rw [List.length_cons] at hfit
      rcases enqueueProcess_cases h p with ⟨hfull, _⟩ | ⟨_, pq1, hsome, hwf, _, hcap, hsize⟩
      · omega
      · obtain ⟨pq', he⟩ := ih hwf (by omega)
        exact ⟨pq', by rw [enqueueAll, hsome]; exact he⟩

end ProcessQueue
end LocOS
