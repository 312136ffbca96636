import LocOS.Waiting
import LocOS.Lib.Least

/-!
# BfsQueue

The selection of `SCHED_POLICY_BFS` on the ring buffer. The scan returns a
slot of the queue, and the removal closes the gap by `current_size - 1`
shifts from that slot on, one for every other process, wherever the slot is.
The shifts behind the last process move stale slots; only when they come
around to the front of a nearly full ring do they move processes.
-/

namespace LocOS
namespace ProcessQueue

/-- The slot of the process at logical position `i`. -/
def slotAt (pq : ProcessQueue) (i : Nat) : Nat := (pq.front + i) % pq.maxCapacity

theorem toList_eq (pq : ProcessQueue) :
    pq.toList = (List.range pq.currentSize).map fun i => pq.queue (pq.slotAt i) := rfl

theorem getElem?_toList (pq : ProcessQueue) (i : Nat) :
    pq.toList[i]? = if i < pq.currentSize then some (pq.queue (pq.slotAt i)) else none := by
  rw [toList_eq, List.getElem?_map]
  split
  · rename_i hi
    rw [List.getElem?_range hi]
    rfl
  · rename_i hi
    rw [List.getElem?_eq_none (by simpa using hi)]
    rfl

/-! ## The scan -/

/-- The virtual deadline of the process at logical position `i`. -/
def deadlineAt (pq : ProcessQueue) (pcbs : PcbHeap) (i : Nat) : Int :=
  (pcbs.get (pq.queue (pq.slotAt i))).virtualDeadline

theorem slotAt_succ (pq : ProcessQueue) (i : Nat) :
    (pq.slotAt i + 1) % pq.maxCapacity = pq.slotAt (i + 1) := by
  rw [slotAt, slotAt, Nat.mod_add_mod, Nat.add_assoc]

/-- The walk over the slots is a scan over the positions, with the marker -1
for none found yet. -/
theorem bfsScan_walk (pq : ProcessQueue) (pcbs : PcbHeap) (h : pq.WF) (n : Nat) :
    Loop.up (fun _ (minDeadline, minIdx, idx) =>
        let deadline := (pcbs.get (pq.queue idx)).virtualDeadline
        let next := (idx + 1) % pq.maxCapacity
        if minDeadline = -1 ∨ deadline < minDeadline then (deadline, (idx : Int), next)
        else (minDeadline, minIdx, next)) n ((-1 : Int), (-1 : Int), pq.front) =
      ((Least.scan (-1) (pq.deadlineAt pcbs) n).1,
        ((Least.scan (-1) (pq.deadlineAt pcbs) n).2.map fun i => (pq.slotAt i : Int)).getD (-1),
        pq.slotAt n) := by
  induction n with
  | zero =>
      have hfront : pq.slotAt 0 = pq.front := Nat.mod_eq_of_lt h.frontLt
      rw [hfront]
      rfl
  | succ n ih =>
      rw [Loop.up_succ, ih, Least.scan]
      dsimp only
      rw [slotAt_succ, show (pcbs.get (pq.queue (pq.slotAt n))).virtualDeadline =
        pq.deadlineAt pcbs n from rfl]
      by_cases htake : (Least.scan (-1) (pq.deadlineAt pcbs) n).1 = -1 ∨
          pq.deadlineAt pcbs n < (Least.scan (-1) (pq.deadlineAt pcbs) n).1
      · rw [if_pos htake, if_pos htake]
        rfl
      · rw [if_neg htake, if_neg htake]

/-- The scan of a queue that is not empty finds one of its positions. It is
that of the first of the least deadlines exactly when the marker does no
harm. -/
theorem bfsScan_found {pq : ProcessQueue} (pcbs : PcbHeap) (h : pq.WF)
    (hpos : 0 < pq.currentSize) :
    ∃ i, i < pq.currentSize ∧ (bfsScan pq pcbs).2.1 = (pq.slotAt i : Int) ∧
      (Least.First (pq.deadlineAt pcbs) pq.currentSize i ↔
        Least.MarkHarmless (-1) (pq.deadlineAt pcbs) pq.currentSize) := by
  obtain ⟨i, hi, hscan⟩ := Least.scan_found (-1) (pq.deadlineAt pcbs) hpos
  refine ⟨i, hi, ?_, Least.scan_first_iff _ _ hpos hscan⟩
  rw [bfsScan, bfsScan_walk pq pcbs h, hscan]
  rfl

/-- Among deadlines that are not negative the scan finds the position of the
least. -/
theorem bfsScan_position {pq : ProcessQueue} (pcbs : PcbHeap) (h : pq.WF)
    (hpos : 0 < pq.currentSize) :
    ∃ i, i < pq.currentSize ∧ (bfsScan pq pcbs).2.1 = (pq.slotAt i : Int) ∧
      ((∀ q ∈ pq.toList, 0 ≤ (pcbs.get q).virtualDeadline) → ∀ q ∈ pq.toList,
        (pcbs.get (pq.queue (pq.slotAt i))).virtualDeadline ≤ (pcbs.get q).virtualDeadline) := by
  obtain ⟨i, hi, hslot, hfirst⟩ := bfsScan_found pcbs h hpos
  refine ⟨i, hi, hslot, fun hnonneg q hq => ?_⟩
  have hharmless : Least.MarkHarmless (-1) (pq.deadlineAt pcbs) pq.currentSize := by
    intro j hj hmark
    have hmem : pq.queue (pq.slotAt j) ∈ pq.toList := by
      rw [toList_eq]
      exact List.mem_map_of_mem (List.mem_range.mpr (Nat.lt_of_succ_lt hj))
    have hle := hnonneg _ hmem
    rw [deadlineAt] at hmark
    omega
  rw [toList_eq] at hq
  obtain ⟨k, hk, rfl⟩ := List.mem_map.mp hq
  exact (hfirst.mpr hharmless).le k (List.mem_range.mp hk)

/-! ## The removal -/

/-- After `n` shifts from position `i` on, the ring seen from there has moved
up by one in its first `n` slots. -/
theorem shifted_queue {pq : ProcessQueue} (i n : Nat) (hn : n + 1 ≤ pq.maxCapacity) :
    let shifted := Loop.up (fun _ (queue, currentIdx) =>
      let nextIdx := (currentIdx + 1) % pq.maxCapacity
      (Function.update queue currentIdx (queue nextIdx), nextIdx)) n (pq.queue, pq.slotAt i)
    shifted.2 = pq.slotAt (i + n) ∧ ∀ k, k < pq.maxCapacity →
      shifted.1 (pq.slotAt (i + k)) =
        pq.queue (pq.slotAt (if k < n then i + k + 1 else i + k)) := by
  induction n with
  | zero => exact ⟨rfl, fun k _ => rfl⟩
  | succ n ih =>
      obtain ⟨hidx, hqueue⟩ := ih (Nat.le_of_succ_le hn)
      dsimp only at hidx hqueue ⊢
      rw [Loop.up_succ]
      generalize Loop.up _ n _ = shifted at hidx hqueue ⊢
      obtain ⟨queue, currentIdx⟩ := shifted
      dsimp only at hidx hqueue ⊢
      rw [hidx, slotAt_succ]
      refine ⟨rfl, fun k hk => ?_⟩
      by_cases hkn : k = n
      · rw [hkn, Function.update_self, if_pos (Nat.lt_succ_self n)]
        have hread := hqueue (n + 1) hn
        rw [if_neg (by omega)] at hread
        exact hread
      -- the slot written is no other one of the ring
      · have hne : pq.slotAt (i + k) ≠ pq.slotAt (i + n) := by
          intro he
          rw [slotAt, slotAt, ← Nat.add_assoc, ← Nat.add_assoc] at he
          exact hkn (ring_index_inj hk (by omega) he)
        rw [Function.update_of_ne hne, hqueue k hk]
        by_cases hlt : k < n
        · rw [if_pos hlt, if_pos (by omega)]
        · rw [if_neg hlt, if_neg (by omega)]

/-- Position `i` can be removed: the shifts end before they come around to the
front of the queue. -/
def RemovalFits (pq : ProcessQueue) (i : Nat) : Prop := i + pq.currentSize ≤ pq.maxCapacity + 1

instance (pq : ProcessQueue) (i : Nat) : Decidable (pq.RemovalFits i) :=
  inferInstanceAs (Decidable (_ ≤ _))

/-- The removal of position `i`, position by position: those from `i` on move
up, and so do the first ones when the shifts come around to them. -/
theorem bfsRemove_slot {pq : ProcessQueue} (h : pq.WF) {i : Nat} (hi : i < pq.currentSize) {j : Nat}
    (hj : j < pq.currentSize - 1) :
    (bfsRemove pq (pq.slotAt i)).queue (pq.slotAt j) =
      pq.queue (pq.slotAt
        (if j < i then (if j + pq.maxCapacity + 1 < i + pq.currentSize then j + 1 else j)
        else j + 1)) := by
  have hle := h.sizeLe
  have hroom : pq.currentSize - 1 + 1 ≤ pq.maxCapacity := by
    omega
  have hshift := (shifted_queue i (pq.currentSize - 1) hroom).2
  have hturn : ∀ k, pq.slotAt (k + pq.maxCapacity) = pq.slotAt k := by
    intro k
    rw [slotAt, slotAt, ← Nat.add_assoc, Nat.add_mod_right]
  by_cases hji : j < i
  -- seen from slot `i`, the positions before it come last
  · have hread := hshift (j + pq.maxCapacity - i) (by omega)
    rw [show i + (j + pq.maxCapacity - i) = j + pq.maxCapacity by omega, hturn] at hread
    rw [if_pos hji]
    refine hread.trans ?_
    by_cases hwrap : j + pq.maxCapacity + 1 < i + pq.currentSize
    · rw [if_pos (by omega), if_pos hwrap, Nat.add_right_comm, hturn]
    · rw [if_neg (by omega), if_neg hwrap, hturn]
  · have hmove := hshift (j - i) (by omega)
    rw [if_pos (by omega), show i + (j - i) = j by omega] at hmove
    rw [if_neg hji]
    exact hmove

theorem bfsRemove_wf {pq : ProcessQueue} (h : pq.WF) (hpos : 0 < pq.currentSize) (slot : Nat) :
    (bfsRemove pq slot).WF where
  capPos := h.capPos
  frontLt := h.frontLt
  sizeLe := Nat.le_trans (Nat.sub_le _ 1) h.sizeLe
  rearEq := by
    show ((pq.rear - 1 + pq.maxCapacity) % (pq.maxCapacity : Int) + 1) % (pq.maxCapacity : Int) =
      ((pq.front + (pq.currentSize - 1) : Nat) : Int) % (pq.maxCapacity : Int)
    have hrear : (pq.rear + 1 - 1) % (pq.maxCapacity : Int) =
        (((pq.front + pq.currentSize : Nat) : Int) - 1) % (pq.maxCapacity : Int) :=
      Int.ModEq.sub_right 1 h.rearEq
    rw [Int.emod_add_emod, show pq.rear - 1 + pq.maxCapacity + 1 =
      pq.rear + 1 - 1 + pq.maxCapacity by omega, Int.add_emod_right, hrear]
    congr 1
    omega

/-- The shifts that come around to the front move nothing: the processes
there are one and the same. -/
def ShiftsHarmless (pq : ProcessQueue) (i : Nat) : Prop :=
  ∀ j, j + pq.maxCapacity + 1 < i + pq.currentSize →
    pq.queue (pq.slotAt (j + 1)) = pq.queue (pq.slotAt j)

theorem RemovalFits.harmless {pq : ProcessQueue} {i : Nat} (h : pq.RemovalFits i) :
    pq.ShiftsHarmless i := by
  intro j hj
  unfold RemovalFits at h
  omega

/-- The queue without position `i` is what the removal leaves exactly when
the shifts that come around do no harm. -/
theorem bfsRemove_toList_iff {pq : ProcessQueue} (h : pq.WF) {i : Nat} (hi : i < pq.currentSize) :
    (bfsRemove pq (pq.slotAt i)).toList = pq.toList.eraseIdx i ↔ pq.ShiftsHarmless i := by
  have hle := h.sizeLe
  have hleft : ∀ j, (bfsRemove pq (pq.slotAt i)).toList[j]? =
      if j < pq.currentSize - 1 then
        some ((bfsRemove pq (pq.slotAt i)).queue (pq.slotAt j)) else none :=
    fun j => getElem?_toList _ j
  have hright : ∀ j, (pq.toList.eraseIdx i)[j]? =
      if j < pq.currentSize - 1 then
        some (pq.queue (pq.slotAt (if j < i then j else j + 1))) else none := by
    intro j
    rw [List.getElem?_eraseIdx, getElem?_toList, getElem?_toList]
    by_cases hj : j < pq.currentSize - 1
    · rw [if_pos hj, if_pos (by omega : j < pq.currentSize),
        if_pos (by omega : j + 1 < pq.currentSize)]
      split <;> rfl
    · rw [if_neg hj, if_neg (by omega : ¬ j < i), if_neg (by omega : ¬ j + 1 < pq.currentSize)]
  constructor
  · intro he j hj
    have hread := congrArg (·[j]?) he
    rw [hleft, hright, if_pos (by omega), if_pos (by omega), bfsRemove_slot h hi (by omega),
      if_pos (by omega), if_pos hj, if_pos (by omega)] at hread
    exact Option.some.inj hread
  · intro hsame
    apply List.ext_getElem?
    intro j
    rw [hleft, hright]
    by_cases hj : j < pq.currentSize - 1
    · rw [if_pos hj, if_pos hj, bfsRemove_slot h hi hj]
      by_cases hji : j < i
      · rw [if_pos hji, if_pos hji]
        split
        · rename_i hwrap
          rw [hsame j hwrap]
        · rfl
      · rw [if_neg hji, if_neg hji]
    · rw [if_neg hj, if_neg hj]

/-- The removal of a position that fits. -/
theorem bfsRemove_spec {pq : ProcessQueue} (h : pq.WF) {i : Nat} (hi : i < pq.currentSize)
    (hfits : pq.RemovalFits i) :
    (bfsRemove pq (pq.slotAt i)).toList = pq.toList.eraseIdx i ∧
      (bfsRemove pq (pq.slotAt i)).WF :=
  ⟨(bfsRemove_toList_iff h hi).mpr hfits.harmless, bfsRemove_wf h (Nat.zero_lt_of_lt hi) _⟩

end ProcessQueue

/-! ## The selection -/

namespace Scheduler

open scoped List

/-- The position the scan finds can be removed. -/
def SelectionFits (sched : Scheduler) (pcbs : PcbHeap) : Prop :=
  ∀ i, i < sched.readyQueue.currentSize →
    (bfsScan sched.readyQueue pcbs).2.1 = (sched.readyQueue.slotAt i : Int) →
    sched.readyQueue.RemovalFits i

instance (sched : Scheduler) (pcbs : PcbHeap) : Decidable (sched.SelectionFits pcbs) :=
  inferInstanceAs (Decidable (∀ i, i < sched.readyQueue.currentSize →
    (bfsScan sched.readyQueue pcbs).2.1 = (sched.readyQueue.slotAt i : Int) →
    i + sched.readyQueue.currentSize ≤ sched.readyQueue.maxCapacity + 1))

/-- A selection under BFS returns the process at some position, and among
deadlines that are not negative one with the least. -/
theorem selectNextProcess_position {sched : Scheduler} (h : sched.WF) (hpol : sched.policy = .bfs)
    (pcbs : PcbHeap) (hready : hasReadyProcesses sched = true) :
    ∃ i, i < sched.readyQueue.currentSize ∧
      (bfsScan sched.readyQueue pcbs).2.1 = (sched.readyQueue.slotAt i : Int) ∧
      selectNextProcess sched pcbs = some (sched.readyQueue.queue (sched.readyQueue.slotAt i),
        { sched with readyQueue := bfsRemove sched.readyQueue (sched.readyQueue.slotAt i) }) ∧
      ((∀ q ∈ sched.readyQueue.toList, 0 ≤ (pcbs.get q).virtualDeadline) →
        ∀ q ∈ sched.readyQueue.toList,
          (pcbs.get (sched.readyQueue.queue (sched.readyQueue.slotAt i))).virtualDeadline ≤
            (pcbs.get q).virtualDeadline) := by
  have hpos : 0 < sched.readyQueue.currentSize := by
    rw [hasReadyProcesses_iff, if_neg (by rw [hpol]; decide)] at hready
    exact hready
  obtain ⟨i, hi, hfound, hleast⟩ := ProcessQueue.bfsScan_position pcbs h.ready hpos
  refine ⟨i, hi, hfound, ?_, hleast⟩
  have hne : ¬ ((sched.readyQueue.slotAt i : Nat) : Int) = -1 := by omega
  simp only [selectNextProcess, hpol, if_neg (Nat.ne_of_gt hpos), hfound, if_neg hne,
    Int.toNat_natCast]

/-- A selection under BFS whose removal fits takes one process from
`ready_queue`. -/
theorem selectNextProcess_bfs {sched : Scheduler} (h : sched.WF) (hpol : sched.policy = .bfs)
    (pcbs : PcbHeap) (hfits : sched.SelectionFits pcbs)
    (hready : hasReadyProcesses sched = true) :
    ∃ p sched', selectNextProcess sched pcbs = some (p, sched') ∧ sched'.WF ∧
      SameConfig sched sched' ∧ sched.waiting ~ p :: sched'.waiting := by
  obtain ⟨i, hi, hfound, hsel, _⟩ := selectNextProcess_position h hpol pcbs hready
  obtain ⟨hlist, hwf⟩ := ProcessQueue.bfsRemove_spec h.ready hi (hfits i hi hfound)
  refine ⟨_, _, hsel, h.setReady hwf, .setReady _ rfl, ?_⟩
  have hget : sched.readyQueue.toList[i]? =
      some (sched.readyQueue.queue (sched.readyQueue.slotAt i)) := by
    rw [ProcessQueue.getElem?_toList, if_pos hi]
  have hperm := List.perm_cons_eraseIdx hget
  simp only [waiting, hlist]
  exact hperm.append_right _

end Scheduler
end LocOS
