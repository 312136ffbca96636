import LocOS.Queue
import LocOS.Slots

/-!
# Waiting

The processes a scheduler holds in its queues, whatever the policy, and what
enqueueing and selection do to them. BFS selection is not covered here: its
removal from the middle of the ring is a subject of its own.
-/

namespace LocOS
namespace Scheduler

open scoped List

/-- The processes in `ready_queue` and in the priority queues. -/
def waiting (sched : Scheduler) : List PcbPtr :=
  sched.readyQueue.toList ++ sched.priorityQueues.flatMap ProcessQueue.toList

theorem waitingCount_eq (sched : Scheduler) : sched.waitingCount = sched.waiting.length := by
  simp [waitingCount, waiting, List.length_flatMap]

/-- Ring invariants of all the queues, one priority queue a level. -/
structure WF (sched : Scheduler) : Prop where
  ready : sched.readyQueue.WF
  levels : ∀ pq ∈ sched.priorityQueues, pq.WF
  numLevels : sched.policy = .preemptivePrio →
    sched.priorityQueues.length = numPriorityLevels

instance (sched : Scheduler) : Decidable sched.WF :=
  decidable_of_iff (sched.readyQueue.WF ∧ (∀ pq ∈ sched.priorityQueues, pq.WF) ∧
      (sched.policy = .preemptivePrio → sched.priorityQueues.length = numPriorityLevels))
    ⟨fun ⟨hready, hlevels, hnum⟩ => ⟨hready, hlevels, hnum⟩,
      fun h => ⟨h.ready, h.levels, h.numLevels⟩⟩

/-- What queue operations never touch. -/
structure SameConfig (sched sched' : Scheduler) : Prop where
  quantum : sched'.quantum = sched.quantum
  policy : sched'.policy = sched.policy
  syncMode : sched'.syncMode = sched.syncMode
  totalCompleted : sched'.totalCompleted = sched.totalCompleted
  readyCapacity : sched'.readyQueue.maxCapacity = sched.readyQueue.maxCapacity
  levelCapacity : sched'.priorityQueues.map (·.maxCapacity) =
    sched.priorityQueues.map (·.maxCapacity)

theorem SameConfig.refl (sched : Scheduler) : SameConfig sched sched :=
  ⟨rfl, rfl, rfl, rfl, rfl, rfl⟩

theorem SameConfig.trans {a b c : Scheduler} (h : SameConfig a b) (h' : SameConfig b c) :
    SameConfig a c :=
  ⟨h'.quantum.trans h.quantum, h'.policy.trans h.policy, h'.syncMode.trans h.syncMode,
    h'.totalCompleted.trans h.totalCompleted, h'.readyCapacity.trans h.readyCapacity,
    h'.levelCapacity.trans h.levelCapacity⟩

theorem SameConfig.setReady (sched : Scheduler) {rq : ProcessQueue}
    (h : rq.maxCapacity = sched.readyQueue.maxCapacity) :
    SameConfig sched { sched with readyQueue := rq } :=
  ⟨rfl, rfl, rfl, rfl, h, rfl⟩

theorem SameConfig.setLevel {sched : Scheduler} {i : Nat} {pq pq' : ProcessQueue}
    (hi : sched.priorityQueues[i]? = some pq) (h : pq'.maxCapacity = pq.maxCapacity) :
    SameConfig sched { sched with priorityQueues := sched.priorityQueues.set i pq' } := by
  refine ⟨rfl, rfl, rfl, rfl, rfl, ?_⟩
  obtain ⟨pre, post, hl, hset⟩ := List.split_set hi
  show (sched.priorityQueues.set i pq').map _ = _
  rw [hset, hl]
  simp [h]

/-! ## Writing one queue -/

theorem WF.setReady {sched : Scheduler} (h : sched.WF) {rq : ProcessQueue} (hrq : rq.WF) :
    ({ sched with readyQueue := rq } : Scheduler).WF :=
  ⟨hrq, h.levels, h.numLevels⟩

theorem WF.setLevel {sched : Scheduler} (h : sched.WF) {pq : ProcessQueue} (hpq : pq.WF)
    (i : Nat) :
    ({ sched with priorityQueues := sched.priorityQueues.set i pq } : Scheduler).WF where
  ready := h.ready
  levels := by
    intro q hq
    rcases List.mem_or_eq_of_mem_set hq with hq | rfl
    · exact h.levels q hq
    · exact hpq
  numLevels := by
    intro hp
    rw [List.length_set]
    exact h.numLevels hp

/-- Rewriting one level exchanges its processes. -/
theorem flatMap_setLevel_perm {qs : List ProcessQueue} {i : Nat} {pq : ProcessQueue}
    (hi : qs[i]? = some pq) (pq' : ProcessQueue) (r s : List PcbPtr)
    (hperm : (pq'.toList ++ r).Perm (pq.toList ++ s)) :
    ((qs.set i pq').flatMap ProcessQueue.toList ++ r).Perm
      (qs.flatMap ProcessQueue.toList ++ s) :=
  List.flatMap_set_perm hi pq' ProcessQueue.toList hperm

/-! ## Enqueue -/

/-- The level `enqueue_to_scheduler` uses, when the priority has one. -/
def levelOf (priority : Int) : Option Nat :=
  if priority < minPriority ∨ maxPriority < priority then none
  else some (priority - minPriority).toNat

/-- The queue the policy puts a process of this priority on. -/
def queueFor? (sched : Scheduler) (priority : Int) : Option ProcessQueue :=
  match sched.policy with
  | .preemptivePrio => (levelOf priority).bind fun i => sched.priorityQueues[i]?
  | _ => some sched.readyQueue

theorem queueFor?_prio {sched : Scheduler} (hp : sched.policy = .preemptivePrio)
    (priority : Int) :
    sched.queueFor? priority = (levelOf priority).bind fun i => sched.priorityQueues[i]? := by
  simp only [queueFor?, hp]

theorem queueFor?_single {sched : Scheduler} (hp : sched.policy ≠ .preemptivePrio)
    (priority : Int) : sched.queueFor? priority = some sched.readyQueue := by
  unfold queueFor?
  cases hpol : sched.policy <;> simp_all

theorem enqueueToScheduler_prio {sched : Scheduler} (hp : sched.policy = .preemptivePrio)
    (pcbs : PcbHeap) (p : PcbPtr) :
    enqueueToScheduler sched pcbs p =
      (levelOf (pcbs.get p).priority).bind fun i =>
        (sched.priorityQueues[i]?).bind fun pq =>
          (pq.enqueueProcess p).map fun pq =>
            { sched with priorityQueues := sched.priorityQueues.set i pq } := by
  simp only [enqueueToScheduler, hp, levelOf]
  split <;> rfl

/-- Under priorities an enqueue appends to the level of the process. -/
theorem enqueue_levels {sched sched' : Scheduler} (hpol : sched.policy = .preemptivePrio)
    {pcbs : PcbHeap} {p : PcbPtr} (he : enqueueToScheduler sched pcbs p = some sched') :
    ∃ i pq pq', levelOf (pcbs.get p).priority = some i ∧ sched.priorityQueues[i]? = some pq ∧
      pq.enqueueProcess p = some pq' ∧
      sched' = { sched with priorityQueues := sched.priorityQueues.set i pq' } := by
  rw [enqueueToScheduler_prio hpol] at he
  obtain ⟨i, hi, he⟩ := Option.bind_eq_some_iff.mp he
  obtain ⟨pq, hpq, he⟩ := Option.bind_eq_some_iff.mp he
  obtain ⟨pq', henq, rfl⟩ := Option.map_eq_some_iff.mp he
  exact ⟨i, pq, pq', hi, hpq, henq, rfl⟩

theorem enqueueToScheduler_single {sched : Scheduler} (hp : sched.policy ≠ .preemptivePrio)
    (pcbs : PcbHeap) (p : PcbPtr) :
    enqueueToScheduler sched pcbs p =
      (sched.readyQueue.enqueueProcess p).map fun rq => { sched with readyQueue := rq } := by
  unfold enqueueToScheduler
  cases hpol : sched.policy <;> simp_all

/-- An enqueue, in any state of the queues. -/
theorem enqueueToScheduler_same {sched sched' : Scheduler} {pcbs : PcbHeap} {p : PcbPtr}
    (he : enqueueToScheduler sched pcbs p = some sched') : SameConfig sched sched' := by
  by_cases hpol : sched.policy = .preemptivePrio
  · obtain ⟨i, pq, pq', _, hpq, henq, rfl⟩ := enqueue_levels hpol he
    exact .setLevel hpq (ProcessQueue.enqueueProcess_sizes henq).1
  · rw [enqueueToScheduler_single hpol] at he
    obtain ⟨rq, henq, rfl⟩ := Option.map_eq_some_iff.mp he
    exact .setReady sched (ProcessQueue.enqueueProcess_sizes henq).1

/-- A selection, in any state of the queues. -/
theorem selectNextProcess_same {sched sched' : Scheduler} {pcbs : PcbHeap} {p : PcbPtr}
    (he : selectNextProcess sched pcbs = some (p, sched')) : SameConfig sched sched' := by
  unfold selectNextProcess at he
  split at he
  · obtain ⟨⟨q, rq⟩, hdeq, he⟩ := Option.map_eq_some_iff.mp he
    obtain ⟨_, rfl⟩ := Prod.mk.inj he
    exact .setReady sched (ProcessQueue.dequeueProcess_sizes hdeq).1
  · split at he
    · cases he
    · dsimp only at he
      split at he
      · cases he
      · obtain ⟨_, rfl⟩ := Prod.mk.inj (Option.some.inj he)
        exact .setReady sched rfl
  · obtain ⟨i, _, he⟩ := Option.bind_eq_some_iff.mp he
    obtain ⟨pq, hpq, he⟩ := Option.bind_eq_some_iff.mp he
    obtain ⟨⟨q, pq'⟩, hdeq, he⟩ := Option.map_eq_some_iff.mp he
    obtain ⟨_, rfl⟩ := Prod.mk.inj he
    exact .setLevel hpq (ProcessQueue.dequeueProcess_sizes hdeq).1

theorem waiting_setReady_perm {sched : Scheduler} {rq : ProcessQueue} {p : PcbPtr}
    (hl : rq.toList = sched.readyQueue.toList ++ [p]) :
    ({ sched with readyQueue := rq } : Scheduler).waiting ~ p :: sched.waiting := by
  simp only [waiting, hl, List.append_assoc]
  exact List.perm_middle

theorem waiting_setLevel_perm {sched : Scheduler} {i : Nat} {pq pq' : ProcessQueue}
    (hi : sched.priorityQueues[i]? = some pq) {p : PcbPtr}
    (hl : pq'.toList = pq.toList ++ [p]) :
    ({ sched with priorityQueues := sched.priorityQueues.set i pq' } : Scheduler).waiting ~
      p :: sched.waiting := by
  have hperm := flatMap_setLevel_perm hi pq' [] [p]
    (by rw [hl, List.append_nil])
  rw [List.append_nil] at hperm
  simp only [waiting]
  calc sched.readyQueue.toList ++
        (sched.priorityQueues.set i pq').flatMap ProcessQueue.toList
      ~ sched.readyQueue.toList ++
        (sched.priorityQueues.flatMap ProcessQueue.toList ++ [p]) :=
          List.Perm.append_left _ hperm
    _ ~ p :: (sched.readyQueue.toList ++
        sched.priorityQueues.flatMap ProcessQueue.toList) := by
          rw [← List.append_assoc]
          exact List.perm_append_singleton ..

/-- What an enqueue does: it fails when the queue of the process is missing
or full, and otherwise the process waits. -/
theorem enqueueToScheduler_cases {sched : Scheduler} (h : sched.WF) (pcbs : PcbHeap)
    (p : PcbPtr) :
    (enqueueToScheduler sched pcbs p = none ∧
      ∀ pq, sched.queueFor? (pcbs.get p).priority = some pq →
        pq.currentSize = pq.maxCapacity) ∨
    ∃ sched' pq, enqueueToScheduler sched pcbs p = some sched' ∧
      sched.queueFor? (pcbs.get p).priority = some pq ∧ pq.currentSize < pq.maxCapacity ∧
      sched'.WF ∧ SameConfig sched sched' ∧ sched'.waiting ~ p :: sched.waiting := by
  by_cases hp : sched.policy = .preemptivePrio
  · rw [enqueueToScheduler_prio hp, queueFor?_prio hp]
    cases hlev : levelOf (pcbs.get p).priority with
    | none => exact .inl ⟨rfl, fun pq hpq => by simp at hpq⟩
    | some i =>
        simp only [Option.bind_some]
        cases hq : sched.priorityQueues[i]? with
        | none => exact .inl ⟨rfl, fun pq hpq => by simp at hpq⟩
        | some pq =>
            have hpq := h.levels pq (List.mem_of_getElem? hq)
            simp only [Option.bind_some]
            rcases ProcessQueue.enqueueProcess_cases hpq p with
              ⟨hfull, he⟩ | ⟨hlt, pq', he, hwf, hl, hcap, _⟩
            · left
              rw [he]
              refine ⟨rfl, fun pq' hpq' => ?_⟩
              obtain rfl : pq = pq' := by simpa using hpq'
              exact hfull
            · right
              rw [he]
              exact ⟨_, pq, rfl, rfl, hlt, h.setLevel hwf i, .setLevel hq hcap,
                waiting_setLevel_perm hq hl⟩
  -- without priorities there is one queue for everybody
  · rw [enqueueToScheduler_single hp, queueFor?_single hp]
    rcases ProcessQueue.enqueueProcess_cases h.ready p with
      ⟨hfull, he⟩ | ⟨hlt, rq, he, hwf, hl, hcap, _⟩
    · left
      rw [he]
      refine ⟨rfl, fun pq hpq => ?_⟩
      obtain rfl : sched.readyQueue = pq := by simpa using hpq
      exact hfull
    · right
      rw [he]
      exact ⟨_, _, rfl, rfl, hlt, h.setReady hwf, .setReady _ hcap,
        waiting_setReady_perm hl⟩

/-- A queue with room refuses nobody. -/
theorem exists_enqueue {sched : Scheduler} (h : sched.WF) {pcbs : PcbHeap} {p : PcbPtr}
    {pq : ProcessQueue} (hpq : sched.queueFor? (pcbs.get p).priority = some pq)
    (hroom : pq.currentSize < pq.maxCapacity) :
    ∃ sched', enqueueToScheduler sched pcbs p = some sched' := by
  rcases enqueueToScheduler_cases h pcbs p with ⟨_, hfull⟩ | ⟨sched', _, he, _⟩
  · have hsize := hfull pq hpq
    omega
  · exact ⟨sched', he⟩

/-! ## Selection -/

theorem waiting_takeLevel_perm {sched : Scheduler} {i : Nat} {pq pq' : ProcessQueue}
    (hi : sched.priorityQueues[i]? = some pq) {p : PcbPtr} (hl : pq.toList = p :: pq'.toList) :
    sched.waiting ~
      p :: ({ sched with
        priorityQueues := sched.priorityQueues.set i pq' } : Scheduler).waiting := by
  have hperm := flatMap_setLevel_perm hi pq' [p] []
    (by rw [hl, List.append_nil]; exact List.perm_append_singleton ..)
  rw [List.append_nil] at hperm
  simp only [waiting]
  calc sched.readyQueue.toList ++ sched.priorityQueues.flatMap ProcessQueue.toList
      ~ sched.readyQueue.toList ++
        ((sched.priorityQueues.set i pq').flatMap ProcessQueue.toList ++ [p]) :=
          List.Perm.append_left _ hperm.symm
    _ ~ p :: (sched.readyQueue.toList ++
        (sched.priorityQueues.set i pq').flatMap ProcessQueue.toList) := by
          rw [← List.append_assoc]
          exact List.perm_append_singleton ..

theorem hasReadyProcesses_iff (sched : Scheduler) :
    hasReadyProcesses sched = true ↔
      if sched.policy = .preemptivePrio then
        ∃ pq ∈ sched.priorityQueues, 0 < pq.currentSize
      else 0 < sched.readyQueue.currentSize := by
  unfold hasReadyProcesses
  cases sched.policy <;> simp

/-- What a selection does under Round Robin and under priorities: when some
process is ready it takes one from the queues. -/
theorem selectNextProcess_cases {sched : Scheduler} (h : sched.WF)
    (hpol : sched.policy ≠ .bfs) (pcbs : PcbHeap)
    (hready : hasReadyProcesses sched = true) :
    ∃ p sched', selectNextProcess sched pcbs = some (p, sched') ∧ sched'.WF ∧
      SameConfig sched sched' ∧ sched.waiting ~ p :: sched'.waiting := by
  rw [hasReadyProcesses_iff] at hready
  cases hp : sched.policy with
  | bfs => exact absurd hp hpol
  | roundRobin =>
      rw [hp, if_neg (by decide)] at hready
      rcases ProcessQueue.dequeueProcess_cases h.ready with
        ⟨h0, _⟩ | ⟨_, p, rq, hd, hwf, hl, hcap, _⟩
      · omega
      · refine ⟨p, { sched with readyQueue := rq }, ?_, h.setReady hwf, .setReady _ hcap, ?_⟩
        · simp [selectNextProcess, hp, hd]
        · simp [waiting, hl]
  | preemptivePrio =>
      rw [hp, if_pos rfl] at hready
      obtain ⟨pq0, hmem0, hpos0⟩ := hready
      cases hfind : sched.priorityQueues.findIdx? fun pq => decide (0 < pq.currentSize) with
      | none =>
          have := List.findIdx?_eq_none_iff.mp hfind pq0 hmem0
          simp at this
          omega
      | some i =>
          obtain ⟨hi, hpos, _⟩ := List.findIdx?_eq_some_iff_getElem.mp hfind
          have hget := List.getElem?_eq_getElem hi
          rw [decide_eq_true_iff] at hpos
          rcases ProcessQueue.dequeueProcess_cases (h.levels _ (List.getElem_mem hi)) with
            ⟨h0, _⟩ | ⟨_, p, pq, hd, hwf, hl, hcap, _⟩
          · omega
          · refine ⟨p, { sched with priorityQueues := sched.priorityQueues.set i pq }, ?_,
              h.setLevel hwf i, .setLevel hget hcap, ?_⟩
            · simp [selectNextProcess, hp, hfind, hget, hd]
            · exact waiting_takeLevel_perm hget hl

end Scheduler
end LocOS
