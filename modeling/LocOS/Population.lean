import LocOS.Pass
import LocOS.Transfer

/-!
# Population

How many processes the system counts: in `ready_queue`, in the priority
queues and in the cores' `current_pcb_count`. A tick leaves the number alone
and a pass never raises it, whatever the queues and the cores hold.
-/

namespace LocOS

/-! ## The counters -/

/-- The sum of `current_pcb_count` over all cores. -/
def countExecutingProcesses (m : Machine) : Int := (m.cores.map Core.currentPcbCount).sum

/-- The sum of `current_size` over the priority levels. -/
def countProcessesInPriorityQueues (sched : Scheduler) : Nat :=
  (sched.priorityQueues.map (·.currentSize)).sum

/-- `total_processes`, as the generator computes it before it creates one. -/
def Sys.population (s : Sys) : Int :=
  s.sched.readyQueue.currentSize + countExecutingProcesses s.machine +
    countProcessesInPriorityQueues s.sched

theorem Sys.population_eq (s : Sys) :
    s.population = countExecutingProcesses s.machine + s.sched.waitingCount := by
  unfold population countProcessesInPriorityQueues Scheduler.waitingCount
  omega

theorem countExecutingProcesses_setCore {m : Machine} {i j : Nat} {old : Core}
    (hcore : m.core? i j = some old) (new : Core) :
    countExecutingProcesses (m.setCore i j new) =
      countExecutingProcesses m + (new.currentPcbCount - old.currentPcbCount) := by
  obtain ⟨pre, post, hm, hset⟩ := Machine.split_core hcore
  unfold countExecutingProcesses
  rw [hset, hm]
  simp only [List.map_append, List.map_cons, List.sum_append, List.sum_cons]
  omega

theorem Core.setThread_currentPcbCount (core : Core) (k : Nat) (hw : HardwareThread) :
    (core.setThread k hw).currentPcbCount = core.currentPcbCount := rfl

theorem Core.removeThread_currentPcbCount (core : Core) (k : Nat) :
    (core.removeThread k).currentPcbCount = core.currentPcbCount - 1 := rfl

theorem Core.dropLegacy_currentPcbCount (core : Core) (k : Nat) :
    (core.dropLegacy k).currentPcbCount = core.currentPcbCount - 1 := rfl

theorem Core.assign_currentPcbCount (core : Core) (p : PcbPtr) (pcb : PCB) :
    (core.assign p pcb).currentPcbCount = core.currentPcbCount + 1 := rfl

/-! ## The queues -/

namespace Scheduler

variable {sched sched' : Scheduler}

theorem waitingCount_setReady {n : Nat} (rq : ProcessQueue)
    (h : rq.currentSize = sched.readyQueue.currentSize + n) :
    ({ sched with readyQueue := rq } : Scheduler).waitingCount = sched.waitingCount + n := by
  unfold waitingCount
  dsimp only
  omega

theorem waitingCount_setLevel {i : Nat} {pq : ProcessQueue}
    (h : sched.priorityQueues[i]? = some pq) (pq' : ProcessQueue) :
    ({ sched with priorityQueues := sched.priorityQueues.set i pq' } : Scheduler).waitingCount +
        pq.currentSize =
      sched.waitingCount + pq'.currentSize := by
  obtain ⟨pre, post, hl, hset⟩ := List.split_set h
  unfold waitingCount
  dsimp only
  rw [hset, hl]
  simp only [List.map_append, List.map_cons, List.sum_append, List.sum_cons]
  omega

/-- A process filed is one more waiting. -/
theorem waitingCount_enqueue {pcbs : PcbHeap} {p : PcbPtr}
    (h : enqueueToScheduler sched pcbs p = some sched') :
    sched'.waitingCount = sched.waitingCount + 1 := by
  by_cases hpol : sched.policy = .preemptivePrio
  · obtain ⟨i, pq, pq', _, hpq, henq, rfl⟩ := enqueue_levels hpol h
    have hsize := (ProcessQueue.enqueueProcess_sizes henq).2
    have hset := waitingCount_setLevel hpq pq'
    omega
  · rw [enqueueToScheduler_single hpol] at h
    obtain ⟨rq, henq, rfl⟩ := Option.map_eq_some_iff.mp h
    exact waitingCount_setReady rq (ProcessQueue.enqueueProcess_sizes henq).2

/-- A process that may have been refused. -/
theorem waitingCount_enqueue_le (sched : Scheduler) (pcbs : PcbHeap) (p : PcbPtr) :
    ((enqueueToScheduler sched pcbs p).getD sched).waitingCount ≤ sched.waitingCount + 1 := by
  cases h : enqueueToScheduler sched pcbs p with
  | none => exact Nat.le_succ _
  | some sched' => exact Nat.le_of_eq (waitingCount_enqueue h)

/-- The transfer's way back to `ready_queue`. -/
theorem waitingCount_back (sched : Scheduler) (p : PcbPtr) :
    ({ sched with
      readyQueue := (sched.readyQueue.enqueueProcess p).getD sched.readyQueue } :
        Scheduler).waitingCount ≤ sched.waitingCount + 1 := by
  cases h : sched.readyQueue.enqueueProcess p with
  | none => exact Nat.le_succ _
  | some rq =>
      exact Nat.le_of_eq (waitingCount_setReady rq (ProcessQueue.enqueueProcess_sizes h).2)

/-- A process selected is one less waiting, under every policy. -/
theorem waitingCount_select {pcbs : PcbHeap} {p : PcbPtr}
    (h : selectNextProcess sched pcbs = some (p, sched')) :
    sched'.waitingCount + 1 = sched.waitingCount := by
  unfold selectNextProcess at h
  split at h
  · obtain ⟨⟨q, rq⟩, hdeq, h⟩ := Option.map_eq_some_iff.mp h
    obtain ⟨_, rfl⟩ := Prod.mk.inj h
    have hsize := (ProcessQueue.dequeueProcess_sizes hdeq).2
    unfold waitingCount
    dsimp only
    omega
  · split at h
    · cases h
    · rename_i hne
      dsimp only at h
      split at h
      · cases h
      · obtain ⟨_, rfl⟩ := Prod.mk.inj (Option.some.inj h)
        unfold waitingCount bfsRemove
        dsimp only
        omega
  · obtain ⟨i, _, h⟩ := Option.bind_eq_some_iff.mp h
    obtain ⟨pq, hpq, h⟩ := Option.bind_eq_some_iff.mp h
    obtain ⟨⟨q, pq'⟩, hdeq, h⟩ := Option.map_eq_some_iff.mp h
    obtain ⟨_, rfl⟩ := Prod.mk.inj h
    have hsize := (ProcessQueue.dequeueProcess_sizes hdeq).2
    have hset := waitingCount_setLevel hpq pq'
    omega

end Scheduler

/-! ## Ticks and passes -/

theorem tickThread_population (i j k : Nat) (s : Sys) :
    (tickThread i j k s).population = s.population := by
  rcases tickThread_cases i j k s with
    ⟨_, he⟩ | ⟨core, hw, p, _, _, he⟩ | ⟨core, hw, p, pm, base, hslot, _, _, _, he⟩
  · rw [he]
  · rw [he]
    rfl
  · rw [he, Sys.population_eq, Sys.population_eq]
    simp only [Sys.absorb]
    rw [countExecutingProcesses_setCore (Machine.slot?_eq_some.mp hslot).1,
      Core.setThread_currentPcbCount, Int.sub_self, Int.add_zero]

theorem clockTick_population (s : Sys) : (clockTick s).population = s.population :=
  clockTick_inv (fun t => t.population = s.population) rfl
    fun i j k t ht => (tickThread_population i j k t).trans ht

/-- A process that ends is no longer counted; one whose quantum is used up
moves to a queue, or is lost. -/
theorem scanThread_population (i j k : Nat) (s : Sys) :
    (scanThread i j k s).population ≤ s.population := by
  cases hslot : s.machine.slot? i j k with
  | none =>
      unfold scanThread
      rw [hslot]
  | some slot =>
      obtain ⟨core, hw, p⟩ := slot
      have hcount := countExecutingProcesses_setCore (Machine.slot?_eq_some.mp hslot).1
        (core.removeThread k)
      rw [Core.removeThread_currentPcbCount] at hcount
      rcases scanThread_cases hslot with ⟨_, he⟩ | ⟨_, _, he⟩ | ⟨_, _, he⟩
      · rw [he, Sys.population_eq, Sys.population_eq]
        show countExecutingProcesses (s.machine.setCore i j (core.removeThread k)) +
          s.sched.waitingCount ≤ _
        omega
      · rw [he, Sys.population_eq, Sys.population_eq]
        have hfile := Scheduler.waitingCount_enqueue_le s.sched
          ((s.charge p).pcbs.set p (expiredPcb (s.charge p) hw p)) p
        show countExecutingProcesses (s.machine.setCore i j (core.removeThread k)) +
          ((enqueueToScheduler s.sched ((s.charge p).pcbs.set p
            (expiredPcb (s.charge p) hw p)) p).getD s.sched).waitingCount ≤ _
        omega
      · rw [he]
        rfl

theorem scanMachine_population (s : Sys) : (scanMachine s).population ≤ s.population := by
  refine Loop.foldl_inv (fun t : Sys => t.population ≤ s.population) (le_refl _) ?_
  intro ij _ t ht
  unfold scanCore
  split
  · exact ht
  · exact Loop.down_inv (fun _ (t : Sys) => t.population ≤ s.population) ht
      fun k t _ ht => le_trans (scanThread_population ij.1 ij.2 k t) ht

theorem preempt_population (s : Sys) (p : PcbPtr) :
    (preemptLowerPriorityProcesses s p).population ≤ s.population := by
  by_cases hpol : s.sched.policy = .preemptivePrio
  · rcases preempt_cases hpol p with ⟨_, he⟩ | ⟨_, i, j, k, core, hcore, _, _, he⟩
    · rw [he]
    · rw [he, Sys.population_eq, Sys.population_eq]
      have hcount := countExecutingProcesses_setCore hcore (core.dropLegacy k)
      rw [Core.dropLegacy_currentPcbCount] at hcount
      have hfile := Scheduler.waitingCount_enqueue_le s.sched
        (s.pcbs.alloc (core.pcbs.getD k default).savedCopy).2 s.pcbs.next
      simp only [Sys.preempted]
      omega
  · unfold preemptLowerPriorityProcesses
    rw [if_pos hpol]

theorem Sys.population_filed {s : Sys} {sched : Scheduler}
    (h : sched.waitingCount ≤ s.sched.waitingCount + 1) :
    ({ s with sched } : Sys).population ≤ s.population + 1 := by
  rw [population_eq, population_eq]
  dsimp only
  omega

theorem transferReady_population (n : Nat) (s : Sys) :
    (transferReady n s).population ≤ s.population := by
  induction n generalizing s with
  | zero => exact le_refl _
  | succ n ih =>
      unfold transferReady
      split
      · exact le_refl _
      · rename_i p rq hdeq
        have hsize := (ProcessQueue.dequeueProcess_sizes hdeq).2
        have htaken : ({ s with sched := { s.sched with readyQueue := rq } } : Sys).population + 1 =
            s.population := by
          unfold Sys.population countProcessesInPriorityQueues
          dsimp only
          omega
        have hroom : (if canCpuExecuteProcess s.machine then
              ({ s with sched := { s.sched with readyQueue := rq } } : Sys)
            else preemptLowerPriorityProcesses
              { s with sched := { s.sched with readyQueue := rq } } p).population + 1 ≤
            s.population := by
          split
          · exact le_of_eq htaken
          · have hpreempt := preempt_population
              { s with sched := { s.sched with readyQueue := rq } } p
            omega
        dsimp only
        split
        · rename_i sched henq
          have hfile := Scheduler.waitingCount_enqueue henq
          exact le_trans (ih _) (le_trans (Sys.population_filed (le_of_eq hfile)) hroom)
        · exact le_trans (Sys.population_filed (Scheduler.waitingCount_back ..)) hroom

theorem dispatchReady_population (n : Nat) (s : Sys) :
    (dispatchReady n s).population ≤ s.population := by
  induction n generalizing s with
  | zero => exact le_refl _
  | succ n ih =>
      unfold dispatchReady
      split
      · split
        · exact le_refl _
        · rename_i p sched hsel
          have hsize := Scheduler.waitingCount_select hsel
          rcases s.machine.assignProcessToCore_cases (s.started sched p) p with
            ⟨_, hnone⟩ | ⟨i, j, core, hcore, _, hassign⟩
          · rw [Sys.started] at hnone
            simp only [hnone]
            have hfile := Scheduler.waitingCount_enqueue_le sched (s.started sched p) p
            rw [Sys.population_eq, Sys.population_eq]
            show countExecutingProcesses s.machine +
              ((enqueueToScheduler sched (s.started sched p) p).getD sched).waitingCount ≤ _
            omega
          · rw [Sys.started] at hassign
            simp only [hassign]
            refine le_trans (ih _) ?_
            have hcount := countExecutingProcesses_setCore hcore
              (core.assign p ((s.started sched p).get p))
            rw [Core.assign_currentPcbCount] at hcount
            rw [Sys.population_eq, Sys.population_eq]
            show countExecutingProcesses
              (s.machine.setCore i j (core.assign p ((s.started sched p).get p))) +
                sched.waitingCount ≤ _
            omega
      · exact le_refl _

theorem schedulerPass_population (s : Sys) : (schedulerPass s).population ≤ s.population := by
  have hscan := scanMachine_population s
  unfold schedulerPass
  dsimp only
  split
  · exact le_trans (dispatchReady_population _ _) (le_trans (transferReady_population _ _) hscan)
  · exact le_trans (dispatchReady_population _ _) hscan

theorem Sys.next_population (s : Sys) (a : Action) : (s.next a).population ≤ s.population := by
  cases a with
  | tick => exact le_of_eq (clockTick_population s)
  | pass => exact schedulerPass_population s

/-! ## The heap -/

/-- A pass frees PCBs, but never takes a place twice. -/
theorem PassKeeps.heapGrows {n : PcbPtr} : PassKeeps fun s => n ≤ s.pcbs.next where
  scan := by
    intro i j k s hs
    cases hslot : s.machine.slot? i j k with
    | none =>
        unfold scanThread
        rw [hslot]
        exact hs
    | some slot =>
        rcases scanThread_cases hslot with ⟨_, he⟩ | ⟨_, _, he⟩ | ⟨_, _, he⟩
        all_goals
          rw [he]
          exact hs
  preempt := by
    intro p s hs
    by_cases hpol : s.sched.policy = .preemptivePrio
    · rcases preempt_cases hpol p with ⟨_, he⟩ | ⟨_, i, j, k, core, _, _, _, he⟩
      · rwa [he]
      · rw [he]
        exact Nat.le_succ_of_le hs
    · unfold preemptLowerPriorityProcesses
      rwa [if_pos hpol]
  queues := fun _ _ hs => hs
  dispatch := fun _ _ _ _ _ _ _ hs => hs
  putBack := fun _ _ _ _ hs => hs

end LocOS
