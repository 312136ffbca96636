import LocOS.Mirror
import LocOS.Transfer
import LocOS.Run

/-!
# Victim

What `preempt_lower_priority_processes` does to the process it preempts. The
quantum expiry saves the context of the hardware thread into the PCB and
takes the process off its thread; preemption makes a new PCB from the legacy
copy and lowers the count, and the process stays on its thread.
-/

namespace LocOS

/-- `new_pcb` preempts: the policy has priorities, the occupied threads of
each core are the counted ones, some process executes with a lower priority,
and the queue of that process has room. -/
structure PreemptionDue (s : Sys) (newPcb : PcbPtr) : Prop where
  policy : s.sched.policy = .preemptivePrio
  compact : s.machine.Compact
  outranks : s.Outranks newPcb
  room : ∃ pq, s.sched.queueFor? (getLowestPriorityExecuting s.machine).priority = some pq ∧
    pq.currentSize < pq.maxCapacity

/-- `q` is what process `p` on thread `hw` has to resume from: its PID, its
remaining TTL, its memory and the context of the thread. -/
structure Resumes (s t : Sys) (hw : HardwareThread) (p q : PcbPtr) : Prop where
  pid : (t.pcbs.get q).pid = (s.pcbs.get p).pid
  priority : (t.pcbs.get q).priority = (s.pcbs.get p).priority
  ttl : (t.pcbs.get q).ttl = (s.pcbs.get p).ttl
  mm : (t.pcbs.get q).mm = (s.pcbs.get p).mm
  pc : (t.pcbs.get q).context.pc = hw.pc
  instruction : (t.pcbs.get q).context.instruction = hw.ir
  registers : (t.pcbs.get q).context.registers = hw.registers

/-- The step from `s` to `t` moves the process `p` on slot `k` of core
`(i, j)` to the rear of its priority queue, and nothing else. -/
structure Evicts (s t : Sys) (i j k : Nat) (core : Core) (hw : HardwareThread) (p : PcbPtr) :
    Prop where
  queued : ∃ pq pq' q, s.sched.queueFor? (s.pcbs.get p).priority = some pq ∧
    t.sched.queueFor? (s.pcbs.get p).priority = some pq' ∧ pq'.toList = pq.toList ++ [q] ∧
    Resumes s t hw p q
  offThreads : ∀ core ∈ t.machine.cores, ∀ hw ∈ core.hwThreads, hw.pcb ≠ some p
  others : ∃ core', t.machine.core? i j = some core' ∧
    core'.hwThreads.filter (·.pcb.isSome) =
      (core.hwThreads.filter (·.pcb.isSome)).eraseIdx k ∧
    core'.currentPcbCount = core.currentPcbCount - 1

/-- The process that is preempted, on its slot. -/
theorem PreemptionDue.found {s : Sys} {newPcb : PcbPtr} (h : PreemptionDue s newPcb) :
    ∃ i j k core hw p, s.machine.slot? i j k = some (core, hw, p) ∧
      getLowestPriorityExecuting s.machine = ⟨(core.pcbs.getD k default).priority, i, j, k⟩ ∧
      preemptLowerPriorityProcesses s newPcb = s.preempted newPcb i j k core := by
  rcases preempt_cases h.policy newPcb with ⟨hno, _⟩ | ⟨_, i, j, k, core, hcore, hk, hlow, he⟩
  · exact absurd h.outranks hno
  · obtain ⟨ps, hps⟩ := h.compact core (Machine.mem_cores_of_core? hcore)
    have hlt : k < ps.length := by
      rw [hps.count] at hk
      exact hk
    obtain ⟨hw, hget, hp⟩ := hps.counts.slot k _ (List.getElem?_eq_getElem hlt)
    exact ⟨i, j, k, core, hw, _, Machine.slot?_eq_some.mpr ⟨hcore, hget, hp⟩, hlow, he⟩

/-- The process stays on its thread. -/
theorem slot_preempted {s : Sys} (newPcb : PcbPtr) {i j k : Nat} {core : Core}
    {hw : HardwareThread} {p : PcbPtr} (h : s.machine.slot? i j k = some (core, hw, p)) :
    (s.preempted newPcb i j k core).machine.slot? i j k = some (core.dropLegacy k, hw, p) := by
  obtain ⟨hcore, hget, hp⟩ := Machine.slot?_eq_some.mp h
  refine Machine.slot?_eq_some.mpr ⟨Machine.core?_setCore_self _ hcore, ?_, hp⟩
  rw [Core.dropLegacy_hwThreads]
  exact hget

/-- The PCB that goes to the queue has no page table and an empty context. -/
theorem get_preempted (s : Sys) (newPcb : PcbPtr) (i j k : Nat) (core : Core) :
    ((s.preempted newPcb i j k core).pcbs.get s.pcbs.next).mm = (createPcb 0).mm ∧
      ((s.preempted newPcb i j k core).pcbs.get s.pcbs.next).context = (createPcb 0).context := by
  have hget : (s.preempted newPcb i j k core).pcbs.get s.pcbs.next =
      (core.pcbs.getD k default).savedCopy := PcbHeap.get_alloc_self ..
  rw [hget]
  exact ⟨rfl, rfl⟩

/-- Preemption never evicts: whenever it is due, the process it chose is
still on its hardware thread afterwards. A process that has a page table
cannot resume from what goes to the queue. -/
theorem preempt_not_evicts {s : Sys} {newPcb : PcbPtr} (h : PreemptionDue s newPcb) :
    ∃ i j k core hw p, s.machine.slot? i j k = some (core, hw, p) ∧
      getLowestPriorityExecuting s.machine = ⟨(core.pcbs.getD k default).priority, i, j, k⟩ ∧
      ¬ Evicts s (preemptLowerPriorityProcesses s newPcb) i j k core hw p ∧
      ((s.pcbs.get p).mm.pgb.isSome →
        ¬ Resumes s (preemptLowerPriorityProcesses s newPcb) hw p s.pcbs.next) := by
  obtain ⟨i, j, k, core, hw, p, hslot, hlow, he⟩ := h.found
  rw [he]
  refine ⟨i, j, k, core, hw, p, hslot, hlow, fun hev => ?_, fun hpgb hres => ?_⟩
  · obtain ⟨hcore, hget, hp⟩ :=
      Machine.slot?_eq_some.mp (slot_preempted newPcb hslot)
    exact hev.offThreads _ (Machine.mem_cores_of_core? hcore) hw (List.mem_of_getElem? hget) hp
  · rw [← hres.mm, (get_preempted s newPcb i j k core).1] at hpgb
    cases hpgb

/-- A process of priority 5 with a page table runs on the only thread; a
process of priority -5 has arrived. -/
def arrival : Sys where
  clkCounter := 1
  clockPmRef := none
  machine := { cpus := [{ cores := [(createCore 1).assign 0
    { loadedPcb 1 5 with mm := { code := 0, data := 8, pgb := some 0 } }] }] }
  sched := {
    quantum := 10
    policy := .preemptivePrio
    syncMode := .clock
    readyQueue := createProcessQueue 100
    priorityQueues := List.replicate numPriorityLevels (createProcessQueue 2)
    totalCompleted := 0 }
  pcbs := bootHeap [{ loadedPcb 1 5 with mm := { code := 0, data := 8, pgb := some 0 } },
    loadedPcb 2 (-5)]
  log := []

theorem arrival_due : PreemptionDue arrival 1 where
  policy := rfl
  compact := by
    intro core hcore
    obtain rfl := List.mem_singleton.mp hcore
    exact ⟨[0], (Core.createCore_holds 1).assign (by decide) 0 _⟩
  outranks := by decide
  room := ⟨createProcessQueue 2, rfl, by decide⟩

theorem arrival_not_evicts : ∃ i j k core hw p,
    arrival.machine.slot? i j k = some (core, hw, p) ∧
      getLowestPriorityExecuting arrival.machine =
        ⟨(core.pcbs.getD k default).priority, i, j, k⟩ ∧
      ¬ Evicts arrival (preemptLowerPriorityProcesses arrival 1) i j k core hw p ∧
      ((arrival.pcbs.get p).mm.pgb.isSome →
        ¬ Resumes arrival (preemptLowerPriorityProcesses arrival 1) hw p arrival.pcbs.next) :=
  preempt_not_evicts arrival_due

/-- The process stays on its thread, and what is queued for it has lost the
page table. -/
theorem arrival_stays :
    (((preemptLowerPriorityProcesses arrival 1).machine.slot? 0 0 0).any fun (core, hw, p) =>
        core.currentPcbCount = 0 ∧ hw.pcb = some 0 ∧ p = 0) = true ∧
      (((preemptLowerPriorityProcesses arrival 1).sched.priorityQueues[25]?).any fun pq =>
        pq.toList = [2]) = true ∧
      (arrival.pcbs.get 0).mm.pgb = some 0 ∧
      ((preemptLowerPriorityProcesses arrival 1).pcbs.get 2).mm.pgb = none := by
  decide +kernel

end LocOS
