import LocOS.System
import Mathlib.Algebra.GroupWithZero.Nat

/-!
# Scheduler

One activation of `scheduler_function` under `clk_mutex` (`sys/process.c`,
second half): the backward scan over the executing processes, the transfer
into the priority queues with its preemption, and the dispatch loop, for the
three policies and both synchronisation modes.
-/

namespace LocOS

/-! ## Creation -/

/-- Capacity of each priority level. -/
def priorityQueueCapacity (maxCapacity : Nat) : Nat :=
  if maxCapacity / numPriorityLevels < 2 then 2 else maxCapacity / numPriorityLevels

/-- A quantum below 1 is refused. -/
def createSchedulerWithPolicy (quantum : Int) (policy : Policy) (syncMode : SyncMode)
    (readyQueue : ProcessQueue) : Option Scheduler :=
  if quantum < 1 then none
  else
    some {
      quantum, policy, syncMode, readyQueue
      totalCompleted := 0
      priorityQueues :=
        if policy = .preemptivePrio then
          List.replicate numPriorityLevels
            (createProcessQueue (priorityQueueCapacity readyQueue.maxCapacity))
        else [] }

/-! ## Queues by policy -/

/-- The queues the policy selects from are not all empty. -/
def hasReadyProcesses (sched : Scheduler) : Bool :=
  match sched.policy with
  | .preemptivePrio => sched.priorityQueues.any fun pq => decide (0 < pq.currentSize)
  | _ => decide (0 < sched.readyQueue.currentSize)

/-- `none` is the result -1: the level is full, or the priority out of range. -/
def enqueueToScheduler (sched : Scheduler) (pcbs : PcbHeap) (p : PcbPtr) : Option Scheduler :=
  match sched.policy with
  | .preemptivePrio =>
      let priority := (pcbs.get p).priority
      if priority < minPriority ∨ maxPriority < priority then none
      else
        let queueIdx := (priority - minPriority).toNat
        (sched.priorityQueues[queueIdx]?).bind fun pq =>
          (pq.enqueueProcess p).map fun pq =>
            { sched with priorityQueues := sched.priorityQueues.set queueIdx pq }
  | _ => (sched.readyQueue.enqueueProcess p).map fun rq => { sched with readyQueue := rq }

/-- The BFS scan: `(min_deadline, min_idx, idx)` after the walk over the
queue, -1 doubling as the marker for no minimum yet. -/
def bfsScan (pq : ProcessQueue) (pcbs : PcbHeap) : Int × Int × Nat :=
  Loop.up (fun _ (minDeadline, minIdx, idx) =>
      let deadline := (pcbs.get (pq.queue idx)).virtualDeadline
      let next := (idx + 1) % pq.maxCapacity
      if minDeadline = -1 ∨ deadline < minDeadline then (deadline, (idx : Int), next)
      else (minDeadline, minIdx, next))
    pq.currentSize (-1, -1, pq.front)

/-- Closes the gap at slot `minIdx` by `current_size - 1` shifts, whatever
the position removed. -/
def bfsRemove (pq : ProcessQueue) (minIdx : Nat) : ProcessQueue :=
  let (queue, _) := Loop.up (fun _ (queue, currentIdx) =>
      let nextIdx := (currentIdx + 1) % pq.maxCapacity
      (Function.update queue currentIdx (queue nextIdx), nextIdx))
    (pq.currentSize - 1) (pq.queue, minIdx)
  { pq with
    queue
    currentSize := pq.currentSize - 1
    rear := (pq.rear - 1 + pq.maxCapacity) % pq.maxCapacity }

/-- The process the policy prefers, taken out of its queue. -/
def selectNextProcess (sched : Scheduler) (pcbs : PcbHeap) : Option (PcbPtr × Scheduler) :=
  match sched.policy with
  | .roundRobin =>
      sched.readyQueue.dequeueProcess.map fun (p, rq) => (p, { sched with readyQueue := rq })
  | .bfs =>
      if sched.readyQueue.currentSize = 0 then none
      else
        let (_, minIdx, _) := bfsScan sched.readyQueue pcbs
        if minIdx = -1 then none
        else
          some (sched.readyQueue.queue minIdx.toNat,
            { sched with readyQueue := bfsRemove sched.readyQueue minIdx.toNat })
  | .preemptivePrio =>
      -- the first level with a process is the one of the highest priority
      (sched.priorityQueues.findIdx? fun pq => decide (0 < pq.currentSize)).bind fun queueIdx =>
        (sched.priorityQueues[queueIdx]?).bind fun pq =>
          pq.dequeueProcess.map fun (p, pq) =>
            (p, { sched with priorityQueues := sched.priorityQueues.set queueIdx pq })

/-! ## The scan over executing processes -/

/-- Clears slot `k`, shifts the threads and the legacy copies above it down
by one, and clears the last slot. -/
def Core.removeThread (core : Core) (k : Nat) : Core :=
  let last := (core.currentPcbCount - 1).toNat
  let cleared := { core with hwThreads := core.hwThreads.modify k HardwareThread.clear }
  let shifted := Loop.up (fun l core =>
      { core with
        hwThreads := core.hwThreads.set (k + l) (core.hwThreads.getD (k + l + 1) idleThread)
        pcbs := core.pcbs.set (k + l) (core.pcbs.getD (k + l + 1) default) })
    (last - k) cleared
  { shifted with
    hwThreads := shifted.hwThreads.modify last fun hw => { hw with pcb := none, ptbr := none }
    currentPcbCount := core.currentPcbCount - 1 }

/-- The completion test: EXIT or unknown opcode, or TTL used up. -/
def PCB.finished (pcb : PCB) : Bool := decide (pcb.state = .terminated ∨ pcb.ttl ≤ 0)

/-- In timer mode one activation uses the quantum up. -/
def quantumExpired (sched : Scheduler) (pcb : PCB) : Bool :=
  match sched.syncMode with
  | .timer => decide (1 ≤ pcb.quantumCounter)
  | .clock => decide (sched.quantum ≤ pcb.quantumCounter)

/-- `T_actual + (quantum * priority) / 100`, the division truncating. -/
def bfsDeadline (sched : Scheduler) (clkCounter priority : Int) : Int :=
  clkCounter + (sched.quantum * priority).tdiv 100

/-- What the scan does with a process that has finished: its PCB is freed, its
page table and frames are not. -/
def completeThread (i j k : Nat) (core : Core) (p : PcbPtr) (s : Sys) : Sys :=
  { s with
    machine := s.machine.setCore i j (core.removeThread k)
    sched := { s.sched with totalCompleted := s.sched.totalCompleted + 1 }
    pcbs := s.pcbs.destroyPcb p
    log := s.log ++ [Event.completed p (s.pcbs.get p).pid] }

/-- What the quantum expiry saves into the PCB. -/
def PCB.suspend (pcb : PCB) (hw : HardwareThread) : PCB :=
  { pcb with
    context := { pc := hw.pc, instruction := hw.ir, registers := hw.registers }
    state := .waiting
    quantumCounter := 0 }

/-- The result of `enqueue_to_scheduler` is ignored: on failure the process
is on no queue, and it leaves its thread all the same. -/
def expireThread (i j k : Nat) (core : Core) (hw : HardwareThread) (p : PcbPtr) (s : Sys) : Sys :=
  let pcb := (s.pcbs.get p).suspend hw
  let pcb :=
    if s.sched.policy = .bfs then
      { pcb with virtualDeadline := bfsDeadline s.sched s.clkCounter pcb.priority }
    else pcb
  let pcbs := s.pcbs.set p pcb
  let enqueued := enqueueToScheduler s.sched pcbs p
  { s with
    machine := s.machine.setCore i j (core.removeThread k)
    sched := enqueued.getD s.sched
    pcbs
    log := s.log ++ [Event.expired p pcb.pid enqueued.isSome] }

/-- The body of the scan's loop over hardware threads. -/
def scanThread (i j k : Nat) (s : Sys) : Sys :=
  match s.machine.slot? i j k with
  | none => s
  | some (core, hw, p) =>
      let pcb := s.pcbs.get p
      let pcb := { pcb with quantumCounter := pcb.quantumCounter + 1 }
      let s := { s with pcbs := s.pcbs.set p pcb }
      if pcb.finished then completeThread i j k core p s
      else if quantumExpired s.sched pcb then expireThread i j k core hw p s
      else s

/-- Backwards from `current_pcb_count - 1`, so that a removal shifts only
slots already visited. -/
def scanCore (s : Sys) (ij : Nat × Nat) : Sys :=
  match s.machine.core? ij.1 ij.2 with
  | none => s
  | some core => Loop.down (scanThread ij.1 ij.2) core.currentPcbCount.toNat s

/-- The scan over all cores, at the start of a pass. -/
def scanMachine (s : Sys) : Sys := s.machine.coreIndices.foldl scanCore s

/-! ## Preemption -/

/-- The result of `get_lowest_priority_executing` and its three out-parameters. -/
structure Lowest where
  priority : Int
  cpuIdx : Int
  coreIdx : Int
  threadIdx : Int
  deriving DecidableEq, Repr

/-- Reads the legacy copies of the counted slots; `MAX_PRIORITY + 1` doubles
as the marker for none yet. -/
def getLowestPriorityExecuting (m : Machine) : Lowest :=
  m.coreIndices.foldl (fun low (i, j) =>
      match m.core? i j with
      | none => low
      | some core =>
          Loop.up (fun k low =>
              let priority := (core.pcbs.getD k default).priority
              if low.priority < priority ∨ low.priority = maxPriority + 1 then
                { priority, cpuIdx := i, coreIdx := j, threadIdx := k }
              else low)
            core.currentPcbCount.toNat low)
    { priority := maxPriority + 1, cpuIdx := -1, coreIdx := -1, threadIdx := -1 }

/-- The copy of the preempted process that goes back to its queue, made from
the legacy array: the saved context and the memory fields are those of a new
PCB. -/
def PCB.savedCopy (preempted : PCB) : PCB :=
  { createPcb preempted.pid with
    state := .waiting
    priority := preempted.priority
    ttl := preempted.ttl
    initialTtl := preempted.initialTtl
    quantumCounter := 0
    virtualDeadline := preempted.virtualDeadline }

/-- What preemption removes from the core: the legacy copy and one from the
count. The hardware threads stay as they are. -/
def Core.dropLegacy (core : Core) (threadIdx : Nat) : Core :=
  let last := (core.currentPcbCount - 1).toNat
  { Loop.up (fun l core =>
        { core with
          pcbs := core.pcbs.set (threadIdx + l) (core.pcbs.getD (threadIdx + l + 1) default) })
      (last - threadIdx) core with
    currentPcbCount := core.currentPcbCount - 1 }

/-- The least important executing process makes room for `new_pcb` if that is
more important, one at most; only the bookkeeping of its core sees it leave. -/
def preemptLowerPriorityProcesses (s : Sys) (newPcb : PcbPtr) : Sys :=
  if s.sched.policy ≠ .preemptivePrio then s
  else
    let low := getLowestPriorityExecuting s.machine
    if low.priority ≠ maxPriority + 1 ∧ (s.pcbs.get newPcb).priority < low.priority then
      match s.machine.core? low.cpuIdx.toNat low.coreIdx.toNat with
      | none => s
      | some core =>
          -- the copy made at the assignment, not the PCB of the victim
          let preempted := core.pcbs.getD low.threadIdx.toNat default
          let (saved, pcbs) := s.pcbs.alloc preempted.savedCopy
          let enqueued := enqueueToScheduler s.sched pcbs saved
          { s with
            machine := s.machine.setCore low.cpuIdx.toNat low.coreIdx.toNat
              (core.dropLegacy low.threadIdx.toNat)
            sched := enqueued.getD s.sched
            pcbs
            log := s.log ++ [Event.preempted newPcb preempted.pid saved enqueued.isSome] }
    else s

/-! ## Transfer and dispatch -/

/-- From `ready_queue` into the priority queues, until one is full. An
iteration that does not leave the loop shortens `ready_queue`, so its size
bounds them. -/
def transferReady : Nat → Sys → Sys
  | 0, s => s
  | n + 1, s =>
      match s.sched.readyQueue.dequeueProcess with
      | none => s
      | some (p, rq) =>
          let s := { s with sched := { s.sched with readyQueue := rq } }
          let s :=
            if canCpuExecuteProcess s.machine then s
            else preemptLowerPriorityProcesses s p
          match enqueueToScheduler s.sched s.pcbs p with
          | some sched => transferReady n { s with sched }
          | none =>
              -- the level is full: back to the rear of `ready_queue`, and out of the loop
              let rq := s.sched.readyQueue
              { s with sched := { s.sched with readyQueue := (rq.enqueueProcess p).getD rq } }

/-- The fields a dispatch sets before the assignment. -/
def PCB.start (pcb : PCB) (sched : Scheduler) (clkCounter : Int) : PCB :=
  let pcb := { pcb with state := .running, quantumCounter := 0 }
  if sched.policy = .bfs ∧ pcb.virtualDeadline = 0 then
    { pcb with virtualDeadline := bfsDeadline sched clkCounter pcb.priority }
  else pcb

/-- The dispatch loop. Each iteration takes a process from the queues, so
their total size bounds them. -/
def dispatchReady : Nat → Sys → Sys
  | 0, s => s
  | n + 1, s =>
      if hasReadyProcesses s.sched && canCpuExecuteProcess s.machine then
        match selectNextProcess s.sched s.pcbs with
        | none => s
        | some (p, sched) =>
            let pcb := (s.pcbs.get p).start sched s.clkCounter
            let pcbs := s.pcbs.set p pcb
            match assignProcessToCore s.machine pcbs p with
            | some machine =>
                dispatchReady n
                  { s with machine, sched, pcbs, log := s.log ++ [Event.assigned p pcb.pid] }
            | none =>
                -- no core took it: back to its queue, with the fields just set
                let enqueued := enqueueToScheduler sched pcbs p
                { s with
                  sched := enqueued.getD sched
                  pcbs
                  log := s.log ++ [Event.putBack p pcb.pid enqueued.isSome] }
      else s

/-- Processes in `ready_queue` and the priority queues. -/
def Scheduler.waitingCount (sched : Scheduler) : Nat :=
  sched.readyQueue.currentSize + (sched.priorityQueues.map (·.currentSize)).sum

/-- One activation of the scheduler, from lock to unlock. -/
def schedulerPass (s : Sys) : Sys :=
  let s := scanMachine s
  let s :=
    if s.sched.policy = .preemptivePrio then transferReady s.sched.readyQueue.currentSize s
    else s
  dispatchReady s.sched.waitingCount s

end LocOS
