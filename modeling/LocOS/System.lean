import LocOS.Machine

/-!
# System

The state the clock and the scheduler share under `clk_mutex`, and the clock
tick (`sys/clock.c`). A tick advances every busy hardware thread by one
instruction.
-/

namespace LocOS

/-! ## Scheduler state (`sys/process.h`) -/

/-- `SCHED_POLICY_ROUND_ROBIN`, `SCHED_POLICY_BFS` and
`SCHED_POLICY_PREEMPTIVE_PRIO`. -/
inductive Policy where
  | roundRobin
  | bfs
  | preemptivePrio
  deriving DecidableEq, Repr

/-- `SCHED_SYNC_CLOCK` and `SCHED_SYNC_TIMER`. -/
inductive SyncMode where
  | clock
  | timer
  deriving DecidableEq, Repr

/-- `priorityQueues` is empty where the source has the null pointer. -/
structure Scheduler where
  quantum : Int
  policy : Policy
  syncMode : SyncMode
  readyQueue : ProcessQueue
  priorityQueues : List ProcessQueue
  totalCompleted : Int

/-- The state of a running system: `running` stays 1, the clock has its
machine reference, and `clockPmRef` is its reference to physical memory. -/
structure Sys where
  clkCounter : Int
  clockPmRef : Option PhysicalMemory
  machine : Machine
  sched : Scheduler
  pcbs : PcbHeap
  log : List Event

/-- The core, thread and process of a busy slot. -/
def Machine.slot? (m : Machine) (i j k : Nat) : Option (Core × HardwareThread × PcbPtr) :=
  (m.core? i j).bind fun core =>
    (core.hwThreads[k]?).bind fun hw =>
      hw.pcb.map fun p => (core, hw, p)

/-! ## The clock tick -/

/-- The body of `clock_function`'s loop over hardware threads: TTL first,
then one instruction cycle unless the process is terminated. -/
def tickThread (i j k : Nat) (s : Sys) : Sys :=
  match s.machine.slot? i j k with
  | none => s
  | some (core, hw, p) =>
      let s := { s with pcbs := s.pcbs.set p (s.pcbs.get p).decrementTtl }
      match s.clockPmRef with
      | none => s
      | some pm =>
          -- terminated but not yet removed: its thread stays busy until the next scan
          if (s.pcbs.get p).state = .terminated then s
          else
            let e := executeInstructionCycle { hw, pm, pcbs := s.pcbs, log := s.log }
            { s with
              machine := s.machine.setCore i j
                { core with hwThreads := core.hwThreads.set k e.hw }
              clockPmRef := some e.pm
              pcbs := e.pcbs
              log := e.log }

/-- The loop over the hardware threads of a core, counted or not. -/
def tickCore (s : Sys) (ij : Nat × Nat) : Sys :=
  match s.machine.core? ij.1 ij.2 with
  | none => s
  | some core => Loop.up (tickThread ij.1 ij.2) core.numKernelThreads s

/-- The critical section of `clock_function` up to its broadcast. -/
def clockTick (s : Sys) : Sys :=
  let s := { s with
    clkCounter := s.clkCounter + 1
    log := s.log ++ [Event.tick (s.clkCounter + 1)] }
  s.machine.coreIndices.foldl tickCore s

end LocOS
