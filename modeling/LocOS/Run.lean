import LocOS.Lib.Runs
import LocOS.Scheduler

/-!
# Run

Runs of a booted system: clock ticks and scheduler activations in any order,
each one atomic under `clk_mutex`.
-/

namespace LocOS

/-- The critical sections of the clock and of the scheduler. -/
inductive Action where
  | tick
  | pass
  deriving DecidableEq, Repr

/-- A critical section, in one step. -/
def Sys.next (s : Sys) : Action → Sys
  | .tick => clockTick s
  | .pass => schedulerPass s

/-- What `main` sets up before it starts the scheduler, the loaded processes
apart. It replaces a queue size that is not positive by 100. -/
structure Config where
  quantum : Int
  policy : Policy
  syncMode : SyncMode
  readyQueueSize : Nat
  machine : Machine
  clockPmRef : Option PhysicalMemory
  sizePos : 0 < readyQueueSize

/-- The loaded PCBs, each at the pointer of its position. -/
def bootHeap (pcbs : List PCB) : PcbHeap := ⟨fun p => pcbs[p]?, pcbs.length⟩

/-- The state in which `main` starts the scheduler: every loaded process is
in `ready_queue`, in load order. `none` when `create_scheduler_with_policy`
refuses the quantum or a process does not fit. -/
def boot (cfg : Config) (pcbs : List PCB) : Option Sys :=
  (createSchedulerWithPolicy cfg.quantum cfg.policy cfg.syncMode
      (createProcessQueue cfg.readyQueueSize)).bind fun sched =>
    (sched.readyQueue.enqueueAll (List.range pcbs.length)).map fun rq =>
      { clkCounter := 0
        clockPmRef := cfg.clockPmRef
        machine := cfg.machine
        sched := { sched with readyQueue := rq }
        pcbs := bootHeap pcbs
        log := [] }

theorem boot_clkCounter {cfg : Config} {pcbs : List PCB} {s : Sys}
    (h : boot cfg pcbs = some s) : s.clkCounter = 0 := by
  obtain ⟨sched, _, h⟩ := Option.bind_eq_some_iff.mp h
  obtain ⟨rq, _, rfl⟩ := Option.map_eq_some_iff.mp h
  rfl

/-- The runs of the system booted with these processes. -/
def sysRuns (cfg : Config) (pcbs : List PCB) : Runs Sys Action where
  init s := boot cfg pcbs = some s
  step s a t := t = s.next a

theorem reachable_next {cfg : Config} {pcbs : List PCB} {s : Sys}
    (h : (sysRuns cfg pcbs).Reachable s) (a : Action) :
    (sysRuns cfg pcbs).Reachable (s.next a) := h.step rfl

theorem restricted_next {cfg : Config} {pcbs : List PCB} {ok : Sys → Action → Prop} {s : Sys}
    (h : ((sysRuns cfg pcbs).restrict ok).Reachable s) (a : Action) (hok : ok s a) :
    ((sysRuns cfg pcbs).restrict ok).Reachable (s.next a) := h.step ⟨hok, rfl⟩

/-- One core, the default queue size, and no physical memory connected: the
machine of the concrete runs below. -/
def oneCore (numThreads : Nat) (policy : Policy) (quantum : Int) : Config where
  quantum := quantum
  policy := policy
  syncMode := .clock
  readyQueueSize := 100
  machine := createMachine 1 1 numThreads
  clockPmRef := none
  sizePos := by decide

/-- A process fresh from the loader, as far as the scheduler is concerned. -/
def loadedPcb (pid priority : Int) : PCB := ((createPcb pid).setPriority priority).setTtl 10

theorem get_bootHeap {pcbs : List PCB} {p : PcbPtr} {pcb : PCB} (h : pcbs[p]? = some pcb) :
    (bootHeap pcbs).get p = pcb := by
  simp [PcbHeap.get, bootHeap, h]

/-- The boot heap read in load order. -/
theorem map_get_bootHeap (pcbs : List PCB) :
    (List.range pcbs.length).map (bootHeap pcbs).get = pcbs := by
  apply List.ext_getElem
  · simp
  · intro i hi _
    have hi : i < pcbs.length := by simpa using hi
    simp [get_bootHeap (List.getElem?_eq_getElem hi)]

theorem live_bootHeap {pcbs : List PCB} {p : PcbPtr} :
    (bootHeap pcbs).Live p ↔ p < pcbs.length := by
  simp [PcbHeap.Live, bootHeap]

end LocOS
