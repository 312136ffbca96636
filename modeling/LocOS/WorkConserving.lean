import LocOS.Dispatch
import LocOS.Generator
import LocOS.Ranks
import Mathlib.Algebra.BigOperators.Ring.Finset

/-!
# WorkConserving

No policy leaves a hardware thread unused while a process is ready for it.
The dispatch loop does its work on well formed queues and on counts in range;
both are kept by every critical section under every policy, by the removals
that lose processes and the preemptions that leave threads stale as well.
-/

namespace LocOS

/-! ## Counts in range -/

theorem Machine.Bounded.setCore {m : Machine} (h : m.Bounded) {i j : Nat} {old new : Core}
    (hcore : m.core? i j = some old) (hpos : 0 ≤ new.currentPcbCount)
    (hle : new.currentPcbCount ≤ new.numKernelThreads) : (m.setCore i j new).Bounded := by
  intro core hmem
  rcases mem_setCore hcore hmem with rfl | hmem
  · exact ⟨hpos, hle⟩
  · exact h core hmem

/-- A core in range with one process less, on as many threads. -/
theorem Machine.Bounded.lower {m : Machine} (h : m.Bounded) {i j : Nat} {old new : Core}
    (hcore : m.core? i j = some old) (hcount : 1 ≤ old.currentPcbCount)
    (hlower : new.currentPcbCount = old.currentPcbCount - 1)
    (hthreads : new.numKernelThreads = old.numKernelThreads) : (m.setCore i j new).Bounded := by
  have hold := (h old (mem_cores_of_core? hcore)).2
  refine h.setCore hcore ?_ ?_
  · omega
  · rw [hthreads]
    omega

theorem Core.dropLegacy_numKernelThreads (core : Core) (k : Nat) :
    (core.dropLegacy k).numKernelThreads = core.numKernelThreads := by
  rw [numKernelThreads, dropLegacy_hwThreads, numKernelThreads]

/-! ## The invariant -/

/-- What every critical section keeps, whatever the policy: the queues are
rings, the counts are in range, and no thread was added or removed. -/
structure Sound (threads : Nat) (s : Sys) : Prop where
  queues : s.sched.WF
  bounded : s.machine.Bounded
  threads : s.machine.threadCount = threads

namespace Sound

variable {threads : Nat} {s : Sys}

/-- A process filed, or refused. -/
theorem enqueue_getD {sched : Scheduler} (h : sched.WF) (pcbs : PcbHeap) (p : PcbPtr) :
    ((enqueueToScheduler sched pcbs p).getD sched).WF := by
  rcases Scheduler.enqueueToScheduler_cases h pcbs p with
    ⟨hnone, _⟩ | ⟨sched', _, hsome, _, _, hwf, _⟩
  · rw [hnone]
    exact h
  · rw [hsome]
    exact hwf

/-- A step that changes neither the queues nor the machine. -/
theorem same (h : Sound threads s) {t : Sys} (hsched : t.sched = s.sched)
    (hmachine : t.machine = s.machine) : Sound threads t where
  queues := hsched ▸ h.queues
  bounded := hmachine ▸ h.bounded
  threads := hmachine ▸ h.threads

/-- A process leaves the count of its core. -/
theorem lower (h : Sound threads s) {t : Sys} {i j : Nat} {old new : Core} (hwf : t.sched.WF)
    (hmachine : t.machine = s.machine.setCore i j new)
    (hcore : s.machine.core? i j = some old) (hcount : 1 ≤ old.currentPcbCount)
    (hlower : new.currentPcbCount = old.currentPcbCount - 1)
    (hthreads : new.numKernelThreads = old.numKernelThreads) : Sound threads t where
  queues := hwf
  bounded := hmachine ▸ h.bounded.lower hcore hcount hlower hthreads
  threads := by
    rw [hmachine, Machine.threadCount_setCore hcore hthreads]
    exact h.threads

/-! ### A tick -/

theorem tickThread (h : Sound threads s) (i j k : Nat) :
    Sound threads (LocOS.tickThread i j k s) := by
  rcases tickThread_cases i j k s with
    ⟨_, he⟩ | ⟨core, hw, p, _, _, he⟩ | ⟨core, hw, p, pm, base, hslot, _, _, _, he⟩
  · rw [he]
    exact h
  · rw [he]
    exact h.same rfl rfl
  · obtain ⟨hcore, _⟩ := Machine.slot?_eq_some.mp hslot
    have hold := h.bounded core (Machine.mem_cores_of_core? hcore)
    rw [he]
    refine ⟨h.queues, h.bounded.setCore hcore hold.1 ?_, ?_⟩
    · rw [Core.setThread_numKernelThreads]
      exact hold.2
    · exact (Machine.threadCount_setCore hcore (Core.setThread_numKernelThreads ..)).trans h.threads

theorem clockTick (h : Sound threads s) : Sound threads (LocOS.clockTick s) :=
  clockTick_inv (Sound threads) (h.same rfl rfl) fun i j k _ ht => ht.tickThread i j k

/-! ### The scan -/

/-- A visit keeps the invariant and takes one from the count of its core at
most. -/
theorem scanThread (h : Sound threads s) {i j : Nat} {core : Core}
    (hcore : s.machine.core? i j = some core) (hcount : 1 ≤ core.currentPcbCount) (k : Nat) :
    Sound threads (LocOS.scanThread i j k s) ∧
      ∃ core', (LocOS.scanThread i j k s).machine.core? i j = some core' ∧
        core.currentPcbCount - 1 ≤ core'.currentPcbCount := by
  cases hslot : s.machine.slot? i j k with
  | none =>
      unfold LocOS.scanThread
      rw [hslot]
      exact ⟨h, core, hcore, by omega⟩
  | some slot =>
      obtain ⟨core', hw, p⟩ := slot
      obtain rfl : core' = core :=
        Option.some.inj ((Machine.slot?_eq_some.mp hslot).1.symm.trans hcore)
      have hself := Machine.core?_setCore_self (core'.removeThread k) hcore
      have hthreads := core'.removeThread_numKernelThreads k
      rcases scanThread_cases hslot with ⟨_, he⟩ | ⟨_, _, he⟩ | ⟨_, _, he⟩
      · rw [he]
        exact ⟨h.lower ⟨h.queues.ready, h.queues.levels, h.queues.numLevels⟩ rfl hcore hcount rfl
          hthreads, _, hself, Int.le_refl _⟩
      · rw [he]
        exact ⟨h.lower (enqueue_getD h.queues _ p) rfl hcore hcount rfl hthreads, _, hself,
          Int.le_refl _⟩
      · rw [he]
        exact ⟨h.same rfl rfl, core', hcore, by omega⟩

/-- The visits go down from the count, so a count that a removal lowers still
covers the slots to come. -/
theorem scanCore (h : Sound threads s) (ij : Nat × Nat) : Sound threads (LocOS.scanCore s ij) := by
  unfold LocOS.scanCore
  cases hcore : s.machine.core? ij.1 ij.2 with
  | none => exact h
  | some core =>
      have hinv := @Loop.down_inv _ (LocOS.scanThread ij.1 ij.2) core.currentPcbCount.toNat s
        (fun n t => Sound threads t ∧
          ∃ c, t.machine.core? ij.1 ij.2 = some c ∧ (n : Int) ≤ c.currentPcbCount) ?_ ?_
      · exact hinv.1
      · have hpos := (h.bounded core (Machine.mem_cores_of_core? hcore)).1
        exact ⟨h, core, hcore, by omega⟩
      · rintro n t - ⟨ht, c, hc, hn⟩
        obtain ⟨hnext, c', hc', hle⟩ := ht.scanThread hc (by omega) n
        exact ⟨hnext, c', hc', by omega⟩

theorem scanMachine (h : Sound threads s) : Sound threads (LocOS.scanMachine s) :=
  Loop.foldl_inv (Sound threads) h fun ij _ _ ht => ht.scanCore ij

/-! ### The transfer -/

theorem preempt (h : Sound threads s) (p : PcbPtr) :
    Sound threads (preemptLowerPriorityProcesses s p) := by
  by_cases hpol : s.sched.policy = .preemptivePrio
  · rcases preempt_cases hpol p with ⟨_, he⟩ | ⟨_, i, j, k, core, hcore, hk, _, he⟩
    · rw [he]
      exact h
    -- the victim is on a counted slot, so there is one to take from the count
    · rw [he]
      exact h.lower (enqueue_getD h.queues _ _) rfl hcore (by omega) rfl
        (core.dropLegacy_numKernelThreads k)
  · unfold preemptLowerPriorityProcesses
    rw [if_pos hpol]
    exact h

theorem transferReady (h : Sound threads s) (n : Nat) :
    Sound threads (LocOS.transferReady n s) := by
  induction n generalizing s with
  | zero => exact h
  | succ n ih =>
      unfold LocOS.transferReady
      cases hdeq : s.sched.readyQueue.dequeueProcess with
      | none => exact h
      | some taken =>
          obtain ⟨p, rq⟩ := taken
          dsimp only
          have hrq := (ProcessQueue.dequeueProcess_some h.queues.ready hdeq).1
          have htaken : Sound threads { s with sched := { s.sched with readyQueue := rq } } :=
            ⟨h.queues.setReady hrq, h.bounded, h.threads⟩
          have hroom : Sound threads (if canCpuExecuteProcess s.machine then
                ({ s with sched := { s.sched with readyQueue := rq } } : Sys)
              else preemptLowerPriorityProcesses
                { s with sched := { s.sched with readyQueue := rq } } p) := by
            split
            · exact htaken
            · exact htaken.preempt p
          revert hroom
          generalize (if canCpuExecuteProcess s.machine then
              ({ s with sched := { s.sched with readyQueue := rq } } : Sys)
            else preemptLowerPriorityProcesses
              { s with sched := { s.sched with readyQueue := rq } } p) = t
          intro ht
          rcases Scheduler.enqueueToScheduler_cases ht.queues t.pcbs p with
            ⟨hnone, _⟩ | ⟨sched, _, hsome, _, _, hwf, _⟩
          · rw [hnone]
            refine ⟨ht.queues.setReady ?_, ht.bounded, ht.threads⟩
            cases hback : t.sched.readyQueue.enqueueProcess p with
            | none => exact ht.queues.ready
            | some back => exact (ProcessQueue.enqueueProcess_some ht.queues.ready hback).2.1
          · rw [hsome]
            exact ih ⟨hwf, ht.bounded, ht.threads⟩

/-! ### The dispatch -/

theorem dispatched (h : Sound threads s) {p : PcbPtr} {sched : Scheduler} {i j : Nat} {core : Core}
    (hwf : sched.WF) (hcore : s.machine.core? i j = some core) (hspace : core.hasSpace = true) :
    Sound threads (s.dispatched sched p i j core) where
  queues := hwf
  bounded := h.bounded.assign hcore hspace p _
  threads := (Machine.threadCount_setCore hcore (Core.assign_numKernelThreads ..)).trans h.threads

/-- The loop ends on its guard: each dispatch is one ready process less, and
there are no more of them than iterations. -/
theorem dispatchReady (h : Sound threads s) (n : Nat) (hn : s.sched.ready.length ≤ n) :
    Sound threads (LocOS.dispatchReady n s) ∧ (LocOS.dispatchReady n s).dispatchGuard = false := by
  induction n generalizing s with
  | zero =>
      refine ⟨h, ?_⟩
      have hnone := List.length_eq_zero_iff.mp (Nat.le_zero.mp hn)
      rw [Sys.dispatchGuard, Bool.and_eq_false_iff]
      exact .inl (Bool.eq_false_iff.mpr fun hready =>
        (Scheduler.hasReadyProcesses_ready _).mp hready hnone)
  | succ n ih =>
      cases hguard : s.dispatchGuard with
      | false =>
          have hstop : LocOS.dispatchReady (n + 1) s = s := by
            rw [Sys.dispatchGuard] at hguard
            simp [LocOS.dispatchReady, hguard]
          rw [hstop]
          exact ⟨h, hguard⟩
      | true =>
          obtain ⟨hready, hcan⟩ := Bool.and_eq_true_iff.mp hguard
          obtain ⟨p, sched, hsel, htakes⟩ :=
            Scheduler.selectNextProcess_ready h.queues s.pcbs hready
          obtain ⟨i, j, core, hcore, hspace, hassign, _⟩ :=
            Machine.assignProcessToCore_first h.bounded hcan (s.started sched p) p
          rw [dispatchReady_assigned hready hcan hsel hassign]
          refine ih (h.dispatched htakes.queues hcore hspace) ?_
          have hlen := htakes.length
          show sched.ready.length ≤ n
          omega

theorem schedulerPass (h : Sound threads s) :
    Sound threads (LocOS.schedulerPass s) ∧ (LocOS.schedulerPass s).dispatchGuard = false := by
  unfold LocOS.schedulerPass
  dsimp only
  split
  · exact (h.scanMachine.transferReady _).dispatchReady _ (Scheduler.length_ready_le _)
  · exact h.scanMachine.dispatchReady _ (Scheduler.length_ready_le _)

theorem next (h : Sound threads s) (a : Action) : Sound threads (s.next a) := by
  cases a with
  | tick => exact h.clockTick
  | pass => exact h.schedulerPass.1

end Sound

/-! ## Full machines -/

/-- Without a free slot every thread is counted. -/
theorem countExecutingProcesses_full {m : Machine} (h : m.Bounded)
    (hfull : canCpuExecuteProcess m = false) : countExecutingProcesses m = m.threadCount := by
  have hcore : ∀ core ∈ m.cores, core.currentPcbCount = (core.numKernelThreads : Int) := by
    intro core hmem
    have hle := (h core hmem).2
    have hspace : ¬ core.hasSpace = true := fun hs =>
      Bool.eq_false_iff.mp hfull (Machine.canCpuExecuteProcess_iff.mpr ⟨core, hmem, hs⟩)
    rw [Core.hasSpace_iff] at hspace
    omega
  rw [countExecutingProcesses, List.map_congr_left hcore, Machine.threadCount, Nat.cast_list_sum,
    List.map_map]
  rfl

theorem Sound.full {threads : Nat} {s : Sys} (h : Sound threads s)
    (hstop : s.dispatchGuard = false) :
    s.sched.ready = [] ∨ countExecutingProcesses s.machine = threads := by
  rw [Sys.dispatchGuard, Bool.and_eq_false_iff] at hstop
  rcases hstop with hready | hcan
  · left
    by_contra hne
    rw [(Scheduler.hasReadyProcesses_ready _).mpr hne] at hready
    cases hready
  · right
    rw [countExecutingProcesses_full h.bounded hcan, h.threads]

/-! ## Runs -/

/-- The clock, the scheduler and a process generator, whatever its parameters,
over the processes `main` loaded. -/
def servedRuns (cfg : Config) (pcbs : List PCB) : Runs Generating GeneratorAction where
  init g := boot cfg pcbs = some g.sys
  step g a t := t = g.next a

theorem Sound.boot {cfg : Config} {pcbs : List PCB} {s : Sys} (h : Booted cfg pcbs s)
    (hbounded : cfg.machine.Bounded) : Sound cfg.machine.threadCount s where
  queues := h.queues
  bounded := h.machine ▸ hbounded
  threads := by rw [h.machine]

/-- The generator writes `ready_queue` only. -/
theorem Sound.iterate {threads : Nat} {g : Generating} (h : Sound threads g.sys)
    (draws : GeneratorDraws) : Sound threads (g.iterate draws).sys := by
  unfold Generating.iterate
  split
  · exact h
  · split
    · rw [Generating.waitForSpace_sys]
      exact h
    · have hprepared : Sound threads (g.prepare draws).sys := by
        rw [Generating.prepare_sys]
        exact h
      unfold Generating.offer
      split
      · exact hprepared
      · dsimp only
        split
        · rename_i rq henq
          have hrq := (ProcessQueue.enqueueProcess_some hprepared.queues.ready henq).2.1
          exact ⟨hprepared.queues.setReady hrq, hprepared.bounded, hprepared.threads⟩
        · rw [Generating.waitForSpace_sys]
          exact hprepared

theorem Sound.served {cfg : Config} {pcbs : List PCB} (hbounded : cfg.machine.Bounded)
    {g : Generating} (hg : (servedRuns cfg pcbs).Reachable g) :
    Sound cfg.machine.threadCount g.sys := by
  refine hg.invariant (fun g => Sound cfg.machine.threadCount g.sys) ?_ ?_
  · intro g hb
    exact .boot (boot_spec hb) hbounded
  · rintro g a t h rfl
    cases a with
    | sys a => exact h.next a
    | iterate draws => exact h.iterate draws

/-- Work conservation, for any policy, any processes on any machine, any
generator and any interleaving: in every state the queues are well formed and
`0 <= current_pcb_count <= num_kernel_threads` on every core, and a pass ends
with no process ready in the queues of the policy or with every hardware
thread of the machine counted as executing. -/
theorem schedulerPass_workConserving {cfg : Config} {pcbs : List PCB}
    (hbounded : cfg.machine.Bounded) {g : Generating} (hg : (servedRuns cfg pcbs).Reachable g) :
    g.sys.sched.WF ∧ g.sys.machine.Bounded ∧
      ((schedulerPass g.sys).sched.ready = [] ∨
        countExecutingProcesses (schedulerPass g.sys).machine = cfg.machine.threadCount) := by
  have h := Sound.served hbounded hg
  obtain ⟨hpass, hstop⟩ := h.schedulerPass
  exact ⟨h.queues, h.bounded, hpass.full hstop⟩

/-- A generator that is never asked. -/
def quietGenerator (s : Sys) : Generating where
  sys := s
  pg := {
    minInterval := 1
    maxInterval := 1
    minTtl := 1
    maxTtl := 1
    machine := true
    scheduler := true
    maxProcesses := 1
    nextPid := 1
    totalGenerated := 0 }
  nextGenerationTick := 0
  waitingForSpace := false
  pendingPcb := none
  log := []

/-- A preemption frees a thread in the middle of a pass, and the process that
preempts gets it: one executes, two are ready. -/
theorem schedulerPass_workConserving_three : ∃ g,
    (servedRuns (oneCore 1 .preemptivePrio 1)
      [loadedPcb 1 5, loadedPcb 2 5, loadedPcb 3 0]).Reachable g ∧
    (schedulerPass g.sys).sched.ready.length = 2 ∧
    countExecutingProcesses (schedulerPass g.sys).machine = 1 := by
  obtain ⟨s, hs⟩ : ∃ s, boot (oneCore 1 .preemptivePrio 1)
      [loadedPcb 1 5, loadedPcb 2 5, loadedPcb 3 0] = some s := ⟨_, rfl⟩
  have hinit : (servedRuns (oneCore 1 .preemptivePrio 1)
      [loadedPcb 1 5, loadedPcb 2 5, loadedPcb 3 0]).Reachable (quietGenerator s) := .init hs
  have hready : (schedulerPass s).sched.ready.length = 2 := by
    obtain rfl := Option.some.inj hs
    decide +kernel
  refine ⟨_, hinit, hready, ?_⟩
  have hpass := (schedulerPass_workConserving
    (Machine.createMachine_idle 1 1 1).compact.bounded hinit).2.2
  refine hpass.resolve_left fun hnone => ?_
  have hready : (schedulerPass (quietGenerator s).sys).sched.ready.length = 2 := hready
  rw [hnone] at hready
  cases hready

end LocOS
