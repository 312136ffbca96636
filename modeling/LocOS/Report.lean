import LocOS.Cleanup
import LocOS.OneQueue

/-!
# Report

The shutdown report of a system with one queue. Together with the completions
printed before, it names every process once, and the PCBs it leaves allocated
are those of the processes it reports as executing.
-/

namespace LocOS

open scoped List

namespace ShutdownReport

/-- The PIDs reported as executing, in the order of the lines. -/
def executingPids (report : ShutdownReport) : List Int :=
  report.cores.flatMap fun line => line.threads.map ThreadLine.pid

/-- The PIDs reported as ready. -/
def readyPids (report : ShutdownReport) : List Int := report.ready.map ProcessLine.pid

end ShutdownReport

/-! ## The copies that are printed -/

/-- Every copy has the PID of its process, and no PCB was allocated since the
start. -/
structure Reported (n : Nat) (s : Sys) : Prop where
  next : s.pcbs.next = n
  copied : ∀ core ∈ s.machine.cores, core.Copied PCB.pid s.pcbs

namespace Reported

variable {n : Nat} {s : Sys}

/-- A step that leaves the machine and the PIDs alone. -/
theorem same (h : Reported n s) {t : Sys} (hmachine : t.machine = s.machine)
    (hnext : t.pcbs.next = s.pcbs.next) (hpid : ∀ p, t.pid p = s.pid p) : Reported n t where
  next := hnext.trans h.next
  copied := by
    rw [hmachine]
    exact fun core hcore => (h.copied core hcore).congr fun p _ => hpid p

/-- A step that rewrites one core. -/
theorem setCore (h : Reported n s) {i j : Nat} {old new : Core}
    (hcore : s.machine.core? i j = some old) {t : Sys}
    (hmachine : t.machine = s.machine.setCore i j new) (hnext : t.pcbs.next = s.pcbs.next)
    (hnew : new.Copied PCB.pid t.pcbs)
    (hpid : ∀ p ∈ t.running, t.pid p = s.pid p) : Reported n t where
  next := hnext.trans h.next
  copied := by
    intro core hmem
    have hrun : ∀ p ∈ core.running, p ∈ t.running := fun p hp =>
      List.mem_flatMap.mpr ⟨core, hmem, hp⟩
    rw [hmachine] at hmem
    rcases Machine.mem_setCore hcore hmem with rfl | hold
    · exact hnew
    · exact (h.copied core hold).congr fun p hp => hpid p (hrun p hp)

theorem tickThread (h : Reported n s) (hc : s.machine.Compact) (i j k : Nat) :
    Reported n (LocOS.tickThread i j k s) := by
  have hpid : ∀ q, (LocOS.tickThread i j k s).pid q = s.pid q :=
    tickThread_field PCB.pid (fun _ => PCB.decrementTtl_pid _) (fun _ _ => rfl) i j k s
  rcases tickThread_cases i j k s with
    ⟨_, he⟩ | ⟨core, hw, p, _, _, he⟩ | ⟨core, hw, p, pm, base, hslot, _, _, _, he⟩
  · rw [he]
    exact h
  · rw [he] at hpid ⊢
    exact h.same rfl rfl hpid
  · obtain ⟨hcore, hk, _⟩ := Machine.slot?_eq_some.mp hslot
    have hthread := (hc.core hcore).setThread hk (executeInstruction
      (fetched (s.exec hw pm p) p) p (fetch (s.exec hw pm p))).hw
      (executeInstruction_hw_pcb ..)
    rw [he] at hpid ⊢
    refine h.setCore hcore rfl ?_ ?_ fun q _ => hpid q
    · show (executeInstruction _ _ _).pcbs.next = _
      rw [executeInstruction_pcbs]
      split <;> rfl
    · exact ((h.copied core (Machine.mem_cores_of_core? hcore)).congr
        fun q _ => hpid q).setThread hthread.running_eq

/-- A process leaves its thread, and the others keep their PIDs. -/
theorem removed (h : Reported n s) (hnd : s.running.Nodup) (hc : s.machine.Compact) {i j k : Nat}
    {core : Core} {hw : HardwareThread} {p : PcbPtr}
    (hslot : s.machine.slot? i j k = some (core, hw, p)) {t : Sys}
    (hmachine : t.machine = s.machine.setCore i j (core.removeThread k))
    (hnext : t.pcbs.next = s.pcbs.next) (hpid : ∀ q, q ≠ p → t.pid q = s.pid q) :
    Reported n t := by
  obtain ⟨hcore, hk, hp⟩ := Machine.slot?_eq_some.mp hslot
  have hh := hc.core hcore
  have hlt := (List.getElem?_eq_some_iff.mp (hh.busy hk hp)).1
  have hrest : ∀ q ∈ (s.machine.setCore i j (core.removeThread k)).running, q ≠ p :=
    fun q hq => ((Machine.mem_running_removeThread hc hnd hslot).mp hq).2
  have hrun : t.running = (s.machine.setCore i j (core.removeThread k)).running := by
    rw [Sys.running, hmachine]
  refine h.setCore hcore hmachine hnext ?_ fun q hq => hpid q (hrest q (hrun ▸ hq))
  have hself := Machine.mem_cores_of_core?
    (Machine.core?_setCore_self (core.removeThread k) hcore)
  exact ((h.copied core (Machine.mem_cores_of_core? hcore)).removeThread hh hlt).congr
    fun q hq => hpid q (hrest q (List.mem_flatMap.mpr ⟨_, hself, hq⟩))

theorem scanThread (h : Reported n s) (hnd : s.running.Nodup) (hc : s.machine.Compact)
    {i j k : Nat} {core : Core} {hw : HardwareThread} {p : PcbPtr}
    (hslot : s.machine.slot? i j k = some (core, hw, p)) :
    Reported n (LocOS.scanThread i j k s) := by
  have hpid : ∀ q, (s.charge p).pid q = s.pid q := PcbHeap.get_set_congr PCB.pid s.pcbs rfl
  have hcharged : Reported n (s.charge p) := h.same rfl rfl hpid
  rcases scanThread_cases hslot with ⟨_, he⟩ | ⟨_, _, he⟩ | ⟨_, _, he⟩
  · rw [he]
    exact hcharged.removed hnd hc hslot rfl rfl fun q hq =>
      congrArg PCB.pid (PcbHeap.get_destroyPcb_ne _ hq)
  · rw [he]
    exact hcharged.removed hnd hc hslot rfl rfl fun q hq =>
      congrArg PCB.pid (PcbHeap.get_set_ne _ hq _)
  · rw [he]
    exact hcharged

theorem dispatched (h : Reported n s) (hc : s.machine.Counted) {p : PcbPtr} {sched : Scheduler}
    {i j : Nat} {core : Core} (hcore : s.machine.core? i j = some core)
    (hspace : core.hasSpace = true) : Reported n (s.dispatched sched p i j core) := by
  have hpid : ∀ q, (s.dispatched sched p i j core).pid q = s.pid q :=
    PcbHeap.get_set_congr PCB.pid s.pcbs (PCB.start_pid ..)
  refine h.setCore hcore rfl rfl ?_ fun q _ => hpid q
  exact ((h.copied core (Machine.mem_cores_of_core? hcore)).congr fun q _ => hpid q).assign
    (hc.core hcore) hspace p

end Reported

/-! ## The lines of a compact machine -/

/-- The lines of a core name the processes on it. -/
theorem Core.threadLines_pids {core : Core} {ps : List PcbPtr} (hh : core.Holds ps) {h : PcbHeap}
    (hcopied : core.Copied PCB.pid h) :
    core.threadLines.map ThreadLine.pid = core.running.map fun p => (h.get p).pid := by
  have hcount : core.currentPcbCount.toNat = core.running.length := by
    rw [hh.count, hh.running_eq, Int.toNat_natCast]
  rw [threadLines, List.map_map, hcount]
  refine List.ext_getElem? fun k => ?_
  rw [List.getElem?_map, List.getElem?_map]
  rcases Nat.lt_or_ge k core.running.length with hk | hk
  · obtain ⟨c, hc, hpid⟩ := hcopied.copy k _ (List.getElem?_eq_getElem hk)
    rw [List.getElem?_range hk, List.getElem?_eq_getElem hk, Option.map_some, Option.map_some]
    refine congrArg some (Eq.trans ?_ hpid)
    simp [List.getD_eq_getElem?_getD, hc]
  · rw [List.getElem?_eq_none (by simpa using hk), List.getElem?_eq_none hk]
    rfl

theorem Machine.coreLines_pids {m : Machine} (hc : m.Compact) {h : PcbHeap}
    (hcopied : ∀ core ∈ m.cores, core.Copied PCB.pid h) :
    (m.coreLines.flatMap fun line => line.threads.map ThreadLine.pid) =
      m.running.map fun p => (h.get p).pid := by
  rw [running, List.map_flatMap, ← m.flatMap_coreIndices, coreLines,
    List.filterMap_eq_flatMap_toList, List.flatMap_assoc]
  refine List.flatMap_congr fun ij _ => ?_
  cases hcore : m.core? ij.1 ij.2 with
  | none => rfl
  | some core =>
      have hmem := mem_cores_of_core? hcore
      have hh := hc.core hcore
      by_cases hpos : 0 < core.currentPcbCount
      · simp only [Option.bind_some, if_pos hpos, Option.toList_some, List.flatMap_singleton,
          Option.map_some, Option.getD_some]
        exact Core.threadLines_pids hh (hcopied core hmem)
      -- nobody is on a core that is not printed
      · have hnil : core.running = [] := by
          have hcount := hh.count
          rw [← List.length_eq_zero_iff]
          omega
        simp [if_neg hpos, hnil]

/-- On a compact machine the printed number is the number of processes. -/
theorem Machine.Compact.countExecutingProcesses {m : Machine} (hc : m.Compact) :
    LocOS.countExecutingProcesses m = m.running.length := by
  rw [length_running, LocOS.countExecutingProcesses, Nat.cast_list_sum, List.map_map]
  refine congrArg List.sum (List.map_congr_left fun core hcore => ?_)
  obtain ⟨i, j, hij⟩ := mem_cores_iff.mp hcore
  exact (hc.core hij).count

/-! ## The account of the PCBs -/

theorem length_completedPids (log : List Event) :
    (completedPids log).length = (freedPcbs log).length := by
  induction log with
  | nil => rfl
  | cons e log ih =>
      rw [completedPids, freedPcbs, Objects.Vocabulary.freedIn] at ih ⊢
      cases e with
      | completed p pid => exact congrArg Nat.succ ih
      | _ => exact ih

/-- What a run with one queue keeps for the report. -/
structure Reporting (policy : Policy) (pids : List Int) (threads : Nat) (s : Sys) : Prop where
  oneQueue : OneQueue policy pids s
  compact : s.machine.Compact
  safe : HeapSafe policy threads [] s
  reported : Reported pids.length s

namespace Reporting

variable {policy : Policy} {pids : List Int} {threads : Nat} {s : Sys}

/-- Every PCB is destroyed, on a thread or in the queue. -/
theorem allocated (h : Reporting policy pids threads s) (hnd : pids.Nodup) :
    freedPcbs s.log ++ s.places ~ List.range pids.length := by
  have hlive : ∀ p ∈ s.places, s.pcbs.Live p := h.oneQueue.conserved.live
  have hnodup : (freedPcbs s.log ++ s.places).Nodup :=
    List.nodup_append.mpr ⟨h.safe.owned.history.nodup, h.oneQueue.conserved.nodup hnd,
      fun p hp q hq he => h.safe.owned.dead p hp (hlive p (he ▸ hq))⟩
  have hbelow : freedPcbs s.log ++ s.places ⊆ List.range pids.length := by
    intro p hp
    rw [List.mem_range, ← h.reported.next, h.safe.owned.allocated]
    exact (List.mem_append.mp hp).symm.imp_left (hlive p)
  -- as many as there are processes, so they are all of them
  have haccount := h.oneQueue.conserved.account.length_eq
  rw [List.length_append, List.length_map, endedPids, h.oneQueue.dropped, List.append_nil,
    length_completedPids] at haccount
  refine (List.subperm_of_subset hnodup hbelow).perm_of_length_le ?_
  rw [List.length_range, List.length_append]
  omega

/-- A PCB is allocated as long as its process is somewhere. -/
theorem live_iff (h : Reporting policy pids threads s) (hnd : pids.Nodup) (p : PcbPtr) :
    s.pcbs.Live p ↔ p ∈ s.places := by
  refine ⟨fun hp => ?_, h.oneQueue.conserved.live p⟩
  have hbelow : p ∈ List.range pids.length :=
    List.mem_range.mpr (h.reported.next ▸ (h.safe.owned.allocated p).mpr (.inl hp))
  have hmem := (h.allocated hnd).mem_iff.mpr hbelow
  exact (List.mem_append.mp hmem).resolve_left fun hfreed => h.safe.owned.dead p hfreed hp

/-! ## Runs -/

theorem next (h : Reporting policy pids threads s) (hnd : pids.Nodup) (a : Action) :
    Reporting policy pids threads (s.next a) := by
  obtain ⟨hq, hc⟩ := h.oneQueue.next hnd h.compact a
  obtain ⟨hsafe, hreported⟩ :
      HeapSafe policy threads [] (s.next a) ∧ Reported pids.length (s.next a) := by
    cases a with
    | tick =>
        have htick := clockTick_inv (fun t => Reported pids.length t ∧ t.machine.Compact)
          ⟨h.reported.same rfl rfl fun _ => rfl, h.compact⟩ fun i j k t ht =>
            ⟨ht.1.tickThread ht.2 i j k, (tickThread_machine ht.2 i j k).1⟩
        exact ⟨h.safe.clockTick, htick.1⟩
    | pass =>
        refine (h.oneQueue.schedulerPass_inv hnd h.compact
          (fun _ t => HeapSafe policy threads [] t ∧ Reported pids.length t) ?_ ?_
          ⟨h.safe, h.reported⟩).2.2
        · rintro todo i j k t core hw p hqt hct hslot ⟨hsafe, hreported⟩
          obtain ⟨hcore, hk, hp⟩ := Machine.slot?_eq_some.mp hslot
          have hcount := (hct.core hcore).bounds.2.2 k hw hk
          exact ⟨hsafe.scanThread hcore (hcount.mp (by rw [hp]; rfl)),
            hreported.scanThread (hqt.conserved.nodup_running hnd) hct hslot⟩
        · rintro t p sched i j core - hct hcore hspace hwf hsame hperm - ⟨hsafe, hreported⟩
          exact ⟨hsafe.dispatched hcore hspace hwf hsame.policy hperm,
            hreported.dispatched hct.counted hcore hspace⟩
  exact ⟨hq, hc, hsafe, hreported⟩

theorem boot {cfg : Config} {pcbs : List PCB} (hb : Booted cfg pcbs s)
    (hq : OneQueue cfg.policy (pcbs.map PCB.pid) s) (hidle : cfg.machine.Idle)
    (hlegacy : ∀ core ∈ cfg.machine.cores, core.pcbs.length = core.numKernelThreads) :
    Reporting cfg.policy (pcbs.map PCB.pid) cfg.machine.threadCount s where
  oneQueue := hq
  compact := hb.machine ▸ hidle.compact
  safe := .boot hb hidle
  reported := by
    refine ⟨by rw [hb.heap, List.length_map]; rfl, fun core hcore => ?_⟩
    rw [hb.machine] at hcore
    exact Core.copied_of_idle (hlegacy core hcore) (hidle core hcore).running_eq

/-- What a shutdown reports and frees. -/
theorem cleanup (h : Reporting policy pids threads s) (hnd : pids.Nodup) :
    ∃ report f, cleanupSystem s = some (report, f) ∧
      completedPids s.log ++ report.executingPids ++ report.readyPids ~ pids ∧
      report.totalExecuting = report.executingPids.length ∧
      report.executingPids = s.running.map s.pid ∧
      freedPcbs s.log ++ f.freed ++ s.running ~ List.range pids.length ∧
      ∀ p, f.pcbs.Live p ↔ p ∈ s.running := by
  obtain ⟨report, f, hrun, hclean⟩ := cleanupSystem_live h.safe.queues h.safe.waiting_nodup
    fun _ hp => h.safe.waiting_live hp
  have hready : s.waiting = s.sched.readyQueue.toList := h.oneQueue.waiting_eq
  have hcount := h.compact.countExecutingProcesses
  have hexecuting : report.executingPids = s.running.map s.pid := by
    rw [ShutdownReport.executingPids, hclean.cores]
    by_cases hpos : 0 < countExecutingProcesses s.machine
    · rw [if_pos hpos]
      exact Machine.coreLines_pids h.compact h.reported.copied
    · have hnil : s.running = [] := List.length_eq_zero_iff.mp (by rw [Sys.running]; omega)
      rw [if_neg hpos, hnil]
      rfl
  have hfreed : f.freed ~ s.waiting := by
    rw [hclean.frees.freed]
    exact s.sched.drained_perm
  refine ⟨report, f, hrun, ?_, ?_, hexecuting, ?_, fun p => ?_⟩
  · have haccount := h.oneQueue.conserved.account
    rw [endedPids, h.oneQueue.dropped, List.append_nil, Sys.places, List.map_append, hready]
      at haccount
    rw [hexecuting, ShutdownReport.readyPids, hclean.ready, List.append_assoc]
    exact List.perm_append_comm.trans haccount
  · rw [hclean.totalExecuting, hcount, hexecuting, List.length_map]
    rfl
  · rw [List.append_assoc]
    exact ((hfreed.append_right _).trans List.perm_append_comm).append_left _
      |>.trans (h.allocated hnd)
  · have hplaces : (s.running ++ s.waiting).Nodup := h.oneQueue.conserved.nodup hnd
    rw [hclean.frees.live, s.sched.drained_perm.mem_iff, h.live_iff hnd, Sys.places,
      List.mem_append]
    constructor
    · rintro ⟨hp, hnot⟩
      exact hp.resolve_right hnot
    · exact fun hp => ⟨.inl hp, fun hw => List.disjoint_of_nodup_append hplaces hp hw⟩

end Reporting

/-- A shutdown under Round Robin, for any machine, any processes with distinct
PIDs and any interleaving before it. The completions printed so far and the
report name every process once. Every PCB is freed once, by its completion or
by the shutdown, except for those of the processes reported as executing,
which stay allocated. -/
theorem roundRobin_cleanup {cfg : Config} {pcbs : List PCB} (hpol : cfg.policy = .roundRobin)
    (hidle : cfg.machine.Idle)
    (hlegacy : ∀ core ∈ cfg.machine.cores, core.pcbs.length = core.numKernelThreads)
    (hnd : (pcbs.map PCB.pid).Nodup) {s : Sys} (hs : (sysRuns cfg pcbs).Reachable s) :
    ∃ report f, cleanupSystem s = some (report, f) ∧
      completedPids s.log ++ report.executingPids ++ report.readyPids ~ pcbs.map PCB.pid ∧
      report.totalExecuting = report.executingPids.length ∧
      report.executingPids = s.running.map s.pid ∧
      freedPcbs s.log ++ f.freed ++ s.running ~ List.range pcbs.length ∧
      ∀ p, f.pcbs.Live p ↔ p ∈ s.running := by
  have hsingle : cfg.policy ≠ .preemptivePrio := by
    rw [hpol]
    decide
  have hfits : cfg.policy = .bfs → 2 * pcbs.length ≤ cfg.readyQueueSize + 2 := by
    rw [hpol]
    intro hbfs
    cases hbfs
  have h : Reporting cfg.policy (pcbs.map PCB.pid) cfg.machine.threadCount s := by
    refine hs.invariant (Reporting _ _ _) (fun s hb => ?_) fun s a t h ht => ht ▸ h.next hnd a
    have hbooted := boot_spec hb
    exact .boot hbooted (.boot hbooted hsingle hidle hfits) hidle hlegacy
  have hcleanup := h.cleanup hnd
  rwa [List.length_map] at hcleanup

/-- One process has completed, one executes and one waits. -/
theorem roundRobin_cleanup_three : ∃ s report f,
    (sysRuns (oneCore 1 .roundRobin 4)
      [(loadedPcb 1 0).setTtl 2, loadedPcb 2 0, loadedPcb 3 0]).Reachable s ∧
    cleanupSystem s = some (report, f) ∧ completedPids s.log = [1] ∧ s.running = [1] ∧
    [1] ++ report.executingPids ++ report.readyPids ~ [1, 2, 3] ∧
    freedPcbs s.log ++ f.freed ++ [1] ~ [0, 1, 2] ∧ (f.pcbs.Live 1 ∧ ¬ f.pcbs.Live 2) := by
  obtain ⟨s, hs⟩ : ∃ s, boot (oneCore 1 .roundRobin 4)
      [(loadedPcb 1 0).setTtl 2, loadedPcb 2 0, loadedPcb 3 0] = some s := ⟨_, rfl⟩
  have hstart : (sysRuns (oneCore 1 .roundRobin 4)
      [(loadedPcb 1 0).setTtl 2, loadedPcb 2 0, loadedPcb 3 0]).Reachable s := .init hs
  have hreach := hstart.foldl (fun _ _ => rfl)
    [Action.pass, .tick, .pass, .tick, .pass, .tick, .pass]
  have hstate : completedPids ([Action.pass, .tick, .pass, .tick, .pass, .tick, .pass].foldl
        Sys.next s).log = [1] ∧
      ([Action.pass, .tick, .pass, .tick, .pass, .tick, .pass].foldl Sys.next s).running = [1] := by
    obtain rfl := Option.some.inj hs
    decide +kernel
  have hlegacy : ∀ core ∈ (oneCore 1 .roundRobin 4).machine.cores,
      core.pcbs.length = core.numKernelThreads := by decide
  obtain ⟨report, f, hrun, hpids, _, _, hfreed, hlive⟩ := roundRobin_cleanup rfl
    (Machine.createMachine_idle 1 1 1) hlegacy (by decide) hreach
  rw [hstate.1] at hpids
  rw [hstate.2] at hfreed hlive
  exact ⟨_, report, f, hreach, hrun, hstate.1, hstate.2, hpids, hfreed, by simp [hlive]⟩

end LocOS
