import LocOS.BfsQueue
import LocOS.Ranks

/-!
# Roomy

Systems whose queues refuse nobody: Round Robin, where the ring has a place
for every process, and a single process under any policy. A pass loses nobody
there, and it leaves no process waiting while every hardware thread is idle.
-/

namespace LocOS

open scoped List

/-! ## Queues with room -/

namespace Scheduler

theorem queueFor?_le {sched : Scheduler} {priority : Int} {pq : ProcessQueue}
    (h : sched.queueFor? priority = some pq) : pq.currentSize ≤ sched.waiting.length := by
  rw [← waitingCount_eq, waitingCount]
  unfold queueFor? at h
  split at h
  · obtain ⟨i, _, hi⟩ := Option.bind_eq_some_iff.mp h
    have hle := List.le_sum_of_mem (List.mem_map_of_mem (f := fun pq => pq.currentSize)
      (List.mem_of_getElem? hi))
    omega
  · obtain rfl := Option.some.inj h
    omega

/-- Empty queues accept every process whose priority has a level. -/
theorem exists_enqueue_empty {sched : Scheduler} (hwf : sched.WF) (hempty : sched.waiting = [])
    {pcbs : PcbHeap} {p : PcbPtr} (hrange : minPriority ≤ (pcbs.get p).priority ∧
      (pcbs.get p).priority ≤ maxPriority) :
    ∃ sched', enqueueToScheduler sched pcbs p = some sched' := by
  obtain ⟨pq, hpq, hcap⟩ : ∃ pq, sched.queueFor? (pcbs.get p).priority = some pq ∧
      0 < pq.maxCapacity := by
    by_cases hpol : sched.policy = .preemptivePrio
    · obtain ⟨i, hi, hlt⟩ := levelOf_isSome hrange
      rw [← hwf.numLevels hpol] at hlt
      refine ⟨_, ?_, (hwf.levels _ (List.getElem_mem hlt)).capPos⟩
      rw [queueFor?_prio hpol, hi]
      exact List.getElem?_eq_getElem hlt
    · exact ⟨_, queueFor?_single hpol _, hwf.ready.capPos⟩
  have hle := queueFor?_le hpq
  rw [hempty] at hle
  exact exists_enqueue hwf hpq (Nat.lt_of_le_of_lt hle hcap)

end Scheduler

/-- There is room for all processes: in the ring of Round Robin, or because
there is only one. -/
inductive Uncrowded (pids : List Int) (s : Sys) : Prop
  | ring (policy : s.sched.policy = .roundRobin) (noLevels : s.sched.priorityQueues = [])
      (capacity : pids.length ≤ s.sched.readyQueue.maxCapacity) : Uncrowded pids s
  | single (one : pids.length ≤ 1)
      (noLevels : s.sched.policy ≠ .preemptivePrio → s.sched.priorityQueues = [])
      (inRange : s.pcbs.InRange) : Uncrowded pids s

/-- The invariant: nobody was refused, and nobody will be. -/
structure Roomy (pids : List Int) (s : Sys) : Prop where
  conserved : Conserved pids s
  compact : s.machine.Compact
  noneRefused : NoneRefused s
  uncrowded : Uncrowded pids s
  threads : 0 < s.machine.threadCount

theorem Uncrowded.keep {pids : List Int} {s s' : Sys} (h : Uncrowded pids s)
    (hpol : s'.sched.policy = s.sched.policy)
    (hready : s'.sched.readyQueue.maxCapacity = s.sched.readyQueue.maxCapacity)
    (hlevels : s'.sched.priorityQueues.map (·.maxCapacity) =
      s.sched.priorityQueues.map (·.maxCapacity))
    (hrange : s.pcbs.InRange → s'.pcbs.InRange) : Uncrowded pids s' := by
  have hnone : s.sched.priorityQueues = [] → s'.sched.priorityQueues = [] := by
    intro hnil
    rw [hnil] at hlevels
    exact List.map_eq_nil_iff.mp hlevels
  cases h with
  | ring policy noLevels capacity =>
      exact .ring (hpol.trans policy) (hnone noLevels) (capacity.trans_eq hready.symm)
  | single one noLevels inRange =>
      refine .single one (fun hno => hnone (noLevels ?_)) (hrange inRange)
      rwa [hpol] at hno

theorem Uncrowded.same {pids : List Int} {s s' : Sys} (h : Uncrowded pids s)
    (hsame : Scheduler.SameConfig s.sched s'.sched) (hrange : s.pcbs.InRange → s'.pcbs.InRange) :
    Uncrowded pids s' :=
  h.keep hsame.policy hsame.readyCapacity hsame.levelCapacity hrange

theorem Uncrowded.levels_nil {pids : List Int} {s : Sys} (h : Uncrowded pids s)
    (hpol : s.sched.policy ≠ .preemptivePrio) : s.sched.priorityQueues = [] := by
  cases h with
  | ring _ noLevels _ => exact noLevels
  | single _ noLevels _ => exact noLevels hpol

namespace Roomy

variable {pids : List Int} {s : Sys}

/-- The system just started, on an idle machine with a free hardware thread. -/
theorem boot {cfg : Config} {pcbs : List PCB} (hb : Booted cfg pcbs s)
    (hidle : cfg.machine.Idle) (hfree : canCpuExecuteProcess cfg.machine = true)
    (hroom : cfg.policy = .roundRobin ∨ pcbs.length ≤ 1 ∧ (bootHeap pcbs).InRange) :
    Roomy (pcbs.map PCB.pid) s where
  conserved := hb.conserved hidle
  compact := hb.machine ▸ hidle.compact
  noneRefused := by
    rw [NoneRefused, hb.log]
    rfl
  uncrowded := by
    have hlevels : s.sched.policy ≠ .preemptivePrio → s.sched.priorityQueues = [] := by
      intro hpol
      rw [hb.levels, if_neg (hb.policy ▸ hpol)]
    rcases hroom with hpol | ⟨hone, hrange⟩
    · have hring : s.sched.policy = .roundRobin := hb.policy.trans hpol
      refine .ring hring (hlevels (by rw [hring]; decide)) ?_
      rw [List.length_map, hb.readyCapacity]
      exact hb.fits
    · exact .single ((List.length_map ..).trans_le hone) hlevels (hb.heap ▸ hrange)
  threads := by
    obtain ⟨core, hcore, hs⟩ := Machine.canCpuExecuteProcess_iff.mp hfree
    obtain ⟨ps, hps⟩ := hidle.compact core hcore
    have hpos : 0 < core.numKernelThreads :=
      Nat.zero_lt_of_lt (hps.counts.hasSpace_iff.mp hs)
    rw [hb.machine]
    exact Nat.lt_of_lt_of_le hpos (List.le_sum_of_mem (List.mem_map_of_mem hcore))

/-- While a single process executes, nobody waits. -/
theorem waiting_nil (h : Roomy pids s) (hone : pids.length ≤ 1) {p : PcbPtr}
    (hp : p ∈ s.running) : s.waiting = [] := by
  have hlen := h.conserved.length_le
  have hpos := List.length_pos_of_mem hp
  exact List.length_eq_zero_iff.mp (by omega)

/-- A process that leaves its thread finds room in its queue. -/
theorem accepts (h : Roomy pids s) {p : PcbPtr} (hp : p ∈ s.running) {pcbs : PcbHeap}
    (hprio : (pcbs.get p).priority = (s.pcbs.get p).priority) :
    ∃ sched, enqueueToScheduler s.sched pcbs p = some sched := by
  have hwf := h.conserved.queues
  cases h.uncrowded with
  | ring policy noLevels capacity =>
      have hlen := h.conserved.length_le
      have hpos := List.length_pos_of_mem hp
      have hsize : s.waiting.length = s.sched.readyQueue.currentSize := by
        simp [Sys.waiting, Scheduler.waiting, noLevels]
      exact Scheduler.exists_enqueue hwf
        (Scheduler.queueFor?_single (by rw [policy]; decide) _) (by omega)
  | single one _ inRange =>
      refine Scheduler.exists_enqueue_empty hwf (h.waiting_nil one hp) ?_
      rw [hprio]
      exact inRange p (h.conserved.live p (List.mem_append_left _ hp))

/-! ## A tick -/

theorem tickThread (h : Roomy pids s) (i j k : Nat) : Roomy pids (tickThread i j k s) := by
  obtain ⟨hsched, _, hthreads, _⟩ := Ranked.tickThread_same h.compact i j k
  refine ⟨h.conserved.tickThread h.compact i j k, (tickThread_machine h.compact i j k).1,
    tickThread_noneRefused h.noneRefused i j k, ?_, hthreads ▸ h.threads⟩
  refine h.uncrowded.same (hsched ▸ .refl _) fun hrange => ?_
  rcases tickThread_cases i j k s with
    ⟨_, he⟩ | ⟨core, hw, p, _, _, he⟩ | ⟨core, hw, p, pm, base, _, _, _, _, he⟩
  · rwa [he]
  · rw [he]
    exact hrange.set (PCB.decrementTtl_priority _)
  · rw [he]
    exact inRange_executeInstruction (s := fetched (s.exec hw pm p) p)
      (hrange.set (PCB.decrementTtl_priority _))

theorem tickEvent (h : Roomy pids s) :
    Roomy pids { s with
      clkCounter := s.clkCounter + 1
      log := s.log ++ [Event.tick (s.clkCounter + 1)] } :=
  ⟨h.conserved.tickEvent, h.compact, droppedPids_concat h.noneRefused rfl,
    h.uncrowded.same (.refl _) id, h.threads⟩

theorem clockTick (h : Roomy pids s) : Roomy pids (clockTick s) :=
  clockTick_inv (Roomy pids) h.tickEvent fun i j k _ ht => ht.tickThread i j k

/-! ## A visit of the scan -/

/-- The three things a visit does, when no queue refuses the process. -/
theorem scanThread_cases (h : Roomy pids s) {i j k : Nat} {core : Core} {hw : HardwareThread}
    {p : PcbPtr} (hslot : s.machine.slot? i j k = some (core, hw, p)) :
    ((s.pcbs.get p).charge.finished = true ∧
      scanThread i j k s = completeThread i j k core p (s.charge p)) ∨
    ((s.pcbs.get p).charge.finished = false ∧ ∃ sched, Scheduler.SameConfig s.sched sched ∧
      sched.waiting ~ p :: s.sched.waiting ∧
      scanThread i j k s = { s.charge p with
        machine := s.machine.setCore i j (core.removeThread k)
        sched
        pcbs := (s.charge p).pcbs.set p (expiredPcb (s.charge p) hw p)
        log := s.log ++ [Event.expired p ((s.charge p).pid p) true] }) ∨
    ((s.pcbs.get p).charge.finished = false ∧ scanThread i j k s = s.charge p) := by
  have hp := Machine.mem_running_of_slot h.compact hslot
  rcases LocOS.scanThread_cases hslot with ⟨hfin, he⟩ | ⟨hfin, _, he⟩ | ⟨hfin, _, he⟩
  · exact .inl ⟨hfin, he⟩
  · right
    left
    rcases expireThread_cases (s := s.charge p) h.conserved.queues i j k core hw p with
      ⟨sched, _, _, hsame, hperm, hexp⟩ | ⟨hnone, _⟩
    · exact ⟨hfin, sched, hsame, hperm, he.trans hexp⟩
    · obtain ⟨sched, hsome⟩ := h.accepts hp
        ((PcbHeap.get_set_congr PCB.priority (s.charge p).pcbs (expiredPcb_priority ..) p).trans
          (Ranked.charge_priority s p p))
      rw [show enqueueToScheduler s.sched _ p = none from hnone] at hsome
      cases hsome
  · exact .inr (.inr ⟨hfin, he⟩)

theorem scanThread (h : Roomy pids s) (hnd : pids.Nodup) {i j k : Nat} {core : Core}
    {hw : HardwareThread} {p : PcbPtr} (hslot : s.machine.slot? i j k = some (core, hw, p)) :
    Roomy pids (scanThread i j k s) := by
  have hcore := (Machine.slot?_eq_some.mp hslot).1
  have hcons := h.conserved.scanThread hnd h.compact hslot
  have hcharge : s.pcbs.InRange → (s.charge p).pcbs.InRange := fun hrange => hrange.set rfl
  have hthreads := Machine.threadCount_setCore hcore (core.removeThread_numKernelThreads k)
  have hcompact : (s.machine.setCore i j (core.removeThread k)).Compact := by
    obtain ⟨hk, hp⟩ := (Machine.slot?_eq_some.mp hslot).2
    have hlt := (List.getElem?_eq_some_iff.mp ((h.compact.core hcore).busy hk hp)).1
    exact h.compact.setCore hcore ((h.compact.core hcore).removeThread hlt)
  rcases h.scanThread_cases hslot with ⟨_, he⟩ | ⟨_, sched, hsame, _, he⟩ | ⟨_, he⟩
  · rw [he] at hcons ⊢
    refine ⟨hcons, hcompact, ?_, h.uncrowded.keep rfl rfl rfl
      fun hrange => (hcharge hrange).destroyPcb p, hthreads ▸ h.threads⟩
    exact droppedPids_concat h.noneRefused rfl
  · rw [he] at hcons ⊢
    refine ⟨hcons, hcompact, ?_, h.uncrowded.same hsame
      fun hrange => (hcharge hrange).set (expiredPcb_priority ..), hthreads ▸ h.threads⟩
    exact droppedPids_concat h.noneRefused rfl
  · rw [he] at hcons ⊢
    exact ⟨hcons, h.compact, h.noneRefused, h.uncrowded.same (.refl _) hcharge, h.threads⟩

/-! ## The transfer -/

/-- After the scan the queues may change, if nobody enters or leaves them. -/
theorem setSched (h : Roomy pids s) {sched : Scheduler} (hwf : sched.WF)
    (hsame : Scheduler.SameConfig s.sched sched) (hperm : sched.waiting ~ s.sched.waiting) :
    Roomy pids { s with sched } := by
  have hcons := h.conserved
  have hplaces : s.places ~ Sys.places { s with sched } := hperm.symm.append_left s.running
  exact ⟨hcons.stay hwf hplaces (fun q hq => .refl (hcons.live q (hplaces.mem_iff.mpr hq)))
    hcons.fresh hsame.totalCompleted rfl rfl, h.compact, h.noneRefused,
    h.uncrowded.same hsame id, h.threads⟩

/-- While a single process waits, the machine is idle. -/
theorem alone_waiting (h : Roomy pids s) (hone : pids.length ≤ 1) {p : PcbPtr}
    (hp : p ∈ s.waiting) : s.waiting = [p] ∧ s.machine.Idle := by
  have hlen := h.conserved.length_le
  have hpos := List.length_pos_of_mem hp
  constructor
  · obtain ⟨q, hq⟩ := List.length_eq_one_iff.mp (show s.waiting.length = 1 by omega)
    rw [hq, List.mem_singleton] at hp
    rw [hq, hp]
  · exact h.compact.idle (List.length_eq_zero_iff.mp (show s.running.length = 0 by omega))

/-- Under priorities there is one process to transfer at most, and its level
takes it. -/
theorem transferReady (h : Roomy pids s) (hpol : s.sched.policy = .preemptivePrio) :
    ∃ sched, LocOS.transferReady s.sched.readyQueue.currentSize s = { s with sched } ∧
      sched.WF ∧ Scheduler.SameConfig s.sched sched ∧ sched.waiting ~ s.sched.waiting ∧
      sched.readyQueue.toList = [] := by
  obtain ⟨hone, hrange⟩ : pids.length ≤ 1 ∧ s.pcbs.InRange := by
    cases h.uncrowded with
    | ring policy => rw [policy] at hpol; cases hpol
    | single one _ inRange => exact ⟨one, inRange⟩
  have hwf := h.conserved.queues
  cases hready : s.sched.readyQueue.toList with
  | nil =>
      have hsize : s.sched.readyQueue.currentSize = 0 := by
        rw [← ProcessQueue.length_toList, hready]
        rfl
      rw [hsize]
      exact ⟨s.sched, rfl, hwf, .refl _, .refl _, hready⟩
  | cons p rest =>
      have hp : p ∈ s.waiting := by
        rw [Sys.waiting, Scheduler.waiting, hready]
        exact List.mem_append_left _ (List.mem_cons_self ..)
      obtain ⟨hwaiting, hidle⟩ := h.alone_waiting hone hp
      obtain rfl : rest = [] := by
        rw [Sys.waiting, Scheduler.waiting, hready, List.cons_append] at hwaiting
        exact (List.append_eq_nil_iff.mp (List.cons.inj hwaiting).2).1
      have hsize : s.sched.readyQueue.currentSize = 1 := by
        rw [← ProcessQueue.length_toList, hready]
        rfl
      obtain ⟨rq, hdeq, hrest⟩ := ProcessQueue.exists_dequeue hwf.ready hready
      have htaken := taken_of_dequeue hwf hdeq
      have hwf' : Scheduler.WF { s.sched with readyQueue := rq } := htaken.wf
      have hpol' : Scheduler.policy { s.sched with readyQueue := rq } = .preemptivePrio := hpol
      have hempty : Scheduler.waiting { s.sched with readyQueue := rq } = [] := by
        have hperm : [p] ~ p :: Scheduler.waiting { s.sched with readyQueue := rq } :=
          hwaiting ▸ htaken.perm
        exact (List.cons.inj (List.perm_singleton.mp hperm.symm)).2
      obtain ⟨sched, henq⟩ := Scheduler.exists_enqueue_empty hwf' hempty
        (hrange p (h.conserved.live p (List.mem_append_right _ hp)))
      have hfiled := filed_of_enqueue
        (s := { s with sched := { s.sched with readyQueue := rq } }) hwf' hpol' henq
      have hstay := hidle.stays hpol rq p
      refine ⟨sched, ?_, hfiled.wf, htaken.same.trans hfiled.same,
        hfiled.perm.trans htaken.perm.symm, ?_⟩
      · rw [hsize]
        simp only [LocOS.transferReady, hdeq, hstay]
        rw [henq]
      · obtain ⟨_, _, _, _, _, _, rfl⟩ := Scheduler.enqueue_levels hpol' henq
        exact hrest

/-! ## The dispatch -/

/-- A selection takes one process from the queues, under BFS too: the first
position can be removed. -/
theorem selects (h : Roomy pids s) (hready : hasReadyProcesses s.sched = true) :
    ∃ p sched, selectNextProcess s.sched s.pcbs = some (p, sched) ∧ sched.WF ∧
      Scheduler.SameConfig s.sched sched ∧ s.sched.waiting ~ p :: sched.waiting := by
  have hwf := h.conserved.queues
  by_cases hpol : s.sched.policy = .bfs
  · refine Scheduler.selectNextProcess_bfs hwf hpol s.pcbs (fun i hi _ => ?_) hready
    cases h.uncrowded with
    | ring policy => rw [policy] at hpol; cases hpol
    | single one =>
        have hlen := h.conserved.length_le
        have hsize : s.sched.readyQueue.currentSize ≤ s.waiting.length := by
          simp [Sys.waiting, Scheduler.waiting]
        have hcap := hwf.ready.capPos
        show i + s.sched.readyQueue.currentSize ≤ s.sched.readyQueue.maxCapacity + 1
        omega
  · exact Scheduler.selectNextProcess_cases hwf hpol s.pcbs hready

theorem dispatched (h : Roomy pids s) {p : PcbPtr} {sched : Scheduler} {i j : Nat} {core : Core}
    (hcore : s.machine.core? i j = some core) (hspace : core.hasSpace = true) (hwf : sched.WF)
    (hsame : Scheduler.SameConfig s.sched sched) (hperm : s.sched.waiting ~ p :: sched.waiting) :
    Roomy pids (s.dispatched sched p i j core) := by
  refine ⟨h.conserved.dispatched h.compact.counted hcore hspace hwf hsame hperm,
    h.compact.setCore hcore ((h.compact.core hcore).assign hspace p _), ?_,
    h.uncrowded.same hsame fun hrange => hrange.set (PCB.start_priority ..), ?_⟩
  · exact droppedPids_concat h.noneRefused rfl
  · show 0 < (s.machine.setCore i j _).threadCount
    rw [Machine.threadCount_setCore hcore (Core.assign_numKernelThreads ..)]
    exact h.threads

/-- The dispatch looks where processes wait. -/
def Visible (s : Sys) : Prop := s.waiting ≠ [] → hasReadyProcesses s.sched = true

/-- Only the transfer can leave processes where the dispatch does not look. -/
theorem visible (h : Roomy pids s)
    (hready : s.sched.policy = .preemptivePrio → s.sched.readyQueue.toList = []) : Visible s := by
  intro hne
  rw [Scheduler.hasReadyProcesses_iff]
  split
  · rename_i hpol
    by_contra hnone
    refine hne ?_
    rw [Sys.waiting, Scheduler.waiting, hready hpol, List.nil_append, List.flatMap_eq_nil_iff]
    intro pq hpq
    refine List.length_eq_zero_iff.mp ?_
    rw [ProcessQueue.length_toList]
    by_contra hpos
    exact hnone ⟨pq, hpq, Nat.pos_of_ne_zero hpos⟩
  · rename_i hpol
    have hwaiting : s.waiting = s.sched.readyQueue.toList := by
      simp [Sys.waiting, Scheduler.waiting, h.uncrowded.levels_nil hpol]
    rw [hwaiting] at hne
    rw [← ProcessQueue.length_toList]
    exact List.length_pos_iff.mpr hne

/-- After a dispatch either many processes are in the ring, or none waits. -/
theorem visible_of_running (h : Roomy pids s) {p : PcbPtr} (hp : p ∈ s.running) : Visible s := by
  cases h.uncrowded with
  | ring policy =>
      refine h.visible fun hpol => ?_
      rw [policy] at hpol
      cases hpol
  | single one => exact fun hne => absurd (h.waiting_nil one hp) hne

section
variable {P : Sys → Prop}
  (hdispatch : ∀ (t : Sys) (p : PcbPtr) (sched : Scheduler) (i j : Nat) (core : Core),
    Roomy pids t → t.machine.core? i j = some core → core.hasSpace = true →
    Scheduler.SameConfig t.sched sched → t.sched.waiting ~ p :: sched.waiting →
    P t → P (t.dispatched sched p i j core))
include hdispatch

/-- The rule of the dispatch loop, which ends with nobody waiting or no free
thread. -/
theorem dispatchReady (n : Nat) (h : Roomy pids s) (hvisible : Visible s)
    (hn : s.waiting.length ≤ n) (hP : P s) :
    Roomy pids (dispatchReady n s) ∧ P (dispatchReady n s) ∧
      ((LocOS.dispatchReady n s).waiting ≠ [] →
        canCpuExecuteProcess (LocOS.dispatchReady n s).machine = false) := by
  induction n generalizing s with
  | zero =>
      exact ⟨h, hP, fun hne => absurd (List.length_eq_zero_iff.mp (Nat.le_zero.mp hn)) hne⟩
  | succ n ih =>
      rcases dispatchReady_selected fun hready _ => h.selects hready with
        ⟨hstop, he⟩ | ⟨p, sched, i, j, core, hcore, hspace, hwf, hsame, hperm, _, he⟩
      · rw [he n]
        refine ⟨h, hP, fun hne => ?_⟩
        rw [hvisible hne, Bool.true_and] at hstop
        exact hstop
      · rw [he n]
        have hnext := h.dispatched hcore hspace hwf hsame hperm
        have hp := (s.running_dispatched h.compact.counted hcore hspace sched p).mem_iff.mp
          (List.mem_cons_self ..)
        have hlen : s.waiting.length = sched.waiting.length + 1 := hperm.length_eq
        refine ih hnext (hnext.visible_of_running hp) ?_
          (hdispatch s p sched i j core h hcore hspace hsame hperm hP)
        show sched.waiting.length ≤ n
        omega

/-! ## A pass -/

/-- The rule of a pass: it keeps what every visit of the scan, every exchange
of the queues and every dispatch keeps. `Q todo` holds when exactly `todo` is
left to visit. Afterwards some process executes, if there is one. -/
theorem schedulerPass (h : Roomy pids s) (hnd : pids.Nodup) (Q : List PcbPtr → Sys → Prop)
    (hQ : ∀ t, Q [] t → P t)
    (hscan : ∀ (todo : List PcbPtr) (i j k : Nat) (t : Sys) (core : Core) (hw : HardwareThread)
      (p : PcbPtr), Roomy pids t → t.machine.slot? i j k = some (core, hw, p) →
      Q (p :: todo) t → Q todo (LocOS.scanThread i j k t))
    (htransfer : ∀ (t : Sys) (sched : Scheduler), sched.waiting ~ t.sched.waiting →
      P t → P { t with sched })
    (h0 : Q s.machine.scanOrder s) :
    Roomy pids (schedulerPass s) ∧ P (schedulerPass s) ∧
      ((LocOS.schedulerPass s).places ≠ [] → (LocOS.schedulerPass s).running ≠ []) := by
  obtain ⟨⟨hscanned, hQs⟩, _⟩ := scanMachine_inv (fun todo t => Roomy pids t ∧ Q todo t)
    (fun todo i j k t core hw p _ hslot ht =>
      ⟨ht.1.scanThread hnd hslot, hscan todo i j k t core hw p ht.1 hslot ht.2⟩) h.compact ⟨h, h0⟩
  -- what the transfer leaves
  obtain ⟨t, hpass, ht, hPt, hvisible⟩ : ∃ t,
      LocOS.schedulerPass s = LocOS.dispatchReady t.sched.waitingCount t ∧ Roomy pids t ∧
        P t ∧ Visible t := by
    by_cases hpol : (scanMachine s).sched.policy = .preemptivePrio
    · obtain ⟨sched, he, hwf, hsame, hperm, hempty⟩ := hscanned.transferReady hpol
      have ht := hscanned.setSched hwf hsame hperm
      refine ⟨_, ?_, ht, htransfer _ sched hperm (hQ _ hQs), ht.visible fun _ => hempty⟩
      rw [schedulerPass_prio hpol, he]
    · refine ⟨scanMachine s, ?_, hscanned, hQ _ hQs, hscanned.visible fun h => absurd h hpol⟩
      unfold LocOS.schedulerPass
      simp only [if_neg hpol]
  obtain ⟨hdone, hP, hfull⟩ := ht.dispatchReady hdispatch _ hvisible
    (Nat.le_of_eq (Scheduler.waitingCount_eq _).symm) hPt
  rw [hpass]
  refine ⟨hdone, hP, fun hplaces hrun => ?_⟩
  have hwaiting : (LocOS.dispatchReady t.sched.waitingCount t).waiting ≠ [] := by
    intro hnil
    rw [Sys.places, hrun, hnil] at hplaces
    exact hplaces rfl
  have hlen := hdone.compact.length_full (hfull hwaiting)
  have hzero : (LocOS.dispatchReady t.sched.waitingCount t).machine.running.length = 0 :=
    congrArg List.length hrun
  have hthreads := hdone.threads
  omega

end

end Roomy

end LocOS
