import LocOS.Run
import LocOS.Scan
import LocOS.Waiting

/-!
# Conservation

No clock tick and no scheduler pass creates or loses a process: every PID is
on a counted slot, in a queue, completed, or was refused by a queue although
nothing looked at the refusal. The account is carried step by step, through
every slot of a tick and of a scan and every iteration of the dispatch loop,
for the policies that take processes from the head of a queue.
-/

namespace LocOS

open scoped List

/-! ## The account of a state -/

/-- The PIDs removed as completed, in order. -/
def completedPids (log : List Event) : List Int :=
  log.filterMap fun
    | .completed _ pid => some pid
    | _ => none

/-- The PIDs an enqueue refused although its result is not checked. -/
def droppedPids (log : List Event) : List Int :=
  log.filterMap fun
    | .expired _ pid false => some pid
    | .putBack _ pid false => some pid
    | .preempted _ pid _ false => some pid
    | _ => none

@[simp] theorem completedPids_append (l l' : List Event) :
    completedPids (l ++ l') = completedPids l ++ completedPids l' :=
  List.filterMap_append

@[simp] theorem droppedPids_append (l l' : List Event) :
    droppedPids (l ++ l') = droppedPids l ++ droppedPids l' :=
  List.filterMap_append

/-- An event that drops nobody. -/
theorem droppedPids_concat {log : List Event} {e : Event} (h : droppedPids log = [])
    (he : droppedPids [e] = []) : droppedPids (log ++ [e]) = [] := by
  rw [droppedPids_append, h, he]
  rfl

/-- The PIDs that are nowhere any more. -/
def endedPids (log : List Event) : List Int := completedPids log ++ droppedPids log

theorem endedPids_append_perm (l l' : List Event) :
    endedPids (l ++ l') ~ endedPids l ++ endedPids l' := by
  rw [List.perm_iff_count]
  intro pid
  simp only [endedPids, completedPids_append, droppedPids_append, List.count_append]
  omega

namespace Sys

/-- The processes on the counted slots. -/
def running (s : Sys) : List PcbPtr := s.machine.running

/-- The processes in the queues. -/
def waiting (s : Sys) : List PcbPtr := s.sched.waiting

/-- Where processes can be, with repetitions. -/
def places (s : Sys) : List PcbPtr := s.running ++ s.waiting

/-- The PID of a process. -/
def pid (s : Sys) (p : PcbPtr) : Int := (s.pcbs.get p).pid

end Sys

/-- The conservation invariant over the PIDs `pids`. -/
structure Conserved (pids : List Int) (s : Sys) : Prop where
  queues : s.sched.WF
  account : s.places.map s.pid ++ endedPids s.log ~ pids
  live : ∀ p ∈ s.places, s.pcbs.Live p
  fresh : s.pcbs.Fresh
  completedCount : s.sched.totalCompleted = ((completedPids s.log).length : Int)

namespace Conserved

variable {pids : List Int} {s : Sys}

theorem nodup_pids (h : Conserved pids s) (hnd : pids.Nodup) : (s.places.map s.pid).Nodup :=
  ((h.account.nodup_iff.mpr hnd).sublist (List.sublist_append_left ..))

theorem nodup (h : Conserved pids s) (hnd : pids.Nodup) : s.places.Nodup :=
  (h.nodup_pids hnd).of_map

theorem nodup_running (h : Conserved pids s) (hnd : pids.Nodup) : s.running.Nodup :=
  (h.nodup hnd).of_append_left

/-- Executing and waiting processes together are at most all. -/
theorem length_le (h : Conserved pids s) :
    s.running.length + s.waiting.length ≤ pids.length := by
  have hlen := h.account.length_eq
  simp only [Sys.places, List.length_append, List.length_map] at hlen
  omega

/-- The account after a step that replaces the processes `out` by objects
`new` with the same PIDs, apart from the PIDs `gone`, and keeps the `rest`. -/
theorem exchange (h : Conserved pids s) {s' : Sys} (out rest new : List PcbPtr)
    (gone : List Int) (hqueues : s'.sched.WF) (hplaces : s.places ~ out ++ rest)
    (hplaces' : s'.places ~ new ++ rest) (hkeeps : ∀ p ∈ rest, s.pcbs.Keeps s'.pcbs p)
    (hnew : ∀ p ∈ new, s'.pcbs.Live p) (hpids : out.map s.pid ~ new.map s'.pid ++ gone)
    (hended : endedPids s'.log ~ endedPids s.log ++ gone) (hfresh : s'.pcbs.Fresh)
    (hcount : s'.sched.totalCompleted = ((completedPids s'.log).length : Int)) :
    Conserved pids s' where
  queues := hqueues
  account := by
    have hrest : rest.map s'.pid = rest.map s.pid :=
      List.map_congr_left fun p hp => (hkeeps p hp).pid
    rw [List.perm_iff_count]
    intro pid
    have h1 := (hplaces.map s.pid).count_eq pid
    have h2 := (hplaces'.map s'.pid).count_eq pid
    have h3 := hpids.count_eq pid
    have h4 := hended.count_eq pid
    have h5 := h.account.count_eq pid
    simp only [List.map_append, List.count_append, hrest] at h1 h2 h3 h4 h5 ⊢
    omega
  live := by
    intro p hp
    rcases List.mem_append.mp (hplaces'.mem_iff.mp hp) with hp | hp
    · exact hnew p hp
    · exact (hkeeps p hp).live
  fresh := hfresh
  completedCount := hcount

/-- The account after a step in which `gone` leave for good and every other
process stays somewhere. -/
theorem move (h : Conserved pids s) {s' : Sys} (gone : List PcbPtr) (hqueues : s'.sched.WF)
    (hplaces : s.places ~ gone ++ s'.places)
    (hkeeps : ∀ p ∈ s'.places, s.pcbs.Keeps s'.pcbs p)
    (hended : endedPids s'.log ~ endedPids s.log ++ gone.map s.pid)
    (hfresh : s'.pcbs.Fresh)
    (hcount : s'.sched.totalCompleted = ((completedPids s'.log).length : Int)) :
    Conserved pids s' :=
  h.exchange gone s'.places [] (gone.map s.pid) hqueues hplaces (.refl _) hkeeps
    (fun _ hp => by cases hp) (.refl _) hended hfresh hcount

/-- A step in which every process stays somewhere and nothing is reported
completed or refused. -/
theorem stay (h : Conserved pids s) {s' : Sys} (hqueues : s'.sched.WF)
    (hplaces : s.places ~ s'.places) (hkeeps : ∀ p ∈ s'.places, s.pcbs.Keeps s'.pcbs p)
    (hfresh : s'.pcbs.Fresh)
    (htotal : s'.sched.totalCompleted = s.sched.totalCompleted)
    (hcompleted : completedPids s'.log = completedPids s.log)
    (hdropped : droppedPids s'.log = droppedPids s.log) : Conserved pids s' := by
  refine h.move [] hqueues hplaces hkeeps ?_ hfresh ?_
  · rw [endedPids, hcompleted, hdropped, List.map_nil, List.append_nil, endedPids]
  · rw [htotal, hcompleted]
    exact h.completedCount

end Conserved

/-! ## The booted system -/

/-- What `boot` returns. -/
structure Booted (cfg : Config) (pcbs : List PCB) (s : Sys) : Prop where
  machine : s.machine = cfg.machine
  pm : s.clockPmRef = cfg.clockPmRef
  heap : s.pcbs = bootHeap pcbs
  log : s.log = []
  quantumPos : 1 ≤ cfg.quantum
  quantum : s.sched.quantum = cfg.quantum
  policy : s.sched.policy = cfg.policy
  syncMode : s.sched.syncMode = cfg.syncMode
  totalCompleted : s.sched.totalCompleted = 0
  ready : s.sched.readyQueue.WF
  readyList : s.sched.readyQueue.toList = List.range pcbs.length
  readyCapacity : s.sched.readyQueue.maxCapacity = cfg.readyQueueSize
  fits : pcbs.length ≤ cfg.readyQueueSize
  levels : s.sched.priorityQueues =
    if cfg.policy = .preemptivePrio then
      List.replicate numPriorityLevels
        (createProcessQueue (priorityQueueCapacity cfg.readyQueueSize))
    else []

theorem boot_spec {cfg : Config} {pcbs : List PCB} {s : Sys} (h : boot cfg pcbs = some s) :
    Booted cfg pcbs s := by
  obtain ⟨sched, hsched, h⟩ := Option.bind_eq_some_iff.mp h
  obtain ⟨rq, hrq, rfl⟩ := Option.map_eq_some_iff.mp h
  unfold createSchedulerWithPolicy at hsched
  split at hsched
  · cases hsched
  · rename_i hq
    obtain rfl := Option.some.inj hsched
    obtain ⟨hfit, hwf, hl, hcap⟩ :=
      ProcessQueue.enqueueAll_eq_some (ProcessQueue.createProcessQueue_wf cfg.sizePos) hrq
    have hfit : pcbs.length ≤ cfg.readyQueueSize := by
      simpa [createProcessQueue] using hfit
    exact ⟨rfl, rfl, rfl, rfl, by omega, rfl, rfl, rfl, rfl, hwf, hl, hcap, hfit, rfl⟩

theorem one_le_priorityQueueCapacity (n : Nat) : 0 < priorityQueueCapacity n := by
  unfold priorityQueueCapacity
  split <;> omega

namespace Booted

variable {cfg : Config} {pcbs : List PCB} {s : Sys}

theorem levels_eq (h : Booted cfg pcbs s) {pq : ProcessQueue}
    (hpq : pq ∈ s.sched.priorityQueues) :
    pq = createProcessQueue (priorityQueueCapacity cfg.readyQueueSize) := by
  rw [h.levels] at hpq
  split at hpq
  · exact List.eq_of_mem_replicate hpq
  · cases hpq

theorem queues (h : Booted cfg pcbs s) : s.sched.WF where
  ready := h.ready
  levels := by
    intro pq hpq
    rw [h.levels_eq hpq]
    exact ProcessQueue.createProcessQueue_wf (one_le_priorityQueueCapacity _)
  numLevels := by
    intro hp
    rw [h.levels, if_pos (h.policy.symm.trans hp), List.length_replicate]

theorem waiting (h : Booted cfg pcbs s) : s.waiting = List.range pcbs.length := by
  have hlevels : s.sched.priorityQueues.flatMap ProcessQueue.toList = [] := by
    rw [List.flatMap_eq_nil_iff]
    intro pq hpq
    rw [h.levels_eq hpq, ProcessQueue.createProcessQueue_toList]
  rw [Sys.waiting, Scheduler.waiting, hlevels, h.readyList, List.append_nil]

theorem conserved (h : Booted cfg pcbs s) (hidle : cfg.machine.Idle) :
    Conserved (pcbs.map PCB.pid) s := by
  have hplaces : s.places = List.range pcbs.length := by
    rw [Sys.places, Sys.running, h.machine, hidle.running, h.waiting, List.nil_append]
  refine ⟨h.queues, ?_, ?_, ?_, ?_⟩
  · have hmap : (List.range pcbs.length).map s.pid = pcbs.map PCB.pid := by
      have hpid : s.pid = PCB.pid ∘ (bootHeap pcbs).get := by
        funext p
        rw [Sys.pid, h.heap]
        rfl
      rw [hpid, ← List.map_map, map_get_bootHeap]
    rw [hplaces, hmap, h.log]
    simp [endedPids, completedPids, droppedPids]
  · intro p hp
    rw [hplaces] at hp
    rw [h.heap]
    exact live_bootHeap.mpr (List.mem_range.mp hp)
  · intro p hp
    rw [h.heap] at hp ⊢
    exact live_bootHeap.mp hp
  · rw [h.totalCompleted, h.log]
    rfl

end Booted

/-! ## Clock ticks -/

theorem PcbHeap.keeps_age {h : PcbHeap} {p q : PcbPtr} (hq : h.Live q) : h.Keeps (h.age p) q :=
  PcbHeap.keeps_set (PCB.decrementTtl_pid _) (PCB.decrementTtl_priority _) (PCB.decrementTtl_mm _)
    hq

theorem keeps_executeInstruction {s : ExecState} {p q : PcbPtr} {instruction : Word}
    (hq : s.pcbs.Live q) : s.pcbs.Keeps (executeInstruction s p instruction).pcbs q := by
  rw [executeInstruction_pcbs]
  split
  · refine PcbHeap.keeps_set ?_ ?_ ?_ hq <;> rfl
  · exact .refl hq

theorem fresh_executeInstruction {s : ExecState} {p : PcbPtr} {instruction : Word}
    (h : s.pcbs.Fresh) : (executeInstruction s p instruction).pcbs.Fresh := by
  rw [executeInstruction_pcbs]
  split
  · exact h.set _ _
  · exact h

theorem inRange_executeInstruction {s : ExecState} {p : PcbPtr} {instruction : Word}
    (h : s.pcbs.InRange) : (executeInstruction s p instruction).pcbs.InRange := by
  rw [executeInstruction_pcbs]
  split
  · exact h.set rfl
  · exact h

/-- One slot of a tick keeps the machine compact and the processes where they
are. -/
theorem tickThread_machine {s : Sys} (hc : s.machine.Compact) (i j k : Nat) :
    (tickThread i j k s).machine.Compact ∧
      (tickThread i j k s).machine.running = s.machine.running := by
  rcases tickThread_cases i j k s with
    ⟨_, he⟩ | ⟨core, hw, p, _, _, he⟩ | ⟨core, hw, p, pm, base, hslot, _, _, _, he⟩
  · rw [he]
    exact ⟨hc, rfl⟩
  · rw [he]
    exact ⟨hc, rfl⟩
  · obtain ⟨hcore, hk, hp⟩ := Machine.slot?_eq_some.mp hslot
    have hthread := (hc.core hcore).setThread hk (executeInstruction
      (fetched (s.exec hw pm p) p) p (fetch (s.exec hw pm p))).hw
      (executeInstruction_hw_pcb ..)
    rw [he]
    exact ⟨hc.setCore hcore hthread, Machine.running_setCore_eq hcore hthread.running_eq⟩

theorem Conserved.tickThread {pids : List Int} {s : Sys} (h : Conserved pids s)
    (hc : s.machine.Compact) (i j k : Nat) : Conserved pids (tickThread i j k s) := by
  have hrun := (tickThread_machine hc i j k).2
  rcases tickThread_cases i j k s with
    ⟨_, he⟩ | ⟨core, hw, p, _, _, he⟩ | ⟨core, hw, p, pm, base, hslot, _, _, _, he⟩
  · rwa [he]
  · rw [he]
    exact h.stay h.queues (.refl _) (fun q hq => PcbHeap.keeps_age (h.live q hq))
      (h.fresh.set _ _) rfl rfl rfl
  · rw [he] at hrun ⊢
    refine h.stay h.queues ?_ ?_ (fresh_executeInstruction (h.fresh.set _ _)) rfl ?_ ?_
    · rw [Sys.places, Sys.places, Sys.running, Sys.running, hrun]
      exact .refl _
    · intro q hq
      rw [Sys.places, Sys.running, hrun] at hq
      have hage := PcbHeap.keeps_age (p := p) (h.live q hq)
      exact hage.trans (keeps_executeInstruction (s := fetched (s.exec hw pm p) p) hage.live)
    · show completedPids (executeInstruction _ _ _).log = _
      rw [executeInstruction_log]
      simp [fetched, Sys.exec, completedPids]
    · show droppedPids (executeInstruction _ _ _).log = _
      rw [executeInstruction_log]
      simp [fetched, Sys.exec, droppedPids]

/-- What every slot of a tick keeps, a tick keeps. -/
theorem clockTick_inv {s : Sys} (P : Sys → Prop)
    (h0 : P { s with
      clkCounter := s.clkCounter + 1
      log := s.log ++ [Event.tick (s.clkCounter + 1)] })
    (hslot : ∀ i j k t, P t → P (tickThread i j k t)) : P (clockTick s) := by
  refine Loop.foldl_inv P h0 fun ij _ t ht => ?_
  unfold tickCore
  split
  · exact ht
  · exact Loop.up_inv (fun _ => P) ht fun k t _ ht => hslot _ _ k t ht

/-- The clock counts. -/
theorem Conserved.tickEvent {pids : List Int} {s : Sys} (h : Conserved pids s) :
    Conserved pids { s with
      clkCounter := s.clkCounter + 1
      log := s.log ++ [Event.tick (s.clkCounter + 1)] } :=
  h.stay h.queues (.refl _) (fun q hq => .refl (h.live q hq)) h.fresh rfl
    (by simp [completedPids]) (by simp [droppedPids])

theorem Conserved.clockTick {pids : List Int} {s : Sys} (h : Conserved pids s)
    (hc : s.machine.Compact) : Conserved pids (clockTick s) ∧ (clockTick s).machine.Compact := by
  refine clockTick_inv (fun t => Conserved pids t ∧ t.machine.Compact) ⟨h.tickEvent, hc⟩ ?_
  intro i j k t ht
  exact ⟨ht.1.tickThread ht.2 i j k, (tickThread_machine ht.2 i j k).1⟩

/-! ## The scan -/

theorem PcbHeap.keeps_charge {h : PcbHeap} {p q : PcbPtr} (hq : h.Live q) :
    h.Keeps (h.set p (h.get p).charge) q := by
  refine PcbHeap.keeps_set ?_ ?_ ?_ hq <;> rfl

theorem Conserved.charge {pids : List Int} {s : Sys} (h : Conserved pids s) (p : PcbPtr) :
    Conserved pids (s.charge p) :=
  h.stay h.queues (.refl _) (fun _ hq => PcbHeap.keeps_charge (h.live _ hq))
    (h.fresh.set _ _) rfl rfl rfl

theorem Conserved.completeThread {pids : List Int} {s : Sys} (h : Conserved pids s)
    (hnd : pids.Nodup) (hc : s.machine.Compact) {i j k : Nat} {core : Core}
    {hw : HardwareThread} {p : PcbPtr} (hslot : s.machine.slot? i j k = some (core, hw, p)) :
    Conserved pids (completeThread i j k core p s) := by
  have hplaces : s.places ~ [p] ++ (LocOS.completeThread i j k core p s).places :=
    (Machine.running_removeThread_perm hc hslot).append_right s.waiting
  have hnd' := hplaces.nodup_iff.mp (h.nodup hnd)
  refine h.move [p] ⟨h.queues.ready, h.queues.levels, h.queues.numLevels⟩ hplaces ?_ ?_
    (h.fresh.destroyPcb p) ?_
  · intro q hq
    have hne : q ≠ p := by
      rintro rfl
      exact (List.nodup_cons.mp hnd').1 hq
    exact PcbHeap.keeps_destroyPcb hne (h.live q (hplaces.mem_iff.mpr (List.mem_cons_of_mem p hq)))
  · exact endedPids_append_perm ..
  · show s.sched.totalCompleted + 1 = _
    simp [h.completedCount, LocOS.completeThread, completedPids]

/-- The PCB a quantum expiry leaves, deadline included. -/
def expiredPcb (s : Sys) (hw : HardwareThread) (p : PcbPtr) : PCB :=
  let pcb := (s.pcbs.get p).suspend hw
  if s.sched.policy = .bfs then
    { pcb with virtualDeadline := bfsDeadline s.sched s.clkCounter pcb.priority }
  else pcb

theorem expiredPcb_pid (s : Sys) (hw : HardwareThread) (p : PcbPtr) :
    (expiredPcb s hw p).pid = (s.pcbs.get p).pid := by
  unfold expiredPcb
  split <;> rfl

theorem expiredPcb_priority (s : Sys) (hw : HardwareThread) (p : PcbPtr) :
    (expiredPcb s hw p).priority = (s.pcbs.get p).priority := by
  unfold expiredPcb
  split <;> rfl

theorem expiredPcb_mm (s : Sys) (hw : HardwareThread) (p : PcbPtr) :
    (expiredPcb s hw p).mm = (s.pcbs.get p).mm := by
  unfold expiredPcb
  split <;> rfl

theorem expiredPcb_context (s : Sys) (hw : HardwareThread) (p : PcbPtr) :
    (expiredPcb s hw p).context = ⟨hw.pc, hw.ir, hw.registers⟩ := by
  unfold expiredPcb
  split <;> rfl

/-- A quantum expiry moves the process to its queue, or loses it when that
queue is full. -/
theorem expireThread_cases {s : Sys} (hq : s.sched.WF) (i j k : Nat) (core : Core)
    (hw : HardwareThread) (p : PcbPtr) :
    (∃ sched, enqueueToScheduler s.sched (s.pcbs.set p (expiredPcb s hw p)) p = some sched ∧
      sched.WF ∧ Scheduler.SameConfig s.sched sched ∧ sched.waiting ~ p :: s.sched.waiting ∧
      expireThread i j k core hw p s =
        { s with
          machine := s.machine.setCore i j (core.removeThread k)
          sched
          pcbs := s.pcbs.set p (expiredPcb s hw p)
          log := s.log ++ [Event.expired p (s.pid p) true] }) ∨
    (enqueueToScheduler s.sched (s.pcbs.set p (expiredPcb s hw p)) p = none ∧
      expireThread i j k core hw p s =
        { s with
          machine := s.machine.setCore i j (core.removeThread k)
          pcbs := s.pcbs.set p (expiredPcb s hw p)
          log := s.log ++ [Event.expired p (s.pid p) false] }) := by
  have hdef : expireThread i j k core hw p s =
      { s with
        machine := s.machine.setCore i j (core.removeThread k)
        sched := (enqueueToScheduler s.sched (s.pcbs.set p (expiredPcb s hw p)) p).getD s.sched
        pcbs := s.pcbs.set p (expiredPcb s hw p)
        log := s.log ++ [Event.expired p (expiredPcb s hw p).pid
          (enqueueToScheduler s.sched (s.pcbs.set p (expiredPcb s hw p)) p).isSome] } := rfl
  rw [expiredPcb_pid] at hdef
  rcases Scheduler.enqueueToScheduler_cases hq (s.pcbs.set p (expiredPcb s hw p)) p with
    ⟨he, _⟩ | ⟨sched, pq, he, _, _, hwf, hsame, hperm⟩
  · right
    rw [he] at hdef
    exact ⟨he, hdef⟩
  · left
    rw [he] at hdef
    exact ⟨sched, he, hwf, hsame, hperm, hdef⟩

theorem Conserved.expireThread {pids : List Int} {s : Sys} (h : Conserved pids s)
    (hc : s.machine.Compact) {i j k : Nat} {core : Core}
    {hw : HardwareThread} {p : PcbPtr} (hslot : s.machine.slot? i j k = some (core, hw, p)) :
    Conserved pids (expireThread i j k core hw p s) := by
  have hrun := Machine.running_removeThread_perm hc hslot
  have hkeeps : ∀ q, s.pcbs.Live q → s.pcbs.Keeps (s.pcbs.set p (expiredPcb s hw p)) q :=
    fun q hq => PcbHeap.keeps_set (expiredPcb_pid ..) (expiredPcb_priority ..)
      (expiredPcb_mm ..) hq
  rcases expireThread_cases h.queues i j k core hw p with
    ⟨sched, _, hwf, hsame, hperm, he⟩ | ⟨_, he⟩
  · rw [he]
    have hplaces : s.places ~ (s.machine.setCore i j (core.removeThread k)).running ++
        sched.waiting :=
      calc s.running ++ s.waiting
          ~ (p :: (s.machine.setCore i j (core.removeThread k)).running) ++ s.waiting :=
            hrun.append_right _
        _ ~ (s.machine.setCore i j (core.removeThread k)).running ++ (p :: s.waiting) :=
            List.perm_middle.symm
        _ ~ (s.machine.setCore i j (core.removeThread k)).running ++ sched.waiting :=
            hperm.symm.append_left _
    refine h.stay hwf hplaces (fun q hq => hkeeps q (h.live q (hplaces.mem_iff.mpr hq)))
      (h.fresh.set _ _) hsame.totalCompleted (by simp [completedPids]) (by simp [droppedPids])
  · rw [he]
    have hplaces : s.places ~ [p] ++
        ((s.machine.setCore i j (core.removeThread k)).running ++ s.waiting) :=
      hrun.append_right s.waiting
    refine h.move [p] h.queues hplaces
      (fun q hq => hkeeps q (h.live q (hplaces.mem_iff.mpr (List.mem_cons_of_mem p hq)))) ?_
      (h.fresh.set _ _) ?_
    · exact endedPids_append_perm ..
    · simp [h.completedCount, completedPids]

theorem Conserved.scanThread {pids : List Int} {s : Sys} (h : Conserved pids s)
    (hnd : pids.Nodup) (hc : s.machine.Compact) {i j k : Nat} {core : Core}
    {hw : HardwareThread} {p : PcbPtr} (hslot : s.machine.slot? i j k = some (core, hw, p)) :
    Conserved pids (scanThread i j k s) := by
  rcases scanThread_cases hslot with ⟨_, he⟩ | ⟨_, _, he⟩ | ⟨_, _, he⟩
  · rw [he]
    exact (h.charge p).completeThread hnd hc hslot
  · rw [he]
    exact (h.charge p).expireThread hc hslot
  · rw [he]
    exact h.charge p

theorem Conserved.scanMachine {pids : List Int} {s : Sys} (h : Conserved pids s)
    (hnd : pids.Nodup) (hc : s.machine.Compact) :
    Conserved pids (scanMachine s) ∧ (scanMachine s).machine.Compact :=
  scanMachine_inv (fun _ => Conserved pids)
    (fun _ _ _ _ _ _ _ _ hct hslot ht => ht.scanThread hnd hct hslot) hc h

/-- Only static priorities have a transfer between the scan and the dispatch. -/
theorem schedulerPass_noTransfer {s : Sys} (h : (scanMachine s).sched.policy ≠ .preemptivePrio) :
    schedulerPass s = dispatchReady (scanMachine s).sched.waitingCount (scanMachine s) := by
  rw [schedulerPass, if_neg h]

/-! ## Dispatch -/

theorem PCB.start_pid (pcb : PCB) (sched : Scheduler) (clkCounter : Int) :
    (pcb.start sched clkCounter).pid = pcb.pid := by
  simp only [PCB.start]
  split <;> rfl

theorem PCB.start_priority (pcb : PCB) (sched : Scheduler) (clkCounter : Int) :
    (pcb.start sched clkCounter).priority = pcb.priority := by
  simp only [PCB.start]
  split <;> rfl

theorem PCB.start_mm (pcb : PCB) (sched : Scheduler) (clkCounter : Int) :
    (pcb.start sched clkCounter).mm = pcb.mm := by
  simp only [PCB.start]
  split <;> rfl

theorem PCB.start_context (pcb : PCB) (sched : Scheduler) (clkCounter : Int) :
    (pcb.start sched clkCounter).context = pcb.context := by
  simp only [PCB.start]
  split <;> rfl

theorem PCB.start_state (pcb : PCB) (sched : Scheduler) (clkCounter : Int) :
    (pcb.start sched clkCounter).state = .running := by
  simp only [PCB.start]
  split <;> rfl

/-- The heap after a dispatch set the fields of the selected process. -/
def Sys.started (s : Sys) (sched : Scheduler) (p : PcbPtr) : PcbHeap :=
  s.pcbs.set p ((s.pcbs.get p).start sched s.clkCounter)

/-- The system after a dispatch put `p` on a slot of core `(i, j)`. -/
def Sys.dispatched (s : Sys) (sched : Scheduler) (p : PcbPtr) (i j : Nat) (core : Core) : Sys :=
  { s with
    machine := s.machine.setCore i j (core.assign p ((s.started sched p).get p))
    sched
    pcbs := s.started sched p
    log := s.log ++ [Event.assigned p (s.pid p)] }

/-- A dispatched process is on the slots besides those that were. -/
theorem Sys.running_dispatched (s : Sys) (hc : s.machine.Counted) {i j : Nat} {core : Core}
    (hcore : s.machine.core? i j = some core) (hspace : core.hasSpace = true)
    (sched : Scheduler) (p : PcbPtr) :
    p :: s.machine.running ~ (s.dispatched sched p i j core).running := by
  have hassign := (hc.core hcore).assign hspace p ((s.started sched p).get p)
  refine Machine.running_setCore_perm hcore [p] [] ?_
  rw [hassign.running_eq]
  exact (List.perm_append_singleton ..).symm

/-- A dispatch loses nobody. -/
theorem Sys.places_dispatched (s : Sys) (hc : s.machine.Counted) {p : PcbPtr} {sched : Scheduler}
    {i j : Nat} {core : Core} (hcore : s.machine.core? i j = some core)
    (hspace : core.hasSpace = true) (hperm : s.sched.waiting ~ p :: sched.waiting) :
    s.places ~ (s.dispatched sched p i j core).places :=
  calc s.running ++ s.waiting
      ~ s.running ++ (p :: sched.waiting) := hperm.append_left _
    _ ~ (p :: s.running) ++ sched.waiting := List.perm_middle
    _ ~ (s.dispatched sched p i j core).running ++ sched.waiting :=
        (s.running_dispatched hc hcore hspace sched p).append_right _

/-- An iteration whose selection and assignment succeed. -/
theorem dispatchReady_assigned {s : Sys} {p : PcbPtr} {sched : Scheduler} {i j : Nat} {core : Core}
    (hready : hasReadyProcesses s.sched = true) (hcan : canCpuExecuteProcess s.machine = true)
    (hsel : selectNextProcess s.sched s.pcbs = some (p, sched))
    (hassign : assignProcessToCore s.machine (s.started sched p) p =
      some (s.machine.setCore i j (core.assign p ((s.started sched p).get p)))) (n : Nat) :
    dispatchReady (n + 1) s = dispatchReady n (s.dispatched sched p i j core) := by
  rw [Sys.started] at hassign
  simp only [dispatchReady, hready, hcan, Bool.and_self, if_true, hsel, hassign, PCB.start_pid]
  rfl

/-- The dispatch loop stops where it is, or takes a process from its queue to
a free slot and goes on, when a selection takes one process from the queues.
It never has to put a process back. -/
theorem dispatchReady_selected {s : Sys}
    (hselect : hasReadyProcesses s.sched = true → canCpuExecuteProcess s.machine = true →
      ∃ p sched, selectNextProcess s.sched s.pcbs = some (p, sched) ∧ sched.WF ∧
        Scheduler.SameConfig s.sched sched ∧ s.sched.waiting ~ p :: sched.waiting) :
    ((hasReadyProcesses s.sched && canCpuExecuteProcess s.machine) = false ∧
      ∀ n, dispatchReady (n + 1) s = s) ∨
    ∃ p sched i j core, s.machine.core? i j = some core ∧ core.hasSpace = true ∧
      sched.WF ∧ Scheduler.SameConfig s.sched sched ∧ s.sched.waiting ~ p :: sched.waiting ∧
      selectNextProcess s.sched s.pcbs = some (p, sched) ∧
      ∀ n, dispatchReady (n + 1) s = dispatchReady n (s.dispatched sched p i j core) := by
  by_cases hready : hasReadyProcesses s.sched = true
  · by_cases hcan : canCpuExecuteProcess s.machine = true
    · right
      obtain ⟨p, sched, hsel, hwf, hsame, hperm⟩ := hselect hready hcan
      rcases s.machine.assignProcessToCore_cases (s.started sched p) p with
        ⟨hno, _⟩ | ⟨i, j, core, hcore, hspace, hassign⟩
      · rw [hcan] at hno
        cases hno
      · exact ⟨p, sched, i, j, core, hcore, hspace, hwf, hsame, hperm, hsel,
          dispatchReady_assigned hready hcan hsel hassign⟩
    · left
      simp [dispatchReady, hcan]
  · left
    simp [dispatchReady, hready]

theorem dispatchReady_cases {s : Sys} (hq : s.sched.WF) (hpol : s.sched.policy ≠ .bfs) (n : Nat) :
    (dispatchReady (n + 1) s = s ∧
      (hasReadyProcesses s.sched && canCpuExecuteProcess s.machine) = false) ∨
    ∃ p sched i j core, s.machine.core? i j = some core ∧ core.hasSpace = true ∧
      sched.WF ∧ Scheduler.SameConfig s.sched sched ∧ s.sched.waiting ~ p :: sched.waiting ∧
      selectNextProcess s.sched s.pcbs = some (p, sched) ∧
      dispatchReady (n + 1) s = dispatchReady n (s.dispatched sched p i j core) := by
  have hselect := Scheduler.selectNextProcess_cases hq hpol s.pcbs
  rcases dispatchReady_selected fun hready _ => hselect hready with
    ⟨hstop, he⟩ | ⟨p, sched, i, j, core, hcore, hspace, hwf, hsame, hperm, hsel, he⟩
  · exact .inl ⟨he n, hstop⟩
  · exact .inr ⟨p, sched, i, j, core, hcore, hspace, hwf, hsame, hperm, hsel, he n⟩

/-- What every dispatch keeps, the dispatch loop keeps. -/
theorem dispatchReady_inv {P : Sys → Prop} (hwf : ∀ s, P s → s.sched.WF)
    (hpol : ∀ s, P s → s.sched.policy ≠ .bfs)
    (hstep : ∀ (s : Sys) (p : PcbPtr) (sched : Scheduler) (i j : Nat) (core : Core), P s →
      s.machine.core? i j = some core → core.hasSpace = true → sched.WF →
      Scheduler.SameConfig s.sched sched → s.sched.waiting ~ p :: sched.waiting →
      selectNextProcess s.sched s.pcbs = some (p, sched) → P (s.dispatched sched p i j core))
    (n : Nat) {s : Sys} (h : P s) : P (dispatchReady n s) := by
  induction n generalizing s with
  | zero => exact h
  | succ n ih =>
      rcases dispatchReady_cases (hwf s h) (hpol s h) n with
        ⟨he, _⟩ | ⟨p, sched, i, j, core, hcore, hspace, hwf', hsame, hperm, hsel, he⟩
      · rwa [he]
      · rw [he]
        exact ih (hstep s p sched i j core h hcore hspace hwf' hsame hperm hsel)

theorem Conserved.dispatched {pids : List Int} {s : Sys} (h : Conserved pids s)
    (hc : s.machine.Counted) {p : PcbPtr} {sched : Scheduler} {i j : Nat} {core : Core}
    (hcore : s.machine.core? i j = some core) (hspace : core.hasSpace = true) (hwf : sched.WF)
    (hsame : Scheduler.SameConfig s.sched sched) (hperm : s.sched.waiting ~ p :: sched.waiting) :
    Conserved pids (s.dispatched sched p i j core) := by
  have hplaces := s.places_dispatched hc hcore hspace hperm
  refine h.stay hwf hplaces ?_ (h.fresh.set _ _) hsame.totalCompleted ?_ ?_
  · intro q hq
    exact PcbHeap.keeps_set (PCB.start_pid ..) (PCB.start_priority ..) (PCB.start_mm ..)
      (h.live q (hplaces.mem_iff.mpr hq))
  · simp [Sys.dispatched, completedPids]
  · simp [Sys.dispatched, droppedPids]

end LocOS
