import LocOS.BfsQueue
import LocOS.RoundRobin

/-!
# OneQueue

Round Robin and BFS keep everybody who waits in `ready_queue`. When it has
room for all processes it refuses nobody, and no selection loses one: that of
Round Robin takes the front, and the shifts of BFS do not come around to the
front of a ring twice as long as there are processes.
-/

namespace LocOS

open scoped List

/-- What a run with one queue keeps besides the account. -/
structure OneQueue (policy : Policy) (pids : List Int) (s : Sys) : Prop where
  conserved : Conserved pids s
  samePolicy : s.sched.policy = policy
  single : policy ≠ .preemptivePrio
  noLevels : s.sched.priorityQueues = []
  capacity : pids.length ≤ s.sched.readyQueue.maxCapacity
  fits : policy = .bfs → 2 * pids.length ≤ s.sched.readyQueue.maxCapacity + 2
  dropped : droppedPids s.log = []

namespace OneQueue

variable {policy : Policy} {pids : List Int} {s t : Sys}

theorem waiting_eq (h : OneQueue policy pids s) : s.waiting = s.sched.readyQueue.toList := by
  simp [Sys.waiting, Scheduler.waiting, h.noLevels]

/-- No more wait than there are processes, and fewer while one executes. -/
theorem size_le (h : OneQueue policy pids s) :
    s.sched.readyQueue.currentSize + s.running.length ≤ pids.length := by
  have hlen := h.conserved.length_le
  rw [h.waiting_eq, ProcessQueue.length_toList] at hlen
  omega

/-- As long as some process executes, `ready_queue` has room. -/
theorem accepts (h : OneQueue policy pids s) {p : PcbPtr} (hp : p ∈ s.running) (pcbs : PcbHeap)
    (q : PcbPtr) : enqueueToScheduler s.sched pcbs q ≠ none := by
  intro hnone
  have hroom : s.sched.readyQueue.currentSize < s.sched.readyQueue.maxCapacity := by
    have hsize := h.size_le
    have hcap := h.capacity
    have hpos := List.length_pos_of_mem hp
    omega
  obtain ⟨_, he⟩ := Scheduler.exists_enqueue h.conserved.queues
    (Scheduler.queueFor?_single (h.samePolicy.trans_ne h.single) (pcbs.get q).priority) hroom
  rw [hnone] at he
  cases he

/-- A selection takes one process from the queue. -/
theorem select (h : OneQueue policy pids s) (hready : hasReadyProcesses s.sched = true) :
    ∃ p sched, selectNextProcess s.sched s.pcbs = some (p, sched) ∧ sched.WF ∧
      Scheduler.SameConfig s.sched sched ∧ s.sched.waiting ~ p :: sched.waiting := by
  by_cases hpol : policy = .bfs
  · refine Scheduler.selectNextProcess_bfs h.conserved.queues (h.samePolicy.trans hpol) s.pcbs ?_
      hready
    intro i hi _
    have hsize := h.size_le
    have hfits := h.fits hpol
    unfold ProcessQueue.RemovalFits
    omega
  · exact Scheduler.selectNextProcess_cases h.conserved.queues (h.samePolicy.trans_ne hpol)
      s.pcbs hready

/-! ## Steps -/

/-- A step that keeps the account and the policy, no longer or shorter queues,
and refuses nobody. -/
theorem step (h : OneQueue policy pids s) (hcons : Conserved pids t)
    (hpol : t.sched.policy = s.sched.policy)
    (hcap : t.sched.readyQueue.maxCapacity = s.sched.readyQueue.maxCapacity)
    (hlevels : t.sched.priorityQueues.map (·.maxCapacity) =
      s.sched.priorityQueues.map (·.maxCapacity)) (hdropped : droppedPids t.log = []) :
    OneQueue policy pids t where
  conserved := hcons
  samePolicy := hpol.trans h.samePolicy
  single := h.single
  noLevels := by
    rw [h.noLevels] at hlevels
    exact List.map_eq_nil_iff.mp hlevels
  capacity := by
    rw [hcap]
    exact h.capacity
  fits := by
    rw [hcap]
    exact h.fits
  dropped := hdropped

/-- A step that moves processes between the queues. -/
theorem moved (h : OneQueue policy pids s) (hcons : Conserved pids t)
    (hsame : Scheduler.SameConfig s.sched t.sched) (hdropped : droppedPids t.log = []) :
    OneQueue policy pids t :=
  h.step hcons hsame.policy hsame.readyCapacity hsame.levelCapacity hdropped

theorem tickThread (h : OneQueue policy pids s) (hc : s.machine.Compact) (i j k : Nat) :
    OneQueue policy pids (LocOS.tickThread i j k s) := by
  have hcons := h.conserved.tickThread hc i j k
  rcases tickThread_cases i j k s with
    ⟨_, he⟩ | ⟨core, hw, p, _, _, he⟩ | ⟨core, hw, p, pm, base, _, _, _, _, he⟩
  · rwa [he]
  · rw [he] at hcons ⊢
    exact h.step hcons rfl rfl rfl h.dropped
  · rw [he] at hcons ⊢
    refine h.step hcons rfl rfl rfl ?_
    show droppedPids (executeInstruction _ _ _).log = []
    rw [exec_log]
    exact droppedPids_concat h.dropped rfl

theorem tickEvent (h : OneQueue policy pids s) :
    OneQueue policy pids { s with
      clkCounter := s.clkCounter + 1
      log := s.log ++ [Event.tick (s.clkCounter + 1)] } :=
  h.step h.conserved.tickEvent rfl rfl rfl (droppedPids_concat h.dropped rfl)

theorem charge (h : OneQueue policy pids s) (p : PcbPtr) : OneQueue policy pids (s.charge p) :=
  h.step (h.conserved.charge p) rfl rfl rfl h.dropped

/-- A visit of the scan either leaves the queue, with the process visited on
its thread or done, or puts it at the rear. -/
theorem scanThread (h : OneQueue policy pids s) (hnd : pids.Nodup) (hc : s.machine.Compact)
    {i j k : Nat} {core : Core} {hw : HardwareThread} {p : PcbPtr}
    (hslot : s.machine.slot? i j k = some (core, hw, p)) :
    OneQueue policy pids (LocOS.scanThread i j k s) := by
  have hcons := h.conserved.scanThread hnd hc hslot
  rcases scanThread_cases hslot with ⟨_, he⟩ | ⟨_, _, he⟩ | ⟨_, _, he⟩
  · rw [he] at hcons ⊢
    exact h.step hcons rfl rfl rfl (droppedPids_concat h.dropped rfl)
  · rw [he] at hcons ⊢
    rcases expireThread_cases (h.charge p).conserved.queues i j k core hw p with
      ⟨sched, _, _, hsame, _, hexp⟩ | ⟨hnone, _⟩
    · rw [hexp] at hcons ⊢
      exact h.moved hcons hsame (droppedPids_concat h.dropped rfl)
    · exact absurd hnone ((h.charge p).accepts (Machine.mem_running_of_slot hc hslot) _ p)
  · rw [he]
    exact h.charge p

theorem dispatched (h : OneQueue policy pids s) (hc : s.machine.Compact) {p : PcbPtr}
    {sched : Scheduler} {i j : Nat} {core : Core} (hcore : s.machine.core? i j = some core)
    (hspace : core.hasSpace = true) (hwf : sched.WF)
    (hsame : Scheduler.SameConfig s.sched sched) (hperm : s.sched.waiting ~ p :: sched.waiting) :
    OneQueue policy pids (s.dispatched sched p i j core) :=
  h.moved (h.conserved.dispatched hc.counted hcore hspace hwf hsame hperm) hsame
    (droppedPids_concat h.dropped rfl)

/-! ## Passes -/

/-- The rule of the dispatch loop: what every dispatch keeps, it keeps. -/
theorem dispatchReady_inv (h : OneQueue policy pids s) (hc : s.machine.Compact) (P : Sys → Prop)
    (hstep : ∀ (t : Sys) (p : PcbPtr) (sched : Scheduler) (i j : Nat) (core : Core),
      OneQueue policy pids t → t.machine.Compact → t.machine.core? i j = some core →
      core.hasSpace = true → sched.WF → Scheduler.SameConfig t.sched sched →
      t.sched.waiting ~ p :: sched.waiting →
      selectNextProcess t.sched t.pcbs = some (p, sched) → P t →
      P (t.dispatched sched p i j core))
    (n : Nat) (hP : P s) :
    OneQueue policy pids (dispatchReady n s) ∧ (dispatchReady n s).machine.Compact ∧
      P (dispatchReady n s) := by
  induction n generalizing s with
  | zero => exact ⟨h, hc, hP⟩
  | succ n ih =>
      rcases dispatchReady_selected fun hready _ => h.select hready with
        ⟨_, he⟩ | ⟨p, sched, i, j, core, hcore, hspace, hwf, hsame, hperm, hsel, he⟩
      · rw [he n]
        exact ⟨h, hc, hP⟩
      · rw [he n]
        have hcnext : (s.dispatched sched p i j core).machine.Compact :=
          hc.setCore hcore ((hc.core hcore).assign hspace p _)
        exact ih (h.dispatched hc hcore hspace hwf hsame hperm) hcnext
          (hstep s p sched i j core h hc hcore hspace hwf hsame hperm hsel hP)

/-- The rule of a pass: it keeps what every visit of the scan and every
dispatch keeps. `P todo` holds when exactly `todo` is left to visit. -/
theorem schedulerPass_inv (h : OneQueue policy pids s) (hnd : pids.Nodup) (hc : s.machine.Compact)
    (P : List PcbPtr → Sys → Prop)
    (hscan : ∀ (todo : List PcbPtr) (i j k : Nat) (t : Sys) (core : Core) (hw : HardwareThread)
      (p : PcbPtr), OneQueue policy pids t → t.machine.Compact →
      t.machine.slot? i j k = some (core, hw, p) → P (p :: todo) t →
      P todo (LocOS.scanThread i j k t))
    (hdispatch : ∀ (t : Sys) (p : PcbPtr) (sched : Scheduler) (i j : Nat) (core : Core),
      OneQueue policy pids t → t.machine.Compact → t.machine.core? i j = some core →
      core.hasSpace = true → sched.WF → Scheduler.SameConfig t.sched sched →
      t.sched.waiting ~ p :: sched.waiting →
      selectNextProcess t.sched t.pcbs = some (p, sched) → P [] t →
      P [] (t.dispatched sched p i j core))
    (h0 : P s.machine.scanOrder s) :
    OneQueue policy pids (schedulerPass s) ∧ (schedulerPass s).machine.Compact ∧
      P [] (schedulerPass s) := by
  obtain ⟨⟨hq, hP⟩, hcompact⟩ := scanMachine_inv (fun todo t => OneQueue policy pids t ∧ P todo t)
    (fun todo i j k t core hw p hct hslot ht =>
      ⟨ht.1.scanThread hnd hct hslot, hscan todo i j k t core hw p ht.1 hct hslot ht.2⟩) hc ⟨h, h0⟩
  rw [schedulerPass_noTransfer (hq.samePolicy.trans_ne hq.single)]
  exact hq.dispatchReady_inv hcompact (P []) hdispatch _ hP

/-- A critical section of the clock or of the scheduler keeps everything. -/
theorem next (h : OneQueue policy pids s) (hnd : pids.Nodup) (hc : s.machine.Compact) (a : Action) :
    OneQueue policy pids (s.next a) ∧ (s.next a).machine.Compact := by
  cases a with
  | tick =>
      exact clockTick_inv (fun t => OneQueue policy pids t ∧ t.machine.Compact) ⟨h.tickEvent, hc⟩
        fun i j k t ht => ⟨ht.1.tickThread ht.2 i j k, (tickThread_machine ht.2 i j k).1⟩
  | pass =>
      have hpass := h.schedulerPass_inv hnd hc (fun _ _ => True)
        (fun _ _ _ _ _ _ _ _ _ _ _ _ => trivial)
        (fun _ _ _ _ _ _ _ _ _ _ _ _ _ _ _ => trivial) trivial
      exact ⟨hpass.1, hpass.2.1⟩

theorem boot {cfg : Config} {pcbs : List PCB} (h : Booted cfg pcbs s)
    (hpol : cfg.policy ≠ .preemptivePrio) (hidle : cfg.machine.Idle)
    (hfits : cfg.policy = .bfs → 2 * pcbs.length ≤ cfg.readyQueueSize + 2) :
    OneQueue cfg.policy (pcbs.map PCB.pid) s where
  conserved := h.conserved hidle
  samePolicy := h.policy
  single := hpol
  noLevels := by rw [h.levels, if_neg hpol]
  capacity := by
    rw [List.length_map, h.readyCapacity]
    exact h.fits
  fits := by
    rw [List.length_map, h.readyCapacity]
    exact hfits
  dropped := by
    rw [h.log]
    rfl

end OneQueue
end LocOS
