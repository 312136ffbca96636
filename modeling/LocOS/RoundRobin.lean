import LocOS.Conservation

/-!
# RoundRobin

Round Robin on a booted system: every PID is in exactly one place, nothing
is ever refused by `ready_queue`, and a process that executed EXIT or an
unknown opcode is done for good.
-/

namespace LocOS

open scoped List

/-! ## Halted processes -/

/-- The event is the execution of an instruction that stops `p`. -/
def Event.Stops (p : PcbPtr) : Event → Prop
  | .exec q _ instruction => q = p ∧ Halts instruction
  | _ => False

/-- The event puts `p` back on a queue or on a hardware thread. -/
def Event.Returns (p : PcbPtr) : Event → Prop
  | .assigned q _ => q = p
  | .expired q _ _ => q = p
  | .putBack q _ _ => q = p
  | _ => False

/-- The process executed an instruction that stops it. -/
def Halted (log : List Event) (p : PcbPtr) : Prop := ∃ e ∈ log, e.Stops p

/-- A halted process waits nowhere and is only left to be removed, and no
event after it stopped brought it back. -/
structure HaltedGone (s : Sys) : Prop where
  notWaiting : ∀ p, Halted s.log p → p ∉ s.waiting
  terminated : ∀ p, Halted s.log p → p ∈ s.running → (s.pcbs.get p).state = .terminated
  neverBack : s.log.Pairwise fun e e' => ∀ p, e.Stops p → ¬ e'.Returns p

theorem halted_append {log log' : List Event} {p : PcbPtr} :
    Halted (log ++ log') p ↔ Halted log p ∨ Halted log' p := by
  simp only [Halted, List.mem_append, or_and_right, exists_or]

theorem halted_singleton {e : Event} {p : PcbPtr} : Halted [e] p ↔ e.Stops p := by
  simp [Halted]

namespace HaltedGone

variable {s : Sys}

theorem pairwise_append (h : HaltedGone s) {e : Event}
    (he : ∀ p, Halted s.log p → ¬ e.Returns p) :
    (s.log ++ [e]).Pairwise fun e e' => ∀ p, e.Stops p → ¬ e'.Returns p := by
  rw [List.pairwise_append]
  refine ⟨h.neverBack, List.pairwise_singleton .., fun e' he' e'' he'' p hstop => ?_⟩
  obtain rfl := List.mem_singleton.mp he''
  exact he p ⟨e', he', hstop⟩

/-- A step whose event `e` stops nobody, after which the processes off the
machine and the states of the others are as before, `p` apart, which has not
halted. -/
theorem step (h : HaltedGone s) {s' : Sys} (p : PcbPtr) (e : Event) (hlog : s'.log = s.log ++ [e])
    (hstop : ∀ q, ¬ e.Stops q) (hreturn : ∀ q, Halted s.log q → ¬ e.Returns q)
    (hwait : ∀ q ∈ s'.waiting, q ∈ s.waiting ∨ (q = p ∧ ¬ Halted s.log p))
    (hrun : ∀ q ∈ s'.running, (q ∈ s.running ∧ (s'.pcbs.get q).state = (s.pcbs.get q).state) ∨
      (q = p ∧ ¬ Halted s.log p)) : HaltedGone s' := by
  have hsame : ∀ q, Halted s'.log q → Halted s.log q := by
    intro q hq
    rw [hlog, halted_append, halted_singleton] at hq
    exact hq.resolve_right (hstop q)
  refine ⟨fun q hq hw => ?_, fun q hq hr => ?_, ?_⟩
  · rcases hwait q hw with hw | ⟨rfl, hn⟩
    · exact h.notWaiting q (hsame q hq) hw
    · exact hn (hsame q hq)
  · rcases hrun q hr with ⟨hr, hst⟩ | ⟨rfl, hn⟩
    · rw [hst]
      exact h.terminated q (hsame q hq) hr
    · exact absurd (hsame q hq) hn
  · rw [hlog]
    exact h.pairwise_append hreturn

end HaltedGone

/-! ## The invariant of Round Robin -/

/-- What a run under Round Robin keeps besides the account. -/
structure RoundRobin (pids : List Int) (s : Sys) : Prop where
  conserved : Conserved pids s
  policy : s.sched.policy = .roundRobin
  noLevels : s.sched.priorityQueues = []
  capacity : pids.length ≤ s.sched.readyQueue.maxCapacity
  dropped : droppedPids s.log = []
  halted : HaltedGone s

section
variable {s : Sys} {hw : HardwareThread} {pm : PhysicalMemory} {p : PcbPtr}

theorem exec_log :
    (executeInstruction (fetched (s.exec hw pm p) p) p (fetch (s.exec hw pm p))).log =
      s.log ++ [Event.exec p (((s.pcbs.age p).get p).pid) (fetch (s.exec hw pm p))] := by
  rw [executeInstruction_log]
  rfl

/-- An instruction terminates the process that executes it, or nobody. -/
theorem exec_state (hpl : s.pcbs.Live p) (q : PcbPtr) :
    ((executeInstruction (fetched (s.exec hw pm p) p) p
        (fetch (s.exec hw pm p))).pcbs.get q).state =
      if q = p ∧ Halts (fetch (s.exec hw pm p)) then .terminated else (s.pcbs.get q).state := by
  have hage : ((s.pcbs.age p).get q).state = (s.pcbs.get q).state :=
    PcbHeap.get_set_congr PCB.state s.pcbs (PCB.decrementTtl_state _) q
  rw [executeInstruction_pcbs]
  by_cases hh : Halts (fetch (s.exec hw pm p))
  · rw [if_pos hh]
    by_cases hqp : q = p
    · subst hqp
      have hl : (s.pcbs.age q).Live q := (PcbHeap.live_set ..).mpr hpl
      rw [if_pos ⟨rfl, hh⟩]
      exact congrArg PCB.state (PcbHeap.get_set_self hl _)
    · rw [if_neg fun hand => hqp hand.1, PcbHeap.get_set_ne _ hqp]
      exact hage
  · rw [if_neg hh, if_neg fun hand => hh hand.2]
    exact hage

end

namespace RoundRobin

variable {pids : List Int} {s : Sys}

theorem waiting_eq (h : RoundRobin pids s) : s.waiting = s.sched.readyQueue.toList := by
  simp [Sys.waiting, Scheduler.waiting, h.noLevels]

/-- As long as some process executes, `ready_queue` has room. -/
theorem accepts (h : RoundRobin pids s) {p : PcbPtr} (hp : p ∈ s.running) (pcbs : PcbHeap)
    (q : PcbPtr) : enqueueToScheduler s.sched pcbs q ≠ none := by
  intro hnone
  have hsingle : s.sched.policy ≠ .preemptivePrio := by
    rw [h.policy]
    decide
  have hroom : s.sched.readyQueue.currentSize < s.sched.readyQueue.maxCapacity := by
    have hlen := h.conserved.length_le
    rw [h.waiting_eq, ProcessQueue.length_toList] at hlen
    have := List.length_pos_of_mem hp
    have := h.capacity
    omega
  obtain ⟨_, he⟩ := Scheduler.exists_enqueue h.conserved.queues
    (Scheduler.queueFor?_single hsingle (pcbs.get q).priority) hroom
  rw [hnone] at he
  cases he

/-- A process neither halts nor moves by a change of a PCB that leaves its
state. -/
theorem touch (h : RoundRobin pids s) {p : PcbPtr} {pcb : PCB}
    (hst : pcb.state = (s.pcbs.get p).state)
    (hcons : Conserved pids { s with pcbs := s.pcbs.set p pcb }) :
    RoundRobin pids { s with pcbs := s.pcbs.set p pcb } := by
  refine ⟨hcons, h.policy, h.noLevels, h.capacity, h.dropped, h.halted.notWaiting,
    fun q hq hr => ?_, h.halted.neverBack⟩
  rw [← h.halted.terminated q hq hr]
  exact PcbHeap.get_set_congr PCB.state s.pcbs hst q

/-- An instruction of a process on its thread. -/
theorem executed (h : RoundRobin pids s) (hnd : pids.Nodup) {i j k : Nat} {core : Core}
    {hw : HardwareThread} {p : PcbPtr} {pm : PhysicalMemory} (hpr : p ∈ s.running)
    (hcons : Conserved pids (s.absorb i j k core
      (executeInstruction (fetched (s.exec hw pm p) p) p (fetch (s.exec hw pm p)))))
    (hrun : (s.absorb i j k core (executeInstruction (fetched (s.exec hw pm p) p) p
      (fetch (s.exec hw pm p)))).machine.running = s.machine.running) :
    RoundRobin pids (s.absorb i j k core
      (executeInstruction (fetched (s.exec hw pm p) p) p (fetch (s.exec hw pm p)))) := by
  have hpl := h.conserved.live p (List.mem_append_left _ hpr)
  have hlog := @exec_log s hw pm p
  have hhalt : ∀ q, Halted (executeInstruction (fetched (s.exec hw pm p) p) p
      (fetch (s.exec hw pm p))).log q →
      Halted s.log q ∨ (q = p ∧ Halts (fetch (s.exec hw pm p))) := by
    intro q hq
    rw [hlog, halted_append, halted_singleton] at hq
    exact hq.imp_right fun hstop => ⟨hstop.1.symm, hstop.2⟩
  refine ⟨hcons, h.policy, h.noLevels, h.capacity, ?_, fun q hq hw => ?_, fun q hq hr => ?_, ?_⟩
  · show droppedPids (executeInstruction _ _ _).log = []
    rw [hlog, droppedPids_append, h.dropped]
    rfl
  · rcases hhalt q hq with hq | ⟨rfl, _⟩
    · exact h.halted.notWaiting q hq hw
    · exact (List.disjoint_of_nodup_append (h.conserved.nodup hnd)) hpr hw
  · rw [Sys.running, hrun] at hr
    show ((executeInstruction _ _ _).pcbs.get q).state = _
    rw [exec_state hpl]
    split
    · rfl
    · rename_i hno
      exact h.halted.terminated q ((hhalt q hq).resolve_right hno) hr
  · show (executeInstruction _ _ _).log.Pairwise _
    rw [hlog]
    exact h.halted.pairwise_append fun q _ hret => hret

theorem tickThread (h : RoundRobin pids s) (hnd : pids.Nodup) (hc : s.machine.Compact)
    (i j k : Nat) : RoundRobin pids (tickThread i j k s) := by
  have hrun := (tickThread_machine hc i j k).2
  have hcons := h.conserved.tickThread hc i j k
  rcases tickThread_cases i j k s with
    ⟨_, he⟩ | ⟨core, hw, p, _, _, he⟩ | ⟨core, hw, p, pm, base, hslot, _, hlive, _, he⟩
  · rwa [he]
  · rw [he] at hcons ⊢
    exact h.touch (PCB.decrementTtl_state _) hcons
  · rw [he] at hcons hrun ⊢
    exact h.executed hnd (Machine.mem_running_of_slot hc hslot) hcons hrun

theorem charge (h : RoundRobin pids s) (p : PcbPtr) : RoundRobin pids (s.charge p) :=
  h.touch rfl (h.conserved.charge p)

theorem scanThread (h : RoundRobin pids s) (hnd : pids.Nodup) (hc : s.machine.Compact)
    {i j k : Nat} {core : Core} {hw : HardwareThread} {p : PcbPtr}
    (hslot : s.machine.slot? i j k = some (core, hw, p)) :
    RoundRobin pids (scanThread i j k s) := by
  obtain ⟨hcore, hk, hp⟩ := Machine.slot?_eq_some.mp hslot
  have hpr : p ∈ s.running := Machine.mem_running_of_core hcore
    (List.mem_of_getElem? ((hc.core hcore).busy hk hp))
  have hpl := h.conserved.live p (List.mem_append_left _ hpr)
  have hsub : ∀ q ∈ (s.machine.setCore i j (core.removeThread k)).running,
      q ∈ s.running ∧ q ≠ p :=
    fun q hq => (Machine.mem_running_removeThread hc (h.conserved.nodup_running hnd) hslot).mp hq
  have hcons := h.conserved.scanThread hnd hc hslot
  have hcharged := h.charge p
  rcases scanThread_cases hslot with ⟨_, he⟩ | ⟨hfin, _, he⟩ | ⟨_, _, he⟩
  · rw [he] at hcons ⊢
    refine ⟨hcons, h.policy, h.noLevels, h.capacity, ?_,
      hcharged.halted.step p (.completed p _) rfl (fun _ => id) (fun _ _ => id)
        (fun q hq => .inl hq) fun q hq => .inl ?_⟩
    · exact droppedPids_concat h.dropped rfl
    · obtain ⟨hqr, hqp⟩ := hsub q hq
      exact ⟨hqr, by simp only [completeThread, PcbHeap.get_destroyPcb_ne _ hqp]⟩
  -- a halted process is terminated, and completes before its quantum is looked at
  · have hnh : ¬ Halted s.log p := by
      intro hh
      have hst := h.halted.terminated p hh hpr
      simp [PCB.finished, PCB.charge, hst] at hfin
    rw [he] at hcons ⊢
    rcases expireThread_cases hcharged.conserved.queues i j k core hw p with
      ⟨sched, _, hwf, hsame, hperm, hexp⟩ | ⟨hnone, _⟩
    · rw [hexp] at hcons ⊢
      refine ⟨hcons, hsame.policy.trans h.policy, ?_, ?_, ?_,
        hcharged.halted.step p (.expired p _ true) rfl (fun _ => id) ?_ ?_ ?_⟩
      · have := hsame.levelCapacity
        simpa [Sys.charge, h.noLevels] using this
      · exact h.capacity.trans (Nat.le_of_eq hsame.readyCapacity.symm)
      · exact droppedPids_concat h.dropped rfl
      · rintro q hq rfl
        exact hnh hq
      · intro q hq
        rcases List.mem_cons.mp (hperm.mem_iff.mp hq) with rfl | hq
        · exact .inr ⟨rfl, hnh⟩
        · exact .inl hq
      · intro q hq
        obtain ⟨hqr, hqp⟩ := hsub q hq
        exact .inl ⟨hqr, by simp only [PcbHeap.get_set_ne _ hqp]⟩
    · exact absurd hnone (hcharged.accepts hpr _ p)
  · rw [he]
    exact hcharged

theorem dispatched (h : RoundRobin pids s) (hc : s.machine.Compact) {p : PcbPtr}
    {sched : Scheduler} {i j : Nat} {core : Core} (hcore : s.machine.core? i j = some core)
    (hspace : core.hasSpace = true) (hwf : sched.WF)
    (hsame : Scheduler.SameConfig s.sched sched) (hperm : s.sched.waiting ~ p :: sched.waiting) :
    RoundRobin pids (s.dispatched sched p i j core) := by
  have hpw : p ∈ s.waiting := hperm.mem_iff.mpr (List.mem_cons_self ..)
  have hnh : ¬ Halted s.log p := fun hh => h.halted.notWaiting p hh hpw
  refine ⟨h.conserved.dispatched hc.counted hcore hspace hwf hsame hperm,
    hsame.policy.trans h.policy, ?_, ?_, ?_,
    h.halted.step p (.assigned p _) rfl (fun _ => id) ?_ ?_ ?_⟩
  · have := hsame.levelCapacity
    simpa [Sys.dispatched, h.noLevels] using this
  · exact h.capacity.trans (Nat.le_of_eq hsame.readyCapacity.symm)
  · exact droppedPids_concat h.dropped rfl
  · rintro q hq rfl
    exact hnh hq
  · exact fun q hq => .inl (hperm.mem_iff.mpr (List.mem_cons_of_mem p hq))
  · intro q hq
    by_cases hqp : q = p
    · exact .inr ⟨hqp, hnh⟩
    · refine .inl ⟨?_, by simp only [Sys.dispatched, Sys.started, PcbHeap.get_set_ne _ hqp]⟩
      have hrun := s.running_dispatched hc.counted hcore hspace sched p
      exact (List.mem_cons.mp (hrun.mem_iff.mpr hq)).resolve_left hqp

/-! ## Runs -/

/-- The clock counts. -/
theorem tickEvent (h : RoundRobin pids s) :
    RoundRobin pids { s with
      clkCounter := s.clkCounter + 1
      log := s.log ++ [Event.tick (s.clkCounter + 1)] } := by
  refine ⟨h.conserved.tickEvent, h.policy, h.noLevels, h.capacity, ?_, ?_⟩
  · exact droppedPids_concat h.dropped rfl
  · exact h.halted.step 0 (.tick _) rfl (fun _ => id) (fun _ _ => id) (fun _ => .inl)
      fun q hq => .inl ⟨hq, rfl⟩

/-- The rule of a pass: it keeps what every visit of the scan and every
dispatch keeps. `P todo` holds when exactly `todo` is left to visit. -/
theorem schedulerPass_inv (h : RoundRobin pids s) (hnd : pids.Nodup) (hc : s.machine.Compact)
    (P : List PcbPtr → Sys → Prop)
    (hscan : ∀ (todo : List PcbPtr) (i j k : Nat) (t : Sys) (core : Core) (hw : HardwareThread)
      (p : PcbPtr), RoundRobin pids t → t.machine.Compact →
      t.machine.slot? i j k = some (core, hw, p) → P (p :: todo) t →
      P todo (LocOS.scanThread i j k t))
    (hdispatch : ∀ (t : Sys) (p : PcbPtr) (sched : Scheduler) (i j : Nat) (core : Core),
      RoundRobin pids t → t.machine.Compact → RoundRobin pids (t.dispatched sched p i j core) →
      t.machine.core? i j = some core → core.hasSpace = true →
      Scheduler.SameConfig t.sched sched → t.sched.waiting ~ p :: sched.waiting →
      selectNextProcess t.sched t.pcbs = some (p, sched) → P [] t →
      P [] (t.dispatched sched p i j core))
    (h0 : P s.machine.scanOrder s) :
    RoundRobin pids (schedulerPass s) ∧ (schedulerPass s).machine.Compact ∧
      P [] (schedulerPass s) := by
  obtain ⟨⟨hr, hP⟩, hcompact⟩ := scanMachine_inv (fun todo t => RoundRobin pids t ∧ P todo t)
    (fun todo i j k t core hw p hct hslot ht =>
      ⟨ht.1.scanThread hnd hct hslot, hscan todo i j k t core hw p ht.1 hct hslot ht.2⟩) hc ⟨h, h0⟩
  have hdisp := dispatchReady_inv
    (P := fun t => RoundRobin pids t ∧ t.machine.Compact ∧ P [] t)
    (fun t ht => ht.1.conserved.queues) (fun t ht => by rw [ht.1.policy]; decide)
    (fun t p sched i j core ⟨hrt, hct, hPt⟩ hcore hspace hwf hsame hperm hsel => by
      have hnext := hrt.dispatched hct hcore hspace hwf hsame hperm
      exact ⟨hnext, hct.setCore hcore ((hct.core hcore).assign hspace p _),
        hdispatch t p sched i j core hrt hct hnext hcore hspace hsame hperm hsel hPt⟩)
    (scanMachine s).sched.waitingCount ⟨hr, hcompact, hP⟩
  rw [schedulerPass_noTransfer (by rw [hr.policy]; decide)]
  exact hdisp

/-- A critical section of the clock or of the scheduler keeps everything. -/
theorem next (h : RoundRobin pids s) (hnd : pids.Nodup) (hc : s.machine.Compact) (a : Action) :
    RoundRobin pids (s.next a) ∧ (s.next a).machine.Compact := by
  cases a with
  | tick =>
      exact clockTick_inv (fun t => RoundRobin pids t ∧ t.machine.Compact) ⟨h.tickEvent, hc⟩
        fun i j k t ht => ⟨ht.1.tickThread hnd ht.2 i j k, (tickThread_machine ht.2 i j k).1⟩
  | pass =>
      have hpass := h.schedulerPass_inv hnd hc (fun _ _ => True)
        (fun _ _ _ _ _ _ _ _ _ _ _ _ => trivial) (fun _ _ _ _ _ _ _ _ _ _ _ _ _ _ _ => trivial)
        trivial
      exact ⟨hpass.1, hpass.2.1⟩

theorem boot {cfg : Config} {pcbs : List PCB} {s : Sys} (h : Booted cfg pcbs s)
    (hpol : cfg.policy = .roundRobin) (hidle : cfg.machine.Idle) :
    RoundRobin (pcbs.map PCB.pid) s where
  conserved := h.conserved hidle
  policy := h.policy.trans hpol
  noLevels := by rw [h.levels, if_neg (by rw [hpol]; decide)]
  capacity := by
    rw [List.length_map, h.readyCapacity]
    exact h.fits
  dropped := by
    rw [h.log]
    rfl
  halted := by
    have hnone : ∀ p, ¬ Halted s.log p := by
      rintro p ⟨e, he, _⟩
      rw [h.log] at he
      cases he
    refine ⟨fun p hp => absurd hp (hnone p), fun p hp => absurd hp (hnone p), ?_⟩
    rw [h.log]
    exact .nil

end RoundRobin

/-- What every state of a Round Robin run satisfies. -/
structure RoundRobinState (pcbs : List PCB) (s : Sys) : Prop where
  /-- Each process is once in `ready_queue`, once on a counted slot, or
  completed, and nothing else is. -/
  onePlace : (s.sched.readyQueue.toList.map s.pid ++ s.running.map s.pid ++
    completedPids s.log).Perm (pcbs.map PCB.pid)
  oncePerPid : ∀ pcb ∈ pcbs, (s.sched.readyQueue.toList.map s.pid).count pcb.pid +
    (s.running.map s.pid).count pcb.pid + (completedPids s.log).count pcb.pid = 1
  totalCompleted : s.sched.totalCompleted = ((completedPids s.log).length : Int)
  haltedNotReady : ∀ p, Halted s.log p → p ∉ s.sched.readyQueue.toList
  haltedNeverBack : s.log.Pairwise fun e e' => ∀ p, e.Stops p → ¬ e'.Returns p
  cores : ∀ core ∈ s.machine.cores,
    0 ≤ core.currentPcbCount ∧ core.currentPcbCount ≤ core.numKernelThreads ∧
      ∀ (k : Nat) (hw : HardwareThread), core.hwThreads[k]? = some hw →
        (hw.pcb.isSome ↔ (k : Int) < core.currentPcbCount)
  accepted : ∀ p pid b,
    Event.expired p pid b ∈ s.log ∨ Event.putBack p pid b ∈ s.log → b = true

/-- Round Robin conserves the processes, for any machine, any processes with
distinct PIDs and any interleaving of ticks and scheduler passes. -/
theorem roundRobin_conserves {cfg : Config} {pcbs : List PCB}
    (hpol : cfg.policy = .roundRobin) (hidle : cfg.machine.Idle)
    (hnd : (pcbs.map PCB.pid).Nodup) {s : Sys} (hs : (sysRuns cfg pcbs).Reachable s) :
    RoundRobinState pcbs s := by
  obtain ⟨h, hc⟩ : RoundRobin (pcbs.map PCB.pid) s ∧ s.machine.Compact := by
    refine hs.invariant (fun s => RoundRobin (pcbs.map PCB.pid) s ∧ s.machine.Compact) ?_ ?_
    · intro s hb
      have hbooted := boot_spec hb
      exact ⟨.boot hbooted hpol hidle, hbooted.machine ▸ hidle.compact⟩
    · rintro s a t ⟨h, hc⟩ rfl
      exact h.next hnd hc a
  have hended : endedPids s.log = completedPids s.log := by
    rw [endedPids, h.dropped, List.append_nil]
  have honce : (s.sched.readyQueue.toList.map s.pid ++ s.running.map s.pid ++
      completedPids s.log).Perm (pcbs.map PCB.pid) := by
    have hacc := h.conserved.account
    rw [hended, Sys.places, h.waiting_eq, List.map_append] at hacc
    exact (List.perm_append_comm.append_right _).trans hacc
  refine ⟨honce, fun pcb hpcb => ?_, h.conserved.completedCount, fun p hp => ?_,
    h.halted.neverBack, fun core hcore => ?_, fun p pid b hmem => ?_⟩
  · have hcount := honce.count_eq pcb.pid
    rw [List.count_eq_one_of_mem hnd (List.mem_map_of_mem hpcb)] at hcount
    simpa only [List.count_append] using hcount
  · rw [← h.waiting_eq]
    exact h.halted.notWaiting p hp
  · obtain ⟨ps, hps⟩ := hc core hcore
    exact hps.bounds
  · cases b with
    | true => rfl
    | false =>
        have hdrop : pid ∈ droppedPids s.log := by
          rcases hmem with hmem | hmem
          · exact List.mem_filterMap.mpr ⟨_, hmem, rfl⟩
          · exact List.mem_filterMap.mpr ⟨_, hmem, rfl⟩
        rw [h.dropped] at hdrop
        cases hdrop

/-- Three processes on two hardware threads, after a pass, a tick and a pass. -/
theorem roundRobin_conserves_three : ∃ s, (sysRuns (oneCore 2 .roundRobin 1)
      [loadedPcb 1 0, loadedPcb 2 0, loadedPcb 3 0]).Reachable s ∧
    s.log.length = 7 ∧ RoundRobinState [loadedPcb 1 0, loadedPcb 2 0, loadedPcb 3 0] s := by
  obtain ⟨s, hs⟩ : ∃ s, boot (oneCore 2 .roundRobin 1)
      [loadedPcb 1 0, loadedPcb 2 0, loadedPcb 3 0] = some s := ⟨_, rfl⟩
  have hstart : (sysRuns (oneCore 2 .roundRobin 1)
    [loadedPcb 1 0, loadedPcb 2 0, loadedPcb 3 0]).Reachable s := .init hs
  have hreach := reachable_next (reachable_next (reachable_next hstart .pass) .tick) .pass
  refine ⟨_, hreach, ?_,
    roundRobin_conserves rfl (Machine.createMachine_idle 1 1 2) (by decide) hreach⟩
  obtain rfl := Option.some.inj hs
  rfl

end LocOS
