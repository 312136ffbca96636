import LocOS.Levels
import Mathlib.Algebra.Order.BigOperators.Group.List
import Mathlib.Algebra.Order.Group.Nat

/-!
# Ranks

The order of priorities after a pass. An expiring process may be more
important than one that keeps its thread, but each of them leaves a slot, and
the dispatch takes the most important processes first: as many as there are
free slots always suffice. What breaks the order is the transfer loop, which
stops at the first full level and leaves the rest of `ready_queue` behind,
where the dispatch does not look.
-/

namespace LocOS

open scoped List

/-! ## Counting the slots -/

namespace Machine

/-- The hardware threads of all cores. -/
def threadCount (m : Machine) : Nat := (m.cores.map Core.numKernelThreads).sum

theorem length_running (m : Machine) :
    m.running.length = (m.cores.map fun core => core.running.length).sum :=
  List.length_flatMap

theorem Compact.length_le {m : Machine} (h : m.Compact) : m.running.length ≤ m.threadCount := by
  rw [length_running]
  refine List.sum_le_sum fun core hcore => ?_
  obtain ⟨ps, hps⟩ := h core hcore
  rw [hps.running_eq]
  exact hps.le

/-- Every slot of a full machine is occupied. -/
theorem Compact.length_full {m : Machine} (h : m.Compact)
    (hfull : canCpuExecuteProcess m = false) : m.running.length = m.threadCount := by
  rw [length_running, threadCount]
  refine congrArg List.sum (List.map_congr_left fun core hcore => ?_)
  obtain ⟨ps, hps⟩ := h core hcore
  have hspace : ¬ core.hasSpace = true := by
    intro hs
    rw [canCpuExecuteProcess_iff.mpr ⟨core, hcore, hs⟩] at hfull
    cases hfull
  rw [hps.counts.hasSpace_iff] at hspace
  rw [hps.running_eq]
  exact Nat.le_antisymm hps.le (Nat.le_of_not_lt hspace)

theorem threadCount_setCore {m : Machine} {i j : Nat} {old new : Core}
    (hcore : m.core? i j = some old) (hnum : new.numKernelThreads = old.numKernelThreads) :
    (m.setCore i j new).threadCount = m.threadCount := by
  obtain ⟨pre, post, hm, hset⟩ := split_core hcore
  rw [threadCount, threadCount, hset, hm]
  simp only [List.map_append, List.map_cons, hnum]

end Machine

/-! ## Levels -/

namespace Scheduler

theorem levelOf_eq_some {priority : Int} {i : Nat} :
    levelOf priority = some i ↔ priority = minPriority + i ∧ priority ≤ maxPriority := by
  unfold levelOf
  split
  · simp only [reduceCtorEq, false_iff]
    omega
  · simp only [Option.some.injEq]
    omega

/-- Every process is on the level of its priority. -/
def Filing (sched : Scheduler) (pcbs : PcbHeap) : Prop :=
  ∀ (i : Nat) (pq : ProcessQueue), sched.priorityQueues[i]? = some pq →
    ∀ p ∈ pq.toList, levelOf (pcbs.get p).priority = some i

variable {sched sched' : Scheduler} {pcbs : PcbHeap} {p : PcbPtr}

theorem Filing.congr (h : sched.Filing pcbs) {pcbs' : PcbHeap}
    (hprio : ∀ p ∈ sched.waiting, (pcbs'.get p).priority = (pcbs.get p).priority) :
    sched.Filing pcbs' := by
  intro i pq hpq p hp
  rw [hprio p (List.mem_append_right _
    (List.mem_flatMap.mpr ⟨pq, List.mem_of_getElem? hpq, hp⟩))]
  exact h i pq hpq p hp

/-- Rewriting one level by processes of its priority. -/
theorem Filing.setLevel (h : sched.Filing pcbs) {i : Nat} {pq : ProcessQueue}
    (hpq : ∀ p ∈ pq.toList, levelOf (pcbs.get p).priority = some i) :
    ({ sched with priorityQueues := sched.priorityQueues.set i pq } : Scheduler).Filing
      pcbs := by
  intro j pq' hpq' p hp
  rw [List.getElem?_set] at hpq'
  by_cases hij : i = j
  · subst hij
    rw [if_pos rfl] at hpq'
    split at hpq'
    · obtain rfl := Option.some.inj hpq'
      exact hpq p hp
    · cases hpq'
  · rw [if_neg hij] at hpq'
    exact h j pq' hpq' p hp

theorem Filing.enqueue (h : sched.Filing pcbs) (hwf : sched.WF)
    (hpol : sched.policy = .preemptivePrio)
    (he : enqueueToScheduler sched pcbs p = some sched') :
    sched'.Filing pcbs ∧ sched'.readyQueue = sched.readyQueue := by
  obtain ⟨i, pq, pq', hi, hpq, henq, rfl⟩ := enqueue_levels hpol he
  obtain ⟨_, _, hl, _⟩ :=
    ProcessQueue.enqueueProcess_some (hwf.levels pq (List.mem_of_getElem? hpq)) henq
  refine ⟨h.setLevel fun q hq => ?_, rfl⟩
  rw [hl, List.mem_append, List.mem_singleton] at hq
  rcases hq with hq | rfl
  · exact h i pq hpq q hq
  · exact hi

/-- The selection takes the head of the first level that is not empty, and
no process on the levels is more important. -/
theorem Filing.select (h : sched.Filing pcbs) (hwf : sched.WF)
    (hpol : sched.policy = .preemptivePrio)
    (hsel : selectNextProcess sched pcbs = some (p, sched')) :
    sched'.Filing pcbs ∧ sched'.readyQueue = sched.readyQueue ∧
      ∀ pq ∈ sched.priorityQueues, ∀ w ∈ pq.toList,
        (pcbs.get p).priority ≤ (pcbs.get w).priority := by
  simp only [selectNextProcess, hpol] at hsel
  obtain ⟨i, hfind, hsel⟩ := Option.bind_eq_some_iff.mp hsel
  obtain ⟨pq, hpq, hsel⟩ := Option.bind_eq_some_iff.mp hsel
  obtain ⟨⟨q, pq'⟩, hdeq, he⟩ := Option.map_eq_some_iff.mp hsel
  obtain ⟨rfl, rfl⟩ := Prod.mk.inj he
  obtain ⟨hi, _, hbefore⟩ := List.findIdx?_eq_some_iff_getElem.mp hfind
  obtain ⟨_, hlist, _⟩ :=
    ProcessQueue.dequeueProcess_some (hwf.levels pq (List.mem_of_getElem? hpq)) hdeq
  have hq := h i pq hpq q (by rw [hlist]; exact List.mem_cons_self ..)
  refine ⟨h.setLevel fun w hw => h i pq hpq w ?_, rfl, fun pq1 hpq1 w hw => ?_⟩
  · rw [hlist]
    exact List.mem_cons_of_mem q hw
  · obtain ⟨j, hj⟩ := List.getElem?_of_mem hpq1
    have hw' := h j pq1 hj w hw
    -- the levels before `i` are empty
    have hij : i ≤ j := by
      by_contra hlt
      have hempty := hbefore j (Nat.lt_of_not_le hlt)
      obtain ⟨hj', rfl⟩ := List.getElem?_eq_some_iff.mp hj
      have hzero : ¬ 0 < (sched.priorityQueues[j]).currentSize := by simpa using hempty
      have hlen := List.length_pos_of_mem hw
      rw [ProcessQueue.length_toList] at hlen
      exact hzero hlen
    rw [levelOf_eq_some] at hq hw'
    show (pcbs.get q).priority ≤ _
    omega

end Scheduler

/-! ## The order -/

/-- Some executing process is less important than `w`. -/
def Sys.Outranked (s : Sys) (w : PcbPtr) : Prop :=
  ∃ e ∈ s.running, (s.pcbs.get w).priority < (s.pcbs.get e).priority

instance (s : Sys) (w : PcbPtr) : Decidable (s.Outranked w) := by
  unfold Sys.Outranked
  infer_instance

/-- The waiting processes that outrank an executing one, of `ws`. -/
def Sys.outranked (s : Sys) (ws : List PcbPtr) : Nat := ws.countP fun w => decide (s.Outranked w)

/-- There are no more of them than free slots, and every process on the
levels is on its level. -/
structure Ranked (s : Sys) : Prop where
  filing : s.sched.Filing s.pcbs
  outranked : s.outranked s.waiting + s.running.length ≤ s.machine.threadCount

/-- If a process waits, every hardware thread executes one that is at least as
important. -/
def PriorityOrder (s : Sys) : Prop :=
  ∀ w ∈ s.waiting, ∀ core ∈ s.machine.cores, ∀ hw ∈ core.hwThreads,
    ∃ p, hw.pcb = some p ∧ (s.pcbs.get p).priority ≤ (s.pcbs.get w).priority

theorem outranked_le {s s' : Sys} {ws : List PcbPtr}
    (hwait : ∀ w ∈ ws, (s'.pcbs.get w).priority = (s.pcbs.get w).priority)
    (hrun : ∀ e ∈ s'.running, e ∈ s.running ∧
      (s'.pcbs.get e).priority = (s.pcbs.get e).priority) :
    s'.outranked ws ≤ s.outranked ws := by
  refine List.countP_mono_left fun w hw h => ?_
  obtain ⟨e, he, hlt⟩ := of_decide_eq_true h
  obtain ⟨he', hprio⟩ := hrun e he
  rw [hwait w hw, hprio] at hlt
  exact decide_eq_true ⟨e, he', hlt⟩

theorem outranked_cons_le (s : Sys) (p : PcbPtr) (ws : List PcbPtr) :
    s.outranked (p :: ws) ≤ s.outranked ws + 1 := by
  unfold Sys.outranked
  rw [List.countP_cons]
  split
  · exact Nat.le_refl _
  · exact Nat.le_succ _

theorem outranked_perm (s : Sys) {ws ws' : List PcbPtr} (h : ws ~ ws') :
    s.outranked ws = s.outranked ws' := h.countP_eq _

namespace Ranked

variable {pids : List Int} {s : Sys}

/-- A step that leaves queues, threads and priorities alone. -/
theorem keep (h : Ranked s) {s' : Sys} (hsched : s'.sched = s.sched)
    (hrun : s'.running = s.running) (hthreads : s'.machine.threadCount = s.machine.threadCount)
    (hprio : ∀ p, (s'.pcbs.get p).priority = (s.pcbs.get p).priority) : Ranked s' := by
  have hwait : s'.waiting = s.waiting := congrArg Scheduler.waiting hsched
  refine ⟨?_, ?_⟩
  · rw [hsched]
    exact h.filing.congr fun p _ => hprio p
  · have hle : s'.outranked s.waiting ≤ s.outranked s.waiting :=
      outranked_le (fun w _ => hprio w) fun e he => ⟨hrun ▸ he, hprio e⟩
    have hold := h.outranked
    rw [hwait, hrun, hthreads]
    omega

/-- A process leaves its thread, perhaps for its level. -/
theorem leave (h : Ranked s) {s' : Sys} {p : PcbPtr} (hfiling : s'.sched.Filing s'.pcbs)
    (hrun : s.running ~ p :: s'.running)
    (hwait : s'.waiting = s.waiting ∨ s'.waiting ~ p :: s.waiting)
    (hthreads : s'.machine.threadCount = s.machine.threadCount)
    (hprio : ∀ q ∈ s'.running ++ s.waiting,
      (s'.pcbs.get q).priority = (s.pcbs.get q).priority) : Ranked s' := by
  have hlen := hrun.length_eq
  rw [List.length_cons] at hlen
  have hle : s'.outranked s.waiting ≤ s.outranked s.waiting :=
    outranked_le (fun w hw => hprio w (List.mem_append_right _ hw)) fun e he =>
      ⟨hrun.mem_iff.mpr (List.mem_cons_of_mem p he), hprio e (List.mem_append_left _ he)⟩
  have hmore : s'.outranked s'.waiting ≤ s'.outranked s.waiting + 1 := by
    rcases hwait with he | hperm
    · rw [he]
      exact Nat.le_succ _
    · rw [outranked_perm s' hperm]
      exact outranked_cons_le ..
  have hold := h.outranked
  refine ⟨hfiling, ?_⟩
  rw [hthreads]
  omega

theorem charge_priority (s : Sys) (p q : PcbPtr) :
    ((s.charge p).pcbs.get q).priority = (s.pcbs.get q).priority :=
  PcbHeap.get_set_congr PCB.priority s.pcbs
    (show (s.pcbs.get p).charge.priority = (s.pcbs.get p).priority from rfl) q

theorem scanThread (h : Ranked s) (hs : Conserved pids s) (hnd : pids.Nodup)
    (hpol : s.sched.policy = .preemptivePrio) (hc : s.machine.Compact) {i j k : Nat}
    {core : Core} {hw : HardwareThread} {p : PcbPtr}
    (hslot : s.machine.slot? i j k = some (core, hw, p)) :
    Ranked (LocOS.scanThread i j k s) := by
  obtain ⟨hcore, hk, hp⟩ := Machine.slot?_eq_some.mp hslot
  have hmem := Machine.mem_running_of_slot hc hslot
  have hrem := Machine.running_removeThread_perm hc hslot
  have hthreads := Machine.threadCount_setCore hcore (core.removeThread_numKernelThreads k)
  have hplaces := hs.nodup hnd
  have hnowait : p ∉ s.waiting := (List.disjoint_of_nodup_append hplaces) hmem
  have hne : ∀ q ∈ (s.machine.setCore i j (core.removeThread k)).running ++ s.waiting,
      q ≠ p := by
    rintro q hq rfl
    rcases List.mem_append.mp hq with hq | hq
    · exact ((Machine.mem_running_removeThread hc (hs.nodup_running hnd) hslot).mp hq).2 rfl
    · exact hnowait hq
  have hexpired : ∀ q, (((s.charge p).pcbs.set p (expiredPcb (s.charge p) hw p)).get q).priority =
      (s.pcbs.get q).priority := fun q =>
    (PcbHeap.get_set_congr PCB.priority _ (expiredPcb_priority ..) q).trans
      (charge_priority s p q)
  rcases scanThread_cases hslot with ⟨_, he⟩ | ⟨_, _, he⟩ | ⟨_, _, he⟩
  · have hprio : ∀ q ∈ (s.machine.setCore i j (core.removeThread k)).running ++ s.waiting,
        (((s.charge p).pcbs.destroyPcb p).get q).priority = (s.pcbs.get q).priority := by
      intro q hq
      rw [PcbHeap.get_destroyPcb_ne _ (hne q hq)]
      exact charge_priority s p q
    rw [he]
    exact h.leave (p := p) (h.filing.congr fun q hq => hprio q (List.mem_append_right _ hq)) hrem
      (.inl rfl) hthreads hprio
  · rw [he]
    rcases expireThread_cases (s := s.charge p) hs.queues i j k core hw p with
      ⟨sched, henq, _, _, hperm, hexp⟩ | ⟨_, hexp⟩
    · have hfiling := (h.filing.congr fun q _ => hexpired q).enqueue hs.queues hpol henq
      rw [hexp]
      exact h.leave (p := p) hfiling.1 hrem (.inr hperm) hthreads fun q _ => hexpired q
    · rw [hexp]
      exact h.leave (p := p) (h.filing.congr fun q _ => hexpired q) hrem (.inl rfl) hthreads
        fun q _ => hexpired q
  · rw [he]
    exact h.keep rfl rfl rfl (charge_priority s p)

/-- A tick writes no priority, no queue, and nobody's place. -/
theorem tickThread_same (hc : s.machine.Compact) (i j k : Nat) :
    (tickThread i j k s).sched = s.sched ∧ (tickThread i j k s).running = s.running ∧
      (tickThread i j k s).machine.threadCount = s.machine.threadCount ∧
      ∀ p, ((tickThread i j k s).pcbs.get p).priority = (s.pcbs.get p).priority := by
  have hrun := (tickThread_machine hc i j k).2
  have hprio := tickThread_field PCB.priority PCB.decrementTtl_priority (fun _ _ => rfl) i j k s
  rcases tickThread_cases i j k s with
    ⟨_, he⟩ | ⟨core, hw, p, _, _, he⟩ | ⟨core, hw, p, pm, base, hslot, _, _, _, he⟩
  · rw [he]
    exact ⟨rfl, rfl, rfl, fun _ => rfl⟩
  · rw [he] at hprio ⊢
    exact ⟨rfl, rfl, rfl, hprio⟩
  · rw [he] at hrun hprio ⊢
    exact ⟨rfl, hrun, Machine.threadCount_setCore (Machine.slot?_eq_some.mp hslot).1
      (core.setThread_numKernelThreads k _), hprio⟩

theorem dispatched_priority (s : Sys) (sched : Scheduler) (p : PcbPtr) (i j : Nat) (core : Core)
    (q : PcbPtr) :
    ((s.dispatched sched p i j core).pcbs.get q).priority = (s.pcbs.get q).priority :=
  PcbHeap.get_set_congr PCB.priority s.pcbs (PCB.start_priority ..) q

/-- A process dispatched before less important ones is outranked by none of
them. -/
theorem outranked_dispatched (hc : s.machine.Counted) {p : PcbPtr} {i j : Nat} {core : Core}
    (hcore : s.machine.core? i j = some core) (hspace : core.hasSpace = true)
    (sched : Scheduler) {ws : List PcbPtr}
    (hmin : ∀ w ∈ ws, (s.pcbs.get p).priority ≤ (s.pcbs.get w).priority) :
    (s.dispatched sched p i j core).outranked ws = s.outranked ws := by
  have hrun := s.running_dispatched hc hcore hspace sched p
  refine List.countP_congr fun w hw => ?_
  rw [decide_eq_true_iff, decide_eq_true_iff]
  unfold Sys.Outranked
  simp only [dispatched_priority]
  constructor
  · rintro ⟨e, he, hlt⟩
    rcases List.mem_cons.mp (hrun.mem_iff.mpr he) with rfl | he
    · exact absurd hlt (Int.not_lt.mpr (hmin w hw))
    · exact ⟨e, he, hlt⟩
  · rintro ⟨e, he, hlt⟩
    exact ⟨e, hrun.mem_iff.mp (List.mem_cons_of_mem p he), hlt⟩

/-- The dispatch of the most important waiting process. -/
theorem dispatched (h : Ranked s) (hs : Steady pids s)
    (hempty : s.sched.readyQueue.toList = []) {p : PcbPtr} {sched : Scheduler} {i j : Nat}
    {core : Core} (hcore : s.machine.core? i j = some core) (hspace : core.hasSpace = true)
    (hperm : s.sched.waiting ~ p :: sched.waiting)
    (hsel : selectNextProcess s.sched s.pcbs = some (p, sched)) :
    Ranked (s.dispatched sched p i j core) ∧
      (s.dispatched sched p i j core).sched.readyQueue.toList = [] := by
  obtain ⟨hfiling, hready, hmin⟩ := h.filing.select hs.1.conserved.queues hs.1.policy hsel
  have hassign := (hs.2.core hcore).assign hspace p ((s.started sched p).get p)
  have hrun := s.running_dispatched hs.2.counted hcore hspace sched p
  have hthreads : (s.dispatched sched p i j core).machine.threadCount = s.machine.threadCount :=
    Machine.threadCount_setCore hcore (Core.assign_numKernelThreads ..)
  have hmin' : ∀ w ∈ s.waiting, (s.pcbs.get p).priority ≤ (s.pcbs.get w).priority := by
    intro w hw
    rw [Sys.waiting, Scheduler.waiting, hempty, List.nil_append] at hw
    obtain ⟨pq, hpq, hw⟩ := List.mem_flatMap.mp hw
    exact hmin pq hpq w hw
  -- nobody who waits is more important than the new one
  have hsame := outranked_dispatched hs.2.counted hcore hspace sched fun w hw =>
    hmin' w (hperm.mem_iff.mpr (List.mem_cons_of_mem p hw))
  have hcount : s.outranked s.waiting = s.outranked (p :: sched.waiting) :=
    outranked_perm s hperm
  have hlen := hrun.length_eq
  rw [List.length_cons] at hlen
  have hold := h.outranked
  refine ⟨⟨hfiling.congr fun q _ => dispatched_priority s sched p i j core q, ?_⟩,
    hready ▸ hempty⟩
  show (s.dispatched sched p i j core).outranked sched.waiting + _ ≤ _
  rw [hsame, hthreads]
  by_cases hp : s.Outranked p
  · have hone : s.outranked (p :: sched.waiting) = s.outranked sched.waiting + 1 := by
      unfold Sys.outranked
      rw [List.countP_cons, if_pos (decide_eq_true hp)]
    have hlen' : (s.dispatched sched p i j core).running.length = s.running.length + 1 :=
      hlen.symm
    omega
  · have hzero : s.outranked sched.waiting = 0 := by
      refine List.countP_eq_zero.mpr fun w hw hout => ?_
      obtain ⟨e, he, hlt⟩ := of_decide_eq_true hout
      have hle := hmin' w (hperm.mem_iff.mpr (List.mem_cons_of_mem p hw))
      exact hp ⟨e, he, Int.lt_of_le_of_lt hle hlt⟩
    have hle := (hs.2.setCore hcore hassign).length_le
    have hle' : (s.dispatched sched p i j core).running.length ≤
        (s.dispatched sched p i j core).machine.threadCount := hle
    omega

end Ranked

/-! ## The end of a pass -/

namespace Scheduler

theorem waiting_pos {sched : Scheduler} (hwf : sched.WF) (hpol : sched.policy ≠ .bfs)
    (pcbs : PcbHeap) (h : hasReadyProcesses sched = true) : 0 < sched.waiting.length := by
  obtain ⟨p, sched', _, _, _, hperm⟩ := selectNextProcess_cases hwf hpol pcbs h
  rw [hperm.length_eq]
  exact Nat.succ_pos _

end Scheduler

/-- The dispatch loop ends with nothing to dispatch or no free slot. -/
theorem dispatchReady_stops {s : Sys} (hwf : s.sched.WF) (hpol : s.sched.policy ≠ .bfs) (n : Nat)
    (hn : s.sched.waiting.length ≤ n) :
    (hasReadyProcesses (dispatchReady n s).sched &&
      canCpuExecuteProcess (dispatchReady n s).machine) = false := by
  induction n generalizing s with
  | zero =>
      have hno : ¬ hasReadyProcesses s.sched = true := fun h => by
        have hpos := Scheduler.waiting_pos hwf hpol s.pcbs h
        omega
      rw [Bool.not_eq_true] at hno
      rw [dispatchReady, hno, Bool.false_and]
  | succ n ih =>
      rcases dispatchReady_cases hwf hpol n with
        ⟨he, hstop⟩ | ⟨p, sched, i, j, core, _, _, hwf', hsame, hperm, _, he⟩
      · rw [he]
        exact hstop
      · rw [he]
        refine ih hwf' ?_ ?_
        · show sched.policy ≠ .bfs
          rw [hsame.policy]
          exact hpol
        · have hlen := hperm.length_eq
          rw [List.length_cons] at hlen
          show sched.waiting.length ≤ n
          omega

/-- With everybody on the levels, the dispatch restores the order. -/
theorem Ranked.dispatchReady {pids : List Int} {s : Sys} (h : Ranked s) (hs : Steady pids s)
    (hempty : s.sched.readyQueue.toList = []) :
    Ranked (LocOS.dispatchReady s.sched.waitingCount s) ∧
      (LocOS.dispatchReady s.sched.waitingCount s).sched.readyQueue.toList = [] ∧
      PriorityOrder (LocOS.dispatchReady s.sched.waitingCount s) := by
  have hinv := dispatchReady_inv
    (P := fun t => Steady pids t ∧ Ranked t ∧ t.sched.readyQueue.toList = [])
    (fun t ht => ht.1.1.conserved.queues) (fun t ht => by rw [ht.1.1.policy]; decide)
    (fun t p sched i j core ht hcore hspace hwf hsame hperm hsel =>
      ⟨ht.1.dispatched hcore hspace hwf hsame hperm,
        ht.2.1.dispatched ht.1 ht.2.2 hcore hspace hperm hsel⟩)
    s.sched.waitingCount ⟨hs, h, hempty⟩
  have hstop := dispatchReady_stops hs.1.conserved.queues (by rw [hs.1.policy]; decide)
    s.sched.waitingCount (Nat.le_of_eq (Scheduler.waitingCount_eq _).symm)
  generalize LocOS.dispatchReady s.sched.waitingCount s = t at hinv hstop ⊢
  obtain ⟨hst, hrt, het⟩ := hinv
  refine ⟨hrt, het, fun w hw core hcore hwt hmem => ?_⟩
  have hlevel : ∃ pq ∈ t.sched.priorityQueues, w ∈ pq.toList := by
    rw [Sys.waiting, Scheduler.waiting, het, List.nil_append] at hw
    exact List.mem_flatMap.mp hw
  have hready : hasReadyProcesses t.sched = true := by
    obtain ⟨pq, hpq, hwq⟩ := hlevel
    rw [Scheduler.hasReadyProcesses_iff, if_pos hst.1.policy]
    refine ⟨pq, hpq, ?_⟩
    rw [← ProcessQueue.length_toList]
    exact List.length_pos_of_mem hwq
  rw [hready, Bool.true_and] at hstop
  -- a full machine has no room left for a process that outranks an executing one
  have hfull := hst.2.length_full hstop
  have hzero : t.outranked t.waiting = 0 := by
    have hcount := hrt.outranked
    have hrunning : t.running.length = t.machine.threadCount := hfull
    omega
  obtain ⟨ps, hps⟩ := hst.2 core hcore
  obtain ⟨k, hk⟩ := List.getElem?_of_mem hmem
  have hlen : ps.length = core.numKernelThreads := by
    have hspace : ¬ core.hasSpace = true := fun hs => by
      rw [Machine.canCpuExecuteProcess_iff.mpr ⟨core, hcore, hs⟩] at hstop
      cases hstop
    rw [hps.counts.hasSpace_iff] at hspace
    exact Nat.le_antisymm hps.le (Nat.le_of_not_lt hspace)
  have hlt : k < ps.length := by
    rw [hlen]
    exact (List.getElem?_eq_some_iff.mp hk).1
  refine ⟨ps[k], (hps.slot k hwt hk).trans (List.getElem?_eq_getElem hlt), ?_⟩
  have hrunning : ps[k] ∈ t.running := by
    refine List.mem_flatMap.mpr ⟨core, hcore, ?_⟩
    rw [hps.running_eq]
    exact List.getElem_mem hlt
  have hnot := List.countP_eq_zero.mp hzero w hw
  refine Int.not_lt.mp fun hless => hnot (decide_eq_true ⟨ps[k], hrunning, hless⟩)

/-! ## The transfer -/

/-- Every level has room for the processes of `ready_queue` that belong to it. -/
def ReadyFits (s : Sys) : Prop :=
  ∀ (i : Nat) (pq : ProcessQueue), s.sched.priorityQueues[i]? = some pq →
    pq.currentSize + (s.sched.readyQueue.toList.countP fun p =>
      decide (Scheduler.levelOf (s.pcbs.get p).priority = some i)) ≤ pq.maxCapacity

/-- Nobody is preempted on an idle machine. -/
theorem Machine.Idle.not_outranks {s : Sys} (h : s.machine.Idle) (p : PcbPtr) :
    ¬ s.Outranks p := by
  rintro ⟨hsome, _⟩
  rcases getLowestPriorityExecuting_located s.machine with
    hnone | ⟨i, j, k, core, hcore, hk, _⟩
  · exact hsome hnone
  · have hcount := (h core (Machine.mem_cores_of_core? hcore)).count
    rw [hcount] at hk
    simp at hk

/-- An iteration of the transfer leaves an idle machine as it is. -/
theorem Machine.Idle.stays {s : Sys} (h : s.machine.Idle)
    (hpol : s.sched.policy = .preemptivePrio) (rq : ProcessQueue) (p : PcbPtr) :
    (if canCpuExecuteProcess s.machine then
      ({ s with sched := { s.sched with readyQueue := rq } } : Sys)
      else preemptLowerPriorityProcesses { s with sched := { s.sched with readyQueue := rq } } p) =
      { s with sched := { s.sched with readyQueue := rq } } :=
  stays_of_not_preempts (s := { s with sched := { s.sched with readyQueue := rq } }) hpol
    fun hpre => h.not_outranks (s := s) p hpre.2

theorem Machine.Compact.idle {m : Machine} (h : m.Compact) (hrun : m.running = []) : m.Idle := by
  intro core hcore
  obtain ⟨ps, hps⟩ := h core hcore
  rw [Machine.running, List.flatMap_eq_nil_iff] at hrun
  have hnil := hrun core hcore
  rw [hps.running_eq] at hnil
  rwa [hnil] at hps

/-- A process taken from `ready_queue` fills the place counted for it. -/
theorem ReadyFits.filed {s : Sys} (h : ReadyFits s) {p : PcbPtr} {rest : List PcbPtr}
    (hready : s.sched.readyQueue.toList = p :: rest) {rq : ProcessQueue}
    (hwf : Scheduler.WF { s.sched with readyQueue := rq })
    (hpol : s.sched.policy = .preemptivePrio) {i : Nat}
    (hi : Scheduler.levelOf (s.pcbs.get p).priority = some i) {sched : Scheduler}
    (he : enqueueToScheduler { s.sched with readyQueue := rq } s.pcbs p = some sched)
    (hrest : sched.readyQueue.toList = rest) : ReadyFits { s with sched } := by
  intro j pq' hpq'
  obtain ⟨pq, hpq, hcap, hsize⟩ := enqueueToScheduler_level hwf hpol hi he hpq'
  have hcount := h j pq hpq
  rw [hready, List.countP_cons, hi] at hcount
  have hsame : pq'.maxCapacity = pq.maxCapacity := hcap
  show pq'.currentSize + sched.readyQueue.toList.countP (fun q => decide
    (Scheduler.levelOf (s.pcbs.get q).priority = some j)) ≤ _
  rw [hrest]
  by_cases hij : i = j
  · rw [if_pos (decide_eq_true (congrArg some hij))] at hcount
    rw [if_pos hij] at hsize
    omega
  · rw [if_neg (by simpa using hij)] at hcount
    rw [if_neg hij] at hsize
    omega

/-- The transfer of one process whose level has room. -/
theorem ReadyFits.step {pids : List Int} {s : Sys} (h : ReadyFits s) (hs : Steady pids s)
    (hidle : s.machine.Idle) (hfiling : s.sched.Filing s.pcbs) {p : PcbPtr} {rest : List PcbPtr}
    (hready : s.sched.readyQueue.toList = p :: rest) (n : Nat) :
    ∃ sched, transferReady (n + 1) s = transferReady n { s with sched } ∧
      Steady pids { s with sched } ∧ ReadyFits { s with sched } ∧ sched.Filing s.pcbs ∧
      sched.readyQueue.toList = rest := by
  have hwf := hs.1.conserved.queues
  have hpol := hs.1.policy
  have hmem : p ∈ s.waiting := by
    rw [Sys.waiting, Scheduler.waiting, hready]
    exact List.mem_append_left _ (List.mem_cons_self ..)
  obtain ⟨i, hi, hlt⟩ := levelOf_isSome
    (hs.1.inRange p (hs.1.conserved.live p (List.mem_append_right _ hmem)))
  obtain ⟨rq, hdeq, hrest⟩ := ProcessQueue.exists_dequeue hwf.ready hready
  have htaken := taken_of_dequeue hwf hdeq
  have hpol' : Scheduler.policy { s.sched with readyQueue := rq } = .preemptivePrio := hpol
  -- nobody executes, so nobody is preempted
  have hstay := hidle.stays hpol rq p
  -- its level has the place counted for it
  rw [← hwf.numLevels hpol] at hlt
  have hpq := List.getElem?_eq_getElem hlt
  have hroom : (s.sched.priorityQueues[i]).currentSize <
      (s.sched.priorityQueues[i]).maxCapacity := by
    have hcount := h i _ hpq
    rw [hready, List.countP_cons, if_pos (decide_eq_true hi)] at hcount
    omega
  obtain ⟨sched, henq⟩ := Scheduler.exists_enqueue htaken.wf
    (by rw [Scheduler.queueFor?_prio hpol', hi]; exact hpq) hroom
  have hfiled := filed_of_enqueue (s := { s with sched := { s.sched with readyQueue := rq } })
    htaken.wf hpol henq
  have hlevels : Scheduler.Filing { s.sched with readyQueue := rq } s.pcbs := hfiling
  obtain ⟨hfiling', hready'⟩ := hlevels.enqueue htaken.wf hpol' henq
  have hempty : sched.readyQueue.toList = rest := by
    rw [hready']
    exact hrest
  refine ⟨sched, ?_, (steady_transfer pids).move s p _ _ hs htaken hfiled,
    h.filed hready htaken.wf hpol hi henq hempty, hfiling', hempty⟩
  simp only [transferReady, hdeq, hstay]
  rw [henq]

/-- With room on every level the loop empties `ready_queue`. -/
theorem ReadyFits.transferReady {pids : List Int} {s : Sys} (h : ReadyFits s)
    (hs : Steady pids s) (hidle : s.machine.Idle) (hfiling : s.sched.Filing s.pcbs) (n : Nat)
    (hn : s.sched.readyQueue.toList.length = n) :
    ∃ sched, LocOS.transferReady n s = { s with sched } ∧ Steady pids { s with sched } ∧
      sched.Filing s.pcbs ∧ sched.readyQueue.toList = [] := by
  induction n generalizing s with
  | zero => exact ⟨s.sched, rfl, hs, hfiling, List.length_eq_zero_iff.mp hn⟩
  | succ n ih =>
      obtain ⟨p, rest, hready⟩ := List.exists_cons_of_length_eq_add_one hn
      obtain ⟨sched, he, hs', hfits', hfiling', hrest⟩ := h.step hs hidle hfiling hready n
      obtain ⟨sched', he', hs'', hfiling'', hempty⟩ := ih hfits' hs' hidle hfiling' (by
        rw [hready, List.length_cons] at hn
        show sched.readyQueue.toList.length = n
        rw [hrest]
        omega)
      exact ⟨sched', he.trans he', hs'', hfiling'', hempty⟩

/-! ## Runs -/

/-- What every state of such a run satisfies: after the first pass everybody
who waits is on a level, and before it nobody executes. -/
structure Orderly (pids : List Int) (s : Sys) : Prop where
  steady : Steady pids s
  ranked : Ranked s
  ready : s.sched.readyQueue.toList = [] ∨ (s.running = [] ∧ ReadyFits s)

namespace Orderly

variable {pids : List Int} {s : Sys}

theorem clockTick (h : Orderly pids s) : Orderly pids (clockTick s) := by
  have hinv := clockTick_inv (s := s) (fun t => t.machine.Compact ∧ Ranked t ∧
    t.sched = s.sched ∧ t.running = s.running ∧
    ∀ p, (t.pcbs.get p).priority = (s.pcbs.get p).priority)
    ⟨h.steady.2, h.ranked.keep rfl rfl rfl fun _ => rfl, rfl, rfl, fun _ => rfl⟩
    fun i j k t ht => by
      obtain ⟨hc, hranked, hsched, hrun, hprio⟩ := ht
      obtain ⟨hsched', hrun', hthreads, hprio'⟩ := Ranked.tickThread_same hc i j k
      exact ⟨(tickThread_machine hc i j k).1, hranked.keep hsched' hrun' hthreads hprio',
        hsched'.trans hsched, hrun'.trans hrun, fun p => (hprio' p).trans (hprio p)⟩
  obtain ⟨_, hranked, hsched, hrun, hprio⟩ := hinv
  refine ⟨h.steady.tick, hranked, ?_⟩
  rw [hsched, hrun]
  refine h.ready.imp_right fun hfirst => ⟨hfirst.1, fun i pq hpq => ?_⟩
  rw [hsched] at hpq ⊢
  simp only [hprio]
  exact hfirst.2 i pq hpq

theorem scanThread_readyQueue {i j k : Nat} {core : Core} {hw : HardwareThread} {p : PcbPtr}
    (hwf : s.sched.WF) (hpol : s.sched.policy = .preemptivePrio)
    (hslot : s.machine.slot? i j k = some (core, hw, p)) :
    (scanThread i j k s).sched.readyQueue = s.sched.readyQueue := by
  rcases scanThread_cases hslot with ⟨_, he⟩ | ⟨_, _, he⟩ | ⟨_, _, he⟩
  · rw [he]
    rfl
  · rw [he]
    rcases expireThread_cases (s := s.charge p) hwf i j k core hw p with
      ⟨sched, henq, _, _, _, hexp⟩ | ⟨_, hexp⟩
    · obtain ⟨_, _, _, _, _, _, rfl⟩ := Scheduler.enqueue_levels hpol henq
      rw [hexp]
    · rw [hexp]
      rfl
  · rw [he]
    rfl

/-- The scan of a machine on which nobody executes visits nobody. -/
theorem scanMachine_idle (hc : s.machine.Compact) (hrun : s.running = []) :
    scanMachine s = s := by
  have horder : s.machine.scanOrder = [] := by
    have hperm := s.machine.scanOrder_perm
    rw [show s.machine.running = [] from hrun] at hperm
    exact hperm.eq_nil
  have hinv := scanMachine_inv (fun todo t => todo = [] ∧ t = s)
    (fun _ _ _ _ _ _ _ _ _ _ ht => by cases ht.1) hc ⟨horder, rfl⟩
  exact hinv.1.2

theorem schedulerPass (h : Orderly pids s) (hnd : pids.Nodup) :
    Orderly pids (LocOS.schedulerPass s) ∧ PriorityOrder (LocOS.schedulerPass s) := by
  -- up to the dispatch
  obtain ⟨t, hpass, hst, hranked, hempty⟩ : ∃ t,
      LocOS.schedulerPass s = dispatchReady t.sched.waitingCount t ∧ Steady pids t ∧ Ranked t ∧
        t.sched.readyQueue.toList = [] := by
    have hscan := h.steady.scan hnd
    refine ⟨_, schedulerPass_prio hscan.1.policy, ?_⟩
    rcases h.ready with hempty | ⟨hrun, hfits⟩
    · have hinv := scanMachine_inv
        (fun _ t => Placed pids t ∧ Ranked t ∧ t.sched.readyQueue = s.sched.readyQueue)
        (fun _ i j k t core hw p hct hslot ht => ⟨ht.1.scanThread hnd hct hslot,
          ht.2.1.scanThread ht.1.conserved hnd ht.1.policy hct hslot,
          (scanThread_readyQueue ht.1.conserved.queues ht.1.policy hslot).trans ht.2.2⟩)
        h.steady.2 ⟨h.steady.1, h.ranked, rfl⟩
      obtain ⟨_, hranked, hready⟩ := hinv.1
      have hzero : (scanMachine s).sched.readyQueue.currentSize = 0 := by
        rw [hready, ← ProcessQueue.length_toList, hempty]
        rfl
      rw [hzero]
      refine ⟨hscan, hranked, ?_⟩
      show (scanMachine s).sched.readyQueue.toList = []
      rw [hready]
      exact hempty
    · rw [scanMachine_idle h.steady.2 hrun]
      obtain ⟨sched, he, hst, hfiling, hempty⟩ := hfits.transferReady h.steady
        (h.steady.2.idle hrun) h.ranked.filing _ (ProcessQueue.length_toList _)
      rw [he]
      refine ⟨hst, ⟨hfiling, ?_⟩, hempty⟩
      have hnobody : ∀ ws, Sys.outranked { s with sched } ws = 0 := by
        refine fun ws => List.countP_eq_zero.mpr fun w _ hout => ?_
        obtain ⟨e, he, _⟩ := of_decide_eq_true hout
        rw [show Sys.running { s with sched } = [] from hrun] at he
        cases he
      rw [hnobody, show Sys.running { s with sched } = [] from hrun]
      exact Nat.zero_le _
  rw [hpass]
  obtain ⟨hranked', hempty', horder⟩ := hranked.dispatchReady hst hempty
  exact ⟨⟨hst.dispatch _, hranked', .inl hempty'⟩, horder⟩

end Orderly

/-- No priority is shared by more processes than its level holds. -/
def LevelsHold (cfg : Config) (pcbs : List PCB) : Prop :=
  ∀ priority : Int, (pcbs.countP fun pcb => decide (pcb.priority = priority)) ≤
    priorityQueueCapacity cfg.readyQueueSize

theorem PrioritySetup.orderly {cfg : Config} {pcbs : List PCB} (h : PrioritySetup cfg pcbs)
    (hhold : LevelsHold cfg pcbs) {s : Sys} (hb : Booted cfg pcbs s) :
    Orderly (pcbs.map PCB.pid) s := by
  have hsteady := h.steady hb
  have hrun : s.running = [] := by
    rw [Sys.running, hb.machine]
    refine Machine.Idle.running fun core hcore => ?_
    obtain ⟨n, rfl⟩ := h.fresh core hcore
    exact Core.createCore_holds n
  have hnil : ∀ (i : Nat) (pq : ProcessQueue), s.sched.priorityQueues[i]? = some pq →
      pq.toList = [] := by
    intro i pq hpq
    rw [hb.levels_eq (List.mem_of_getElem? hpq)]
    rfl
  refine ⟨hsteady, ⟨fun i pq hpq p hp => ?_, ?_⟩, .inr ⟨hrun, fun i pq hpq => ?_⟩⟩
  · rw [hnil i pq hpq] at hp
    cases hp
  · have hnobody : s.outranked s.waiting = 0 := by
      refine List.countP_eq_zero.mpr fun w _ hout => ?_
      obtain ⟨e, he, _⟩ := of_decide_eq_true hout
      rw [hrun] at he
      cases he
    rw [hnobody, hrun]
    exact Nat.zero_le _
  · have hsize : pq.currentSize = 0 := by
      rw [← ProcessQueue.length_toList, hnil i pq hpq]
      rfl
    have hcap : pq.maxCapacity = priorityQueueCapacity cfg.readyQueueSize := by
      rw [hb.levels_eq (List.mem_of_getElem? hpq)]
      rfl
    rw [hsize, hcap, Nat.zero_add, hb.readyList, hb.heap]
    calc (List.range pcbs.length).countP (fun p => decide
          (Scheduler.levelOf ((bootHeap pcbs).get p).priority = some i))
        ≤ (List.range pcbs.length).countP
            ((fun pcb => decide (pcb.priority = minPriority + i)) ∘ (bootHeap pcbs).get) := by
          refine List.countP_mono_left fun p _ hp => ?_
          have hlevel := Scheduler.levelOf_eq_some.mp (of_decide_eq_true hp)
          exact decide_eq_true hlevel.1
      _ = pcbs.countP fun pcb => decide (pcb.priority = minPriority + i) := by
          rw [← List.countP_map, map_get_bootHeap]
      _ ≤ priorityQueueCapacity cfg.readyQueueSize := hhold _

/-- After every pass the waiting processes are in the order of their
priorities, for any machine, queue size and interleaving of ticks and passes,
when no priority is shared by more processes than its level holds. -/
theorem priority_order {cfg : Config} {pcbs : List PCB} (hsetup : PrioritySetup cfg pcbs)
    (hhold : LevelsHold cfg pcbs) {s : Sys} (hs : (sysRuns cfg pcbs).Reachable s) :
    PriorityOrder (schedulerPass s) := by
  have h : Orderly (pcbs.map PCB.pid) s := by
    refine hs.invariant (Orderly (pcbs.map PCB.pid))
      (fun s hb => hsetup.orderly hhold (boot_spec hb)) ?_
    rintro s a t h rfl
    cases a with
    | tick => exact h.clockTick
    | pass => exact (h.schedulerPass hsetup.distinct).1
  exact (h.schedulerPass hsetup.distinct).2

/-- Two processes on one hardware thread, the less important one loaded
first. -/
theorem priority_order_two :
    PrioritySetup (oneCore 1 .preemptivePrio 5) [loadedPcb 1 10, loadedPcb 2 (-20)] ∧
    LevelsHold (oneCore 1 .preemptivePrio 5) [loadedPcb 1 10, loadedPcb 2 (-20)] ∧
    ∃ s, (sysRuns (oneCore 1 .preemptivePrio 5)
        [loadedPcb 1 10, loadedPcb 2 (-20)]).Reachable s ∧
      (schedulerPass s).waiting = [0] ∧ PriorityOrder (schedulerPass s) := by
  have hsetup : PrioritySetup (oneCore 1 .preemptivePrio 5)
      [loadedPcb 1 10, loadedPcb 2 (-20)] :=
    oneCore_setup 1 5 (by decide) (by decide)
  have hhold : LevelsHold (oneCore 1 .preemptivePrio 5) [loadedPcb 1 10, loadedPcb 2 (-20)] :=
    fun _ => List.countP_le_length
  obtain ⟨s, hs⟩ : ∃ s, boot (oneCore 1 .preemptivePrio 5)
      [loadedPcb 1 10, loadedPcb 2 (-20)] = some s := ⟨_, rfl⟩
  refine ⟨hsetup, hhold, s, .init hs, ?_, priority_order hsetup hhold (.init hs)⟩
  obtain rfl := Option.some.inj hs
  decide +kernel

/-- The third process of priority 10 finds its level full; the one of
priority 0 behind it stays in `ready_queue` while another executes. -/
theorem priority_order_broken : PrioritySetup (oneCore 1 .preemptivePrio 5) crowdedLevel ∧
    ∃ s, (sysRuns (oneCore 1 .preemptivePrio 5) crowdedLevel).Reachable s ∧
      ¬ PriorityOrder (schedulerPass s) := by
  obtain ⟨s, hs⟩ : ∃ s, boot (oneCore 1 .preemptivePrio 5) crowdedLevel = some s := ⟨_, rfl⟩
  refine ⟨crowdedLevel_setup 1, s, .init hs, fun horder => ?_⟩
  have hrun : 3 ∈ (schedulerPass s).waiting ∧
      ∃ core ∈ (schedulerPass s).machine.cores, ∃ hw ∈ core.hwThreads, hw.pcb = some 0 ∧
        ((schedulerPass s).pcbs.get 3).priority < ((schedulerPass s).pcbs.get 0).priority := by
    obtain rfl := Option.some.inj hs
    decide +kernel
  obtain ⟨hwait, core, hcore, hw, hmem, hpcb, hless⟩ := hrun
  obtain ⟨p, hp, hle⟩ := horder 3 hwait core hcore hw hmem
  obtain rfl := Option.some.inj (hpcb.symm.trans hp)
  exact absurd hle (Int.not_le.mpr hless)

end LocOS
