import LocOS.Transfer

/-!
# Priority

Static priorities with preemption. `preempt_lower_priority_processes` edits
the legacy copies and the count of a core but not its hardware threads, so a
preempted process keeps its thread unless that thread is the last counted
one, which the next dispatch overwrites. Under that condition on every pass
the slots and the PIDs stay consistent.
-/

namespace LocOS

open scoped List

/-! ## What a scan leaves alone -/

/-- A visit takes the process off its thread. -/
def Sys.Leaves (s : Sys) (p : PcbPtr) : Prop :=
  (s.pcbs.get p).charge.finished = true ∨ quantumExpired s.sched (s.pcbs.get p).charge = true

instance (s : Sys) (p : PcbPtr) : Decidable (s.Leaves p) :=
  inferInstanceAs (Decidable (_ ∨ _))

/-- No executing process has finished or used its quantum up. -/
def Sys.Quiet (s : Sys) : Prop := ∀ p ∈ s.running, ¬ s.Leaves p

/-- The processes still to visit are as they were when the scan began. -/
structure Unvisited (s : Sys) (todo : List PcbPtr) (t : Sys) : Prop where
  nodup : todo.Nodup
  same : ∀ p ∈ todo, t.pcbs.get p = s.pcbs.get p
  quantum : t.sched.quantum = s.sched.quantum
  syncMode : t.sched.syncMode = s.sched.syncMode

theorem quantumExpired_congr {a b : Scheduler} (hq : a.quantum = b.quantum)
    (hs : a.syncMode = b.syncMode) (pcb : PCB) : quantumExpired a pcb = quantumExpired b pcb := by
  unfold quantumExpired
  rw [hq, hs]

/-- A visit writes to the visited PCB only. -/
theorem scanThread_get_ne {i j k : Nat} {s : Sys} {core : Core} {hw : HardwareThread}
    {p : PcbPtr} (hslot : s.machine.slot? i j k = some (core, hw, p)) {q : PcbPtr} (hne : q ≠ p) :
    (scanThread i j k s).pcbs.get q = s.pcbs.get q := by
  have hcharge : (s.charge p).pcbs.get q = s.pcbs.get q := PcbHeap.get_set_ne _ hne _
  rcases scanThread_cases hslot with ⟨_, he⟩ | ⟨_, _, he⟩ | ⟨_, _, he⟩
  · rw [he, completeThread, ← hcharge]
    exact PcbHeap.get_destroyPcb_ne _ hne
  · rw [he, ← hcharge]
    exact PcbHeap.get_set_ne _ hne _
  · rw [he, hcharge]

theorem scanThread_config {i j k : Nat} {s : Sys} {core : Core} {hw : HardwareThread}
    {p : PcbPtr} (hslot : s.machine.slot? i j k = some (core, hw, p)) :
    (scanThread i j k s).sched.quantum = s.sched.quantum ∧
      (scanThread i j k s).sched.syncMode = s.sched.syncMode := by
  rcases scanThread_cases hslot with ⟨_, he⟩ | ⟨_, _, he⟩ | ⟨_, _, he⟩
  · rw [he]
    exact ⟨rfl, rfl⟩
  · rw [he]
    simp only [expireThread]
    cases henq : enqueueToScheduler (s.charge p).sched _ p with
    | none => exact ⟨rfl, rfl⟩
    | some sched =>
        have hsame := Scheduler.enqueueToScheduler_same henq
        exact ⟨hsame.quantum, hsame.syncMode⟩
  · rw [he]
    exact ⟨rfl, rfl⟩

theorem Unvisited.scanThread {s t : Sys} {todo : List PcbPtr} {p : PcbPtr}
    (h : Unvisited s (p :: todo) t) {i j k : Nat} {core : Core} {hw : HardwareThread}
    (hslot : t.machine.slot? i j k = some (core, hw, p)) :
    Unvisited s todo (scanThread i j k t) where
  nodup := (List.nodup_cons.mp h.nodup).2
  same := by
    intro q hq
    have hne : q ≠ p := by
      rintro rfl
      exact (List.nodup_cons.mp h.nodup).1 hq
    rw [scanThread_get_ne hslot hne]
    exact h.same q (List.mem_cons_of_mem p hq)
  quantum := (scanThread_config hslot).1.trans h.quantum
  syncMode := (scanThread_config hslot).2.trans h.syncMode

theorem Unvisited.start {s : Sys} (hnd : s.running.Nodup) :
    Unvisited s s.machine.scanOrder s :=
  ⟨s.machine.scanOrder_perm.nodup_iff.mpr hnd, fun _ _ => rfl, rfl, rfl⟩

/-- A visit decides as it would have at the start of the scan. -/
theorem Unvisited.leaves_iff {s t : Sys} {todo : List PcbPtr} {p : PcbPtr}
    (h : Unvisited s (p :: todo) t) : t.Leaves p ↔ s.Leaves p := by
  unfold Sys.Leaves
  rw [h.same p (List.mem_cons_self ..), quantumExpired_congr h.quantum h.syncMode]

/-- A quiet scan changes nothing but quantum counters. -/
theorem scanMachine_quiet {pids : List Int} {s : Sys} (h : Conserved pids s)
    (hnd : pids.Nodup) (hc : s.machine.Compact) (hquiet : s.Quiet) :
    (scanMachine s).machine = s.machine ∧ (scanMachine s).sched = s.sched ∧
      ∀ p, ((scanMachine s).pcbs.get p).priority = (s.pcbs.get p).priority := by
  have hinv := scanMachine_inv (fun todo t => Unvisited s todo t ∧ (∀ p ∈ todo, ¬ s.Leaves p) ∧
    t.machine = s.machine ∧ t.sched = s.sched ∧
    ∀ p, (t.pcbs.get p).priority = (s.pcbs.get p).priority) ?_ hc ?_
  · exact hinv.1.2.2
  · rintro todo i j k t core hw p hct hslot ⟨hun, hstay, hm, hs, hprio⟩
    have hno : ¬ t.Leaves p := fun hl =>
      hstay p (List.mem_cons_self ..) (hun.leaves_iff.mp hl)
    refine ⟨hun.scanThread hslot,
      fun q hq => hstay q (List.mem_cons_of_mem p hq), ?_⟩
    rcases scanThread_cases hslot with ⟨hfin, _⟩ | ⟨_, hexp, _⟩ | ⟨_, _, he⟩
    · exact absurd (.inl hfin) hno
    · exact absurd (.inr hexp) hno
    · rw [he]
      have hcharge : (t.pcbs.get p).charge.priority = (t.pcbs.get p).priority := rfl
      exact ⟨hm, hs, fun q => (PcbHeap.get_set_congr PCB.priority t.pcbs hcharge q).trans (hprio q)⟩
  · exact ⟨.start (h.nodup_running hnd),
      fun p hp => hquiet p (s.machine.scanOrder_perm.mem_iff.mp hp), rfl, rfl, fun _ => rfl⟩

theorem Machine.canCpuExecuteProcess_removeThread {m : Machine} (hc : m.Compact) {i j k : Nat}
    {core : Core} {hw : HardwareThread} {p : PcbPtr}
    (hslot : m.slot? i j k = some (core, hw, p)) :
    canCpuExecuteProcess (m.setCore i j (core.removeThread k)) = true := by
  obtain ⟨hcore, hk, hp⟩ := Machine.slot?_eq_some.mp hslot
  have hh := hc.core hcore
  have hlt := (List.getElem?_eq_some_iff.mp (hh.busy hk hp)).1
  rw [Machine.canCpuExecuteProcess_iff]
  refine ⟨core.removeThread k,
    Machine.mem_cores_of_core? (Machine.core?_setCore_self _ hcore), ?_⟩
  have hle := hh.le
  rw [(hh.removeThread hlt).counts.hasSpace_iff, Core.removeThread_numKernelThreads,
    List.length_eraseIdx_of_lt hlt]
  omega

/-- A scan that takes a process off its thread leaves a free slot. -/
theorem scanMachine_space {pids : List Int} {s : Sys} (h : Conserved pids s)
    (hnd : pids.Nodup) (hc : s.machine.Compact) (hloud : ¬ s.Quiet) :
    canCpuExecuteProcess (scanMachine s).machine = true := by
  have hinv := scanMachine_inv (fun todo t => Conserved pids t ∧ Unvisited s todo t ∧
    ((∃ p ∈ todo, s.Leaves p) ∨ canCpuExecuteProcess t.machine = true)) ?_ hc ?_
  · rcases hinv.1.2.2 with ⟨p, hp, _⟩ | hcan
    · cases hp
    · exact hcan
  · rintro todo i j k t core hw p hct hslot ⟨ht, hun, hor⟩
    refine ⟨ht.scanThread hnd hct hslot, hun.scanThread hslot, ?_⟩
    have hremoved : (scanThread i j k t).machine = t.machine.setCore i j (core.removeThread k) →
        canCpuExecuteProcess (scanThread i j k t).machine = true := by
      intro hm
      rw [hm]
      exact Machine.canCpuExecuteProcess_removeThread hct hslot
    -- once a slot is free it stays free: later visits only remove
    by_cases hl : t.Leaves p
    · right
      apply hremoved
      rcases scanThread_cases hslot with ⟨_, he⟩ | ⟨_, _, he⟩ | ⟨hfin, hexp, _⟩
      · rw [he]
        rfl
      · rw [he]
        rfl
      · unfold Sys.Leaves at hl
        rw [hfin, hexp] at hl
        simp at hl
    · rcases hor with ⟨q, hq, hlq⟩ | hcan
      · left
        rcases List.mem_cons.mp hq with rfl | hq
        · exact absurd (hun.leaves_iff.mpr hlq) hl
        · exact ⟨q, hq, hlq⟩
      · right
        rcases scanThread_machine hslot with hm | hm
        · rw [hm]
          exact hcan
        · exact hremoved hm
  · unfold Sys.Quiet at hloud
    push Not at hloud
    obtain ⟨p, hp, hl⟩ := hloud
    exact ⟨h, .start (h.nodup_running hnd),
      .inl ⟨p, s.machine.scanOrder_perm.mem_iff.mpr hp, hl⟩⟩

/-! ## The condition on a pass -/

/-- The process `get_lowest_priority_executing` finds is on the last counted
slot of its core. -/
def VictimLast (s : Sys) : Prop :=
  ∀ core ∈ s.machine.core? (getLowestPriorityExecuting s.machine).cpuIdx.toNat
      (getLowestPriorityExecuting s.machine).coreIdx.toNat,
    (getLowestPriorityExecuting s.machine).threadIdx + 1 = core.currentPcbCount

instance (s : Sys) : Decidable (VictimLast s) := by
  unfold VictimLast
  infer_instance

/-- A pass that starts in `s` preempts, if at all, in a state that is `ok`.
Only a quiet pass finds the machine still full after its scan. -/
structure PassOk (ok : Sys → Prop) (s : Sys) : Prop where
  transfer : s.Quiet → TransferOk ok s.sched.readyQueue.currentSize s

instance (s : Sys) : Decidable s.Quiet := by
  unfold Sys.Quiet Sys.Leaves
  infer_instance

instance (ok : Sys → Prop) [DecidablePred ok] (s : Sys) : Decidable (PassOk ok s) :=
  decidable_of_iff (s.Quiet → TransferOk ok s.sched.readyQueue.currentSize s)
    ⟨PassOk.mk, PassOk.transfer⟩

/-- The transfer loop looks at the machine, the queues and the priorities. -/
structure Alike (s t : Sys) : Prop where
  machine : t.machine = s.machine
  sched : t.sched = s.sched
  priority : ∀ p, (t.pcbs.get p).priority = (s.pcbs.get p).priority

theorem enqueueToScheduler_congr (sched : Scheduler) {pcbs pcbs' : PcbHeap} {p : PcbPtr}
    (h : (pcbs'.get p).priority = (pcbs.get p).priority) :
    enqueueToScheduler sched pcbs' p = enqueueToScheduler sched pcbs p := by
  unfold enqueueToScheduler
  rw [h]

theorem TransferOk.congr {ok : Sys → Prop} (hok : ∀ s t, Alike s t → ok s → ok t) (n : Nat)
    {s t : Sys} (h : Alike s t) (hs : TransferOk ok n s) : TransferOk ok n t := by
  induction n generalizing s t with
  | zero => trivial
  | succ n ih =>
      unfold TransferOk at hs ⊢
      rw [h.sched]
      cases hd : s.sched.readyQueue.dequeueProcess with
      | none => trivial
      | some pr =>
          obtain ⟨p, rq⟩ := pr
          simp only [hd] at hs ⊢
          have hpre : Sys.Preempts { t with sched := { s.sched with readyQueue := rq } } p ↔
              Sys.Preempts { s with sched := { s.sched with readyQueue := rq } } p := by
            unfold Sys.Preempts Sys.Outranks
            simp only [h.machine, h.priority]
          rw [enqueueToScheduler_congr _ (h.priority p)]
          by_cases hp : Sys.Preempts { s with sched := { s.sched with readyQueue := rq } } p
          · rw [if_pos hp] at hs
            rw [if_pos (hpre.mpr hp)]
            have halike : Alike { s with sched := { s.sched with readyQueue := rq } }
                { t with sched := { s.sched with readyQueue := rq } } :=
              ⟨h.machine, rfl, h.priority⟩
            exact hok _ _ halike hs
          · rw [if_neg hp] at hs
            rw [if_neg (mt hpre.mp hp)]
            cases he : enqueueToScheduler { s.sched with readyQueue := rq } s.pcbs p with
            | none => trivial
            | some sched =>
                simp only [he] at hs
                have halike : Alike { s with sched } { t with sched } :=
                  ⟨h.machine, rfl, h.priority⟩
                exact ih halike hs

theorem VictimLast.congr (s t : Sys) (h : Alike s t) (hs : VictimLast s) : VictimLast t := by
  unfold VictimLast
  rw [h.machine]
  exact hs

/-! ## A preemption -/

/-- One core has a stale slot after its counted ones, and every other core
is full. -/
def Machine.Stale (m : Machine) : Prop :=
  ∃ i j core ps, m.core? i j = some core ∧ core.Counts ps ∧
    ps.length + 1 = core.numKernelThreads ∧
    ∀ i' j' core', (i', j') ≠ (i, j) → m.core? i' j' = some core' →
      core'.Compact ∧ core'.hasSpace = false

theorem Machine.Stale.counted {m : Machine} (h : m.Stale) : m.Counted := by
  obtain ⟨i, j, core, ps, hcore, hcounts, _, hother⟩ := h
  intro c hc
  obtain ⟨i', j', hc'⟩ := Machine.mem_cores_iff.mp hc
  by_cases hij : (i', j') = (i, j)
  · obtain ⟨rfl, rfl⟩ := Prod.mk.inj hij
    obtain rfl := Option.some.inj (hcore.symm.trans hc')
    exact ⟨ps, hcounts⟩
  · obtain ⟨⟨qs, hqs⟩, _⟩ := hother i' j' c hij hc'
    exact ⟨qs, hqs.counts⟩

theorem Machine.Stale.free {m : Machine} (h : m.Stale) : canCpuExecuteProcess m = true := by
  obtain ⟨i, j, core, ps, hcore, hcounts, hlen, _⟩ := h
  rw [Machine.canCpuExecuteProcess_iff]
  exact ⟨core, Machine.mem_cores_of_core? hcore, hcounts.hasSpace_iff.mpr (by omega)⟩

/-- The next assignment overwrites the stale slot. -/
theorem Machine.Stale.assign {m : Machine} (h : m.Stale) {i j : Nat} {core : Core}
    (hcore : m.core? i j = some core) (hspace : core.hasSpace = true) (p : PcbPtr) (pcb : PCB) :
    (m.setCore i j (core.assign p pcb)).Compact := by
  obtain ⟨i', j', core', ps, hcore', hcounts, hlen, hother⟩ := h
  have hij : (i, j) = (i', j') := by
    by_contra hne
    rw [(hother i j core hne hcore).2] at hspace
    cases hspace
  obtain ⟨rfl, rfl⟩ := Prod.mk.inj hij
  obtain rfl := Option.some.inj (hcore.symm.trans hcore')
  intro c hc
  obtain ⟨i', j', hc'⟩ := Machine.mem_cores_iff.mp hc
  by_cases hij' : (i', j') = (i, j)
  · obtain ⟨rfl, rfl⟩ := Prod.mk.inj hij'
    rw [Machine.core?_setCore_self _ hcore] at hc'
    obtain rfl := Option.some.inj hc'
    refine ⟨_, (hcounts.assign hspace p pcb).holds ?_⟩
    rw [Core.assign_numKernelThreads, List.length_append, List.length_singleton]
    exact hlen
  · rw [Machine.core?_setCore_ne _ _ hij'] at hc'
    exact (hother i' j' c hij' hc').1

theorem Machine.Compact.lastCounted {m : Machine} (h : m.Compact) {i j k : Nat} {core : Core}
    (hcore : m.core? i j = some core) (hk : k < core.currentPcbCount.toNat) :
    ∃ ps v, core.running = ps ++ [v] ∧ (core.dropLegacy k).Counts ps := by
  have hholds := h.core hcore
  have hne : core.running ≠ [] := by
    rintro hnil
    rw [hholds.count, hnil] at hk
    cases hk
  have hlast := List.dropLast_append_getLast hne
  rw [← hlast] at hholds
  exact ⟨_, _, hlast.symm, hholds.dropLegacy k⟩

/-- A preemption on a full machine leaves the last counted slot of one core
stale, whatever slot the preempted process is on. -/
theorem Machine.Compact.stale {m : Machine} (h : m.Compact)
    (hfull : ∀ core ∈ m.cores, core.hasSpace = false) {i j k : Nat} {core : Core}
    (hcore : m.core? i j = some core) (hk : k < core.currentPcbCount.toNat) :
    (m.setCore i j (core.dropLegacy k)).Stale := by
  obtain ⟨ps, v, hrun, hdropped⟩ := h.lastCounted hcore hk
  refine ⟨i, j, core.dropLegacy k, ps, Machine.core?_setCore_self _ hcore, hdropped, ?_, ?_⟩
  · have hle := (h.core hcore).le
    have hiff := (h.core hcore).counts.hasSpace_iff
    rw [hrun, List.length_append, List.length_singleton] at hle hiff
    rw [hfull core (Machine.mem_cores_of_core? hcore)] at hiff
    have hnot : ¬ ps.length + 1 < core.numKernelThreads := fun hlt => by simpa using hiff.mpr hlt
    rw [Core.numKernelThreads, Core.dropLegacy_hwThreads]
    exact Nat.le_antisymm hle (Nat.le_of_not_lt hnot)
  · intro i' j' core' hne hcore'
    rw [Machine.core?_setCore_ne _ _ hne] at hcore'
    have hmem' := Machine.mem_cores_of_core? hcore'
    exact ⟨h core' hmem', hfull core' hmem'⟩

/-- The preemption takes nobody else out of the count. -/
theorem Machine.Compact.running_dropLegacy {m : Machine} (h : m.Compact) {i j k : Nat}
    {core : Core} (hcore : m.core? i j = some core) (hk : k < core.currentPcbCount.toNat) :
    ∃ v, m.running ~ v :: (m.setCore i j (core.dropLegacy k)).running := by
  obtain ⟨ps, v, hrun, hdropped⟩ := h.lastCounted hcore hk
  refine ⟨v, Machine.running_setCore_perm hcore [] [v] ?_⟩
  rw [hdropped.running_eq, hrun]
  exact List.perm_append_singleton ..

/-- Before a preemption. -/
def Steady (pids : List Int) (s : Sys) : Prop := Placed pids s ∧ s.machine.Compact

/-- Between a preemption and the dispatch that follows it. -/
def Unsettled (pids : List Int) (s : Sys) : Prop :=
  Placed pids s ∧ s.machine.Stale ∧ hasReadyProcesses s.sched = true

theorem Placed.move {pids : List Int} {s : Sys} (h : Placed pids s) {p : PcbPtr} {t u : Sys}
    (ht : Taken s p t) (hu : Filed t p u) : Placed pids u ∧ u.machine = s.machine := by
  have hm : u.machine = s.machine := by rw [hu.eq, ht.eq]
  have hheap : u.pcbs = s.pcbs := by rw [hu.eq, ht.eq]
  have hlog : u.log = s.log := by rw [hu.eq, ht.eq]
  have hplaces : s.places ~ u.places := by
    rw [Sys.places, Sys.places, Sys.running, Sys.running, hm]
    exact (ht.perm.trans hu.perm.symm).append_left _
  refine ⟨h.congr ?_ ?_ (hheap ▸ h.inRange) hm fun p hp => ?_, hm⟩
  · refine h.conserved.stay hu.wf hplaces (fun q hq => ?_)
      (hheap ▸ h.conserved.fresh) ?_ (by rw [hlog]) (by rw [hlog])
    · rw [hheap]
      exact .refl (h.conserved.live q (hplaces.mem_iff.mpr hq))
    · exact hu.same.totalCompleted.trans ht.same.totalCompleted
  · exact hu.same.policy.trans ht.same.policy
  · rw [hheap]
    exact .refl hp

theorem steady_transfer (pids : List Int) : TransferInv (Steady pids) where
  wf := fun _ h => h.1.conserved.queues
  policy := fun _ h => h.1.policy
  move := fun _ _ _ _ h ht hu => by
    obtain ⟨hplaced, hm⟩ := h.1.move ht hu
    exact ⟨hplaced, hm ▸ h.2⟩

theorem unsettled_transfer (pids : List Int) : TransferInv (Unsettled pids) where
  wf := fun _ h => h.1.conserved.queues
  policy := fun _ h => h.1.policy
  move := fun s p t u h ht hu => by
    obtain ⟨hplaced, hm⟩ := h.1.move ht hu
    refine ⟨hplaced, hm ▸ h.2.1, hu.more ?_⟩
    have hready := h.2.2
    rw [Scheduler.hasReadyProcesses_iff, if_pos h.1.policy] at hready
    rw [Scheduler.hasReadyProcesses_iff, if_pos (ht.same.policy.trans h.1.policy), ht.levels]
    exact hready

/-- The queues after the saved copy was offered to them. -/
structure Offered (s : Sys) (q : PcbPtr) (pcbs : PcbHeap) (sched : Scheduler) : Prop where
  wf : sched.WF
  same : Scheduler.SameConfig s.sched sched
  ready : sched.readyQueue = s.sched.readyQueue
  waiting : (enqueueToScheduler s.sched pcbs q = none ∧ sched.waiting = s.waiting) ∨
    ((enqueueToScheduler s.sched pcbs q).isSome ∧ sched.waiting ~ q :: s.waiting)

theorem offered {s : Sys} (h : s.sched.WF) (hpol : s.sched.policy = .preemptivePrio) (q : PcbPtr)
    (pcbs : PcbHeap) : Offered s q pcbs ((enqueueToScheduler s.sched pcbs q).getD s.sched) := by
  rcases Scheduler.enqueueToScheduler_cases h pcbs q with
    ⟨he, _⟩ | ⟨sched, _, he, _, _, hwf, hsame, hperm⟩
  · rw [he]
    exact ⟨h, .refl _, rfl, .inl ⟨he, rfl⟩⟩
  · refine ⟨by rw [he]; exact hwf, by rw [he]; exact hsame, ?_, .inr ⟨by rw [he]; rfl, ?_⟩⟩
    · rw [he]
      obtain ⟨_, _, _, _, _, _, rfl⟩ := Scheduler.enqueue_levels hpol he
      rfl
    · rw [he]
      exact hperm

/-- Nothing is preempted while a core has a free slot. -/
theorem Sys.Preempts.full {t : Sys} {p : PcbPtr} (h : t.Preempts p) :
    ∀ c ∈ t.machine.cores, c.hasSpace = false := by
  intro c hc
  rw [Bool.eq_false_iff]
  intro hs
  have hno := h.1
  rw [Machine.canCpuExecuteProcess_iff.mpr ⟨c, hc, hs⟩] at hno
  cases hno

/-- The process `v` that `p` preempts: it runs on the last counted slot of core
`j` of CPU `i`, behind `ps`, and the slot holds its copy `c`. -/
structure Victim (t : Sys) (p : PcbPtr) (i j : Nat) (core : Core) (ps : List PcbPtr) (v : PcbPtr)
    (c : PCB) : Prop where
  slot : t.machine.core? i j = some core
  holds : core.Holds (ps ++ [v])
  mirrors : core.Mirrors t.pcbs
  full : ∀ c ∈ t.machine.cores, c.hasSpace = false
  pid : c.pid = (t.pcbs.get v).pid
  priority : c.priority = (t.pcbs.get v).priority
  result : preemptLowerPriorityProcesses t p =
    { t with
      machine := t.machine.setCore i j (core.dropLegacy ps.length)
      sched := (enqueueToScheduler t.sched (t.pcbs.alloc c.savedCopy).2 t.pcbs.next).getD t.sched
      pcbs := (t.pcbs.alloc c.savedCopy).2
      log := t.log ++ [Event.preempted p c.pid t.pcbs.next
        (enqueueToScheduler t.sched (t.pcbs.alloc c.savedCopy).2 t.pcbs.next).isSome] }

/-- A preemption on the last slot has such a victim. -/
theorem Steady.victim {pids : List Int} {s t : Sys} {p : PcbPtr} (h : Steady pids s)
    (ht : Taken s p t) (hpre : t.Preempts p) (hlast : VictimLast t) :
    ∃ i j core ps v c, Victim t p i j core ps v c := by
  have hpol : t.sched.policy = .preemptivePrio := ht.same.policy.trans h.1.policy
  have hm : t.machine = s.machine := by rw [ht.eq]
  have hheap : t.pcbs = s.pcbs := by rw [ht.eq]
  rcases preempt_cases hpol p with ⟨hno, _⟩ | ⟨_, i, j, k, core, hcore, hk, hlow, he⟩
  · exact absurd hpre.2 hno
  have hmem := Machine.mem_cores_of_core? hcore
  have hholds : core.Holds core.running := (hm ▸ h.2 : t.machine.Compact).core hcore
  -- slot `k` is the last one, so `core.running` ends in the victim
  have hkl : k + 1 = core.running.length := by
    have hvl := hlast core (by rw [hlow]; exact hcore)
    have hcount := hholds.count
    rw [hlow] at hvl
    simp only at hvl
    omega
  have hne : core.running ≠ [] := by
    rintro hnil
    rw [hnil] at hkl
    simp at hkl
  obtain ⟨ps, v, hrun, rfl⟩ : ∃ ps v, core.running = ps ++ [v] ∧ ps.length = k := by
    refine ⟨core.running.dropLast, core.running.getLast hne,
      (List.dropLast_append_getLast hne).symm, ?_⟩
    rw [List.length_dropLast]
    omega
  have hmir : core.Mirrors t.pcbs := hheap ▸ h.1.mirrors core (hm ▸ hmem)
  obtain ⟨c, hc, hcpid, hcprio⟩ := hmir.copy ps.length v (by rw [hrun]; simp)
  have hvictim : core.pcbs.getD ps.length default = c := by
    rw [List.getD_eq_getElem?_getD, hc]
    rfl
  refine ⟨i, j, core, ps, v, c, hcore, hrun ▸ hholds, hmir, hpre.full, hcpid, hcprio, ?_⟩
  rw [he]
  simp only [Sys.preempted, hvictim]

namespace Victim

variable {pids : List Int} {s t u : Sys} {p : PcbPtr} {i j : Nat} {core : Core}
  {ps : List PcbPtr} {v : PcbPtr} {c : PCB}

theorem running_eq (hv : Victim t p i j core ps v c) : core.running = ps ++ [v] :=
  hv.holds.running_eq

theorem dropped (hv : Victim t p i j core ps v c) : (core.dropLegacy ps.length).Counts ps :=
  hv.holds.dropLegacy ps.length

theorem machine_eq (hv : Victim t p i j core ps v c)
    (hu : Filed (preemptLowerPriorityProcesses t p) p u) :
    u.machine = t.machine.setCore i j (core.dropLegacy ps.length) := by
  rw [hu.eq, hv.result]

theorem pcbs_eq (hv : Victim t p i j core ps v c)
    (hu : Filed (preemptLowerPriorityProcesses t p) p u) :
    u.pcbs = (t.pcbs.alloc c.savedCopy).2 := by
  rw [hu.eq, hv.result]

theorem log_eq (hv : Victim t p i j core ps v c)
    (hu : Filed (preemptLowerPriorityProcesses t p) p u) :
    u.log = t.log ++ [Event.preempted p c.pid t.pcbs.next
      (enqueueToScheduler t.sched (t.pcbs.alloc c.savedCopy).2 t.pcbs.next).isSome] := by
  rw [hu.eq, hv.result]

/-- The copy is offered to the queues the preempting process was taken from. -/
theorem offered (hv : Victim t p i j core ps v c) (h : Steady pids s) (ht : Taken s p t) :
    Offered t t.pcbs.next (t.pcbs.alloc c.savedCopy).2
      (preemptLowerPriorityProcesses t p).sched := by
  rw [hv.result]
  exact LocOS.offered ht.wf (ht.same.policy.trans h.1.policy) ..

theorem keeps (hv : Victim t p i j core ps v c) (h : Steady pids s) (ht : Taken s p t)
    (hu : Filed (preemptLowerPriorityProcesses t p) p u) {q : PcbPtr} (hq : s.pcbs.Live q) :
    s.pcbs.Keeps u.pcbs q := by
  have hheap : t.pcbs = s.pcbs := by rw [ht.eq]
  rw [hv.pcbs_eq hu, hheap]
  exact PcbHeap.keeps_alloc h.1.conserved.fresh _ hq

/-- The victim leaves the threads, and nobody else does. -/
theorem running_perm (hv : Victim t p i j core ps v c) (ht : Taken s p t)
    (hu : Filed (preemptLowerPriorityProcesses t p) p u) : s.running ~ v :: u.running := by
  have hm : t.machine = s.machine := by rw [ht.eq]
  rw [Sys.running, Sys.running, hv.machine_eq hu, ← hm]
  refine Machine.running_setCore_perm hv.slot [] [v] ?_
  rw [hv.dropped.running_eq, hv.running_eq]
  exact List.perm_append_singleton ..

theorem places_perm (hv : Victim t p i j core ps v c) (ht : Taken s p t)
    (hu : Filed (preemptLowerPriorityProcesses t p) p u) :
    s.places ~ [v] ++ (u.running ++ (p :: t.waiting)) :=
  calc s.running ++ s.waiting
      ~ s.running ++ (p :: t.waiting) := ht.perm.append_left _
    _ ~ (v :: u.running) ++ (p :: t.waiting) := (hv.running_perm ht hu).append_right _

theorem live (hv : Victim t p i j core ps v c) (h : Steady pids s) (ht : Taken s p t)
    (hu : Filed (preemptLowerPriorityProcesses t p) p u) : s.pcbs.Live v :=
  h.1.conserved.live v (List.mem_append_left _
    ((hv.running_perm ht hu).mem_iff.mpr (List.mem_cons_self ..)))

/-- The copy takes the victim's place in the account, or its PID is dropped. -/
theorem conserved (hv : Victim t p i j core ps v c) (h : Steady pids s) (ht : Taken s p t)
    (hu : Filed (preemptLowerPriorityProcesses t p) p u) : Conserved pids u := by
  have hheap : t.pcbs = s.pcbs := by rw [ht.eq]
  have hlog : t.log = s.log := by rw [ht.eq]
  have hoff := hv.offered h ht
  have hplaces := hv.places_perm ht hu
  have hrest : ∀ q ∈ u.running ++ (p :: t.waiting), s.pcbs.Keeps u.pcbs q := fun q hq =>
    hv.keeps h ht hu
      (h.1.conserved.live q (hplaces.mem_iff.mpr (List.mem_append_right _ hq)))
  have hpidv : s.pid v = c.pid := by rw [hv.pid, hheap]; rfl
  have hufresh : u.pcbs.Fresh := by
    rw [hv.pcbs_eq hu, hheap]
    exact h.1.conserved.fresh.alloc _
  have htotal : u.sched.totalCompleted = ((completedPids u.log).length : Int) := by
    rw [hu.same.totalCompleted, hv.log_eq hu, completedPids_append, hoff.same.totalCompleted,
      ht.same.totalCompleted, h.1.conserved.completedCount, hlog]
    simp [completedPids]
  rcases hoff.waiting with ⟨hnone, hw⟩ | ⟨hsome, hw⟩
  · -- the copy is refused, and the victim's PID with it
    have huw : u.places ~ [] ++ (u.running ++ (p :: t.waiting)) :=
      (hu.perm.trans (by rw [Sys.waiting, hw])).append_left _
    refine h.1.conserved.exchange [v] _ [] [c.pid] hu.wf hplaces huw hrest
      (fun _ hq => by cases hq) (by simp [hpidv]) ?_ hufresh htotal
    rw [hv.log_eq hu, hlog, hnone]
    exact endedPids_append_perm ..
  · have huw : u.places ~ [t.pcbs.next] ++ (u.running ++ (p :: t.waiting)) :=
      calc u.running ++ u.waiting
          ~ u.running ++ (p :: t.pcbs.next :: t.waiting) :=
            (hu.perm.trans (hw.cons p)).append_left _
        _ ~ u.running ++ (t.pcbs.next :: p :: t.waiting) := (List.Perm.swap ..).append_left _
        _ ~ t.pcbs.next :: (u.running ++ (p :: t.waiting)) := List.perm_middle
    refine h.1.conserved.exchange [v] _ [t.pcbs.next] [] hu.wf hplaces huw hrest ?_ ?_ ?_
      hufresh htotal
    · intro q hq
      rw [List.mem_singleton.mp hq, hv.pcbs_eq hu]
      exact PcbHeap.live_alloc_self ..
    · have hpidq : u.pid t.pcbs.next = c.pid := by
        rw [Sys.pid, hv.pcbs_eq hu, PcbHeap.get_alloc_self]
        rfl
      simp [hpidv, hpidq]
    · rw [hv.log_eq hu, hlog, hsome]
      simp [endedPids, completedPids, droppedPids]

theorem inRange (hv : Victim t p i j core ps v c) (h : Steady pids s) (ht : Taken s p t)
    (hu : Filed (preemptLowerPriorityProcesses t p) p u) : u.pcbs.InRange := by
  have hheap : t.pcbs = s.pcbs := by rw [ht.eq]
  rw [hv.pcbs_eq hu, hheap]
  refine PcbHeap.InRange.alloc h.1.inRange ?_
  show minPriority ≤ c.priority ∧ c.priority ≤ maxPriority
  rw [hv.priority, hheap]
  exact h.1.inRange v (hv.live h ht hu)

theorem cores_mirror (hv : Victim t p i j core ps v c) (h : Steady pids s) (ht : Taken s p t)
    (hu : Filed (preemptLowerPriorityProcesses t p) p u) :
    ∀ d ∈ u.machine.cores, d.Mirrors u.pcbs := by
  have hm : t.machine = s.machine := by rw [ht.eq]
  have hheap : t.pcbs = s.pcbs := by rw [ht.eq]
  intro d hd
  rw [hv.machine_eq hu] at hd
  rcases Machine.mem_setCore hv.slot hd with rfl | hold
  · refine (hv.mirrors.dropLegacy hv.holds).keeps fun q hq => ?_
    rw [hheap]
    refine hv.keeps h ht hu
      (h.1.live_running (hm ▸ Machine.mem_cores_of_core? hv.slot) ?_)
    rw [hv.dropped.running_eq] at hq
    rw [hv.running_eq]
    exact List.mem_append_left _ hq
  · rw [hm] at hold
    exact (h.1.mirrors d hold).keeps fun q hq => hv.keeps h ht hu (h.1.live_running hold hq)

/-- The victim's slot is the only one that is not full. -/
theorem stale (hv : Victim t p i j core ps v c) (hct : t.machine.Compact)
    (hu : Filed (preemptLowerPriorityProcesses t p) p u) : u.machine.Stale := by
  rw [hv.machine_eq hu]
  refine hct.stale hv.full hv.slot ?_
  rw [hv.holds.count, List.length_append, List.length_singleton, Int.toNat_natCast]
  exact Nat.lt_succ_self _

/-- The preempting process was filed in one of the queues. -/
theorem ready (hv : Victim t p i j core ps v c) (h : Steady pids s) (ht : Taken s p t)
    (hu : Filed (preemptLowerPriorityProcesses t p) p u) : hasReadyProcesses u.sched = true := by
  refine hu.ready ?_
  have hplive : s.pcbs.Live p := h.1.conserved.live p
    (List.mem_append_right _ (ht.perm.mem_iff.mpr (List.mem_cons_self ..)))
  have hrange := h.1.inRange p hplive
  have hprio : ((preemptLowerPriorityProcesses t p).pcbs.get p).priority =
      (s.pcbs.get p).priority := by
    rw [hv.result, ← hv.pcbs_eq hu]
    exact (hv.keeps h ht hu hplive).priority
  simp only [Scheduler.levelOf, hprio]
  rw [if_neg (by omega)]
  rfl

end Victim

/-- A preemption of the last slot: the victim's place is taken by its copy,
and its slot is stale. -/
theorem Steady.preempt {pids : List Int} {s t : Sys} {p : PcbPtr} (h : Steady pids s)
    (ht : Taken s p t) (hpre : t.Preempts p) (hlast : VictimLast t) :
    (preemptLowerPriorityProcesses t p).sched.WF ∧
    (preemptLowerPriorityProcesses t p).sched.policy = .preemptivePrio ∧
    (preemptLowerPriorityProcesses t p).sched.readyQueue.currentSize <
      (preemptLowerPriorityProcesses t p).sched.readyQueue.maxCapacity ∧
    ∀ u, Filed (preemptLowerPriorityProcesses t p) p u → Unsettled pids u := by
  obtain ⟨i, j, core, ps, v, c, hv⟩ := h.victim ht hpre hlast
  have hoff := hv.offered h ht
  have hpol : (preemptLowerPriorityProcesses t p).sched.policy = .preemptivePrio :=
    hoff.same.policy.trans (ht.same.policy.trans h.1.policy)
  have hct : t.machine.Compact := by
    rw [ht.eq]
    exact h.2
  refine ⟨hoff.wf, hpol, ?_, fun u hu => ?_⟩
  · rw [hoff.ready]
    exact ht.room
  · exact ⟨⟨hv.conserved h ht hu, hu.same.policy.trans hpol, hv.inRange h ht hu,
      hv.cores_mirror h ht hu⟩, hv.stale hct hu, hv.ready h ht hu⟩

/-! ## A pass -/

theorem waitingCount_pos {sched : Scheduler} (hpol : sched.policy = .preemptivePrio)
    (h : hasReadyProcesses sched = true) : 0 < sched.waitingCount := by
  rw [Scheduler.hasReadyProcesses_iff, if_pos hpol] at h
  obtain ⟨pq, hpq, hpos⟩ := h
  have hsum : 0 < (sched.priorityQueues.map (·.currentSize)).sum :=
    List.sum_pos_iff_exists_pos_nat.mpr ⟨_, List.mem_map.mpr ⟨pq, hpq, rfl⟩, hpos⟩
  unfold Scheduler.waitingCount
  omega

namespace Steady

variable {pids : List Int} {s : Sys}

theorem tick (h : Steady pids s) : Steady pids (clockTick s) := by
  refine clockTick_inv (Steady pids) ⟨?_, h.2⟩
    fun i j k t ht => ⟨ht.1.tickThread ht.2 i j k, (tickThread_machine ht.2 i j k).1⟩
  exact h.1.congr h.1.conserved.tickEvent rfl h.1.inRange rfl fun _ hq => .refl hq

theorem scan (h : Steady pids s) (hnd : pids.Nodup) : Steady pids (scanMachine s) :=
  scanMachine_inv (fun _ => Placed pids)
    (fun _ _ _ _ _ _ _ _ hct hslot ht => ht.scanThread hnd hct hslot) h.2 h.1

/-- A full machine after the scan means that the scan was quiet, and then the
transfer loop sees what the pass started from. -/
theorem transferOk (h : Steady pids s) (hnd : pids.Nodup) {ok : Sys → Prop}
    (hcongr : ∀ s t, Alike s t → ok s → ok t) (hok : PassOk ok s)
    (hfull : canCpuExecuteProcess (scanMachine s).machine ≠ true) :
    TransferOk ok (scanMachine s).sched.readyQueue.currentSize (scanMachine s) := by
  have hquiet : s.Quiet := by
    by_contra hloud
    exact hfull (scanMachine_space h.1.conserved hnd h.2 hloud)
  obtain ⟨hm, hs, hprio⟩ := scanMachine_quiet h.1.conserved hnd h.2 hquiet
  rw [hs]
  exact TransferOk.congr hcongr _ ⟨hm, hs, hprio⟩ (hok.transfer hquiet)

theorem dispatched (h : Steady pids s) {p : PcbPtr} {sched : Scheduler} {i j : Nat} {core : Core}
    (hcore : s.machine.core? i j = some core) (hspace : core.hasSpace = true) (hwf : sched.WF)
    (hsame : Scheduler.SameConfig s.sched sched) (hperm : s.sched.waiting ~ p :: sched.waiting) :
    Steady pids (s.dispatched sched p i j core) :=
  ⟨h.1.dispatched h.2.counted hcore hspace hwf hsame hperm,
    h.2.setCore hcore ((h.2.core hcore).assign hspace p _)⟩

theorem dispatch (h : Steady pids s) (n : Nat) : Steady pids (dispatchReady n s) :=
  dispatchReady_inv (P := Steady pids) (fun _ h => h.1.conserved.queues)
    (fun _ h => by rw [h.1.policy]; decide)
    (fun _ _ _ _ _ _ h hcore hspace hwf hsame hperm _ =>
      h.dispatched hcore hspace hwf hsame hperm)
    n h

end Steady

/-- The dispatch after a preemption fills the stale slot first. -/
theorem dispatch_stale {s : Sys} (hwf : s.sched.WF) (hpol : s.sched.policy = .preemptivePrio)
    (hstale : s.machine.Stale) (hready : hasReadyProcesses s.sched = true) :
    ∃ p sched i j core, s.machine.core? i j = some core ∧ core.hasSpace = true ∧
      sched.WF ∧ Scheduler.SameConfig s.sched sched ∧ s.sched.waiting ~ p :: sched.waiting ∧
      dispatchReady s.sched.waitingCount s =
        dispatchReady (s.sched.waitingCount - 1) (s.dispatched sched p i j core) ∧
      (s.dispatched sched p i j core).machine.Compact := by
  have hpos := waitingCount_pos hpol hready
  obtain ⟨n, hn⟩ : ∃ n, s.sched.waitingCount = n + 1 := ⟨s.sched.waitingCount - 1, by omega⟩
  rw [hn]
  rcases dispatchReady_cases hwf (by rw [hpol]; decide) n with
    ⟨_, hstop⟩ | ⟨p, sched, i, j, core, hcore, hspace, hwf, hsame, hperm, _, he⟩
  · rw [hready, hstale.free] at hstop
    cases hstop
  · exact ⟨p, sched, i, j, core, hcore, hspace, hwf, hsame, hperm, he,
      hstale.assign hcore hspace p _⟩

theorem Unsettled.dispatch {pids : List Int} {s : Sys} (h : Unsettled pids s) :
    ∃ p sched i j core, s.machine.core? i j = some core ∧ core.hasSpace = true ∧
      sched.WF ∧ Scheduler.SameConfig s.sched sched ∧ s.sched.waiting ~ p :: sched.waiting ∧
      dispatchReady s.sched.waitingCount s =
        dispatchReady (s.sched.waitingCount - 1) (s.dispatched sched p i j core) ∧
      Steady pids (s.dispatched sched p i j core) := by
  obtain ⟨hplaced, hstale, hready⟩ := h
  obtain ⟨p, sched, i, j, core, hcore, hspace, hwf, hsame, hperm, he, hcompact⟩ :=
    dispatch_stale hplaced.conserved.queues hplaced.policy hstale hready
  exact ⟨p, sched, i, j, core, hcore, hspace, hwf, hsame, hperm, he,
    hplaced.dispatched hstale.counted hcore hspace hwf hsame hperm, hcompact⟩

theorem schedulerPass_prio {s : Sys} (h : (scanMachine s).sched.policy = .preemptivePrio) :
    schedulerPass s =
      dispatchReady
        (transferReady (scanMachine s).sched.readyQueue.currentSize
          (scanMachine s)).sched.waitingCount
        (transferReady (scanMachine s).sched.readyQueue.currentSize (scanMachine s)) := by
  simp [schedulerPass, h]

theorem Steady.pass {pids : List Int} {s : Sys} (h : Steady pids s) (hnd : pids.Nodup)
    (hok : PassOk VictimLast s) : Steady pids (schedulerPass s) := by
  have hscan := h.scan hnd
  rw [schedulerPass_prio hscan.1.policy]
  by_cases hcan : canCpuExecuteProcess (scanMachine s).machine = true
  · exact (transferReady_free (steady_transfer pids) _ hscan hcan).dispatch _
  · have htrans := transferReady_inv _ (steady_transfer pids) (unsettled_transfer pids)
      (fun _ hu => hu.2.1.free) (fun _ _ _ ht htaken hpre hlast => ht.preempt htaken hpre hlast)
      _ hscan (h.transferOk hnd VictimLast.congr hok hcan)
    rcases htrans with hu | hu
    · exact hu.dispatch _
    · obtain ⟨_, _, _, _, _, _, _, _, _, _, he, hsteady⟩ := hu.dispatch
      rw [he]
      exact hsteady.dispatch _

/-! ## Slots and PIDs -/

/-- The processes the clock advances: those of the slots whose `pcb` is not
null, counted or not. -/
def Machine.busy (m : Machine) : List PcbPtr :=
  m.cores.flatMap fun core => core.hwThreads.filterMap (·.pcb)

theorem Core.Holds.busy_eq {core : Core} {ps : List PcbPtr} (h : core.Holds ps) :
    core.hwThreads.filterMap (·.pcb) = ps := by
  have hmap : core.hwThreads.map (·.pcb) =
      ps.map some ++ List.replicate (core.numKernelThreads - ps.length) none := by
    apply List.ext_getElem?
    intro k
    rw [List.getElem?_map, List.getElem?_append, List.length_map, List.getElem?_map,
      List.getElem?_replicate]
    have hle := h.le
    rcases Nat.lt_or_ge k core.numKernelThreads with hk | hk
    · have hget := List.getElem?_eq_getElem hk
      rw [hget, Option.map_some, h.slot k _ hget]
      split
      · rename_i hlt
        rw [List.getElem?_eq_getElem hlt]
        rfl
      · rw [if_pos (by omega), List.getElem?_eq_none (by omega)]
    · rw [List.getElem?_eq_none hk, if_neg (by omega), if_neg (by omega)]
      rfl
  calc core.hwThreads.filterMap (·.pcb)
      = (core.hwThreads.map (·.pcb)).filterMap id := by rw [List.filterMap_map]; rfl
    _ = ps := by rw [hmap]; simp

theorem Machine.Compact.busy_eq {m : Machine} (h : m.Compact) : m.busy = m.running := by
  refine List.flatMap_congr fun core hcore => ?_
  obtain ⟨ps, hps⟩ := h core hcore
  rw [hps.busy_eq, hps.running_eq]

/-- No PID occurs twice in the queues and on the hardware threads, and the
clock and the scheduler agree on the occupied slots. -/
structure PriorityState (s : Sys) : Prop where
  onceEach : ((s.sched.readyQueue.toList ++
    s.sched.priorityQueues.flatMap ProcessQueue.toList ++ s.machine.busy).map s.pid).Nodup
  sameSlots : ∀ core ∈ s.machine.cores, ∀ (k : Nat) (hw : HardwareThread),
    core.hwThreads[k]? = some hw → (hw.pcb.isSome ↔ (k : Int) < core.currentPcbCount)

theorem Steady.state {pids : List Int} {s : Sys} (h : Steady pids s) (hnd : pids.Nodup) :
    PriorityState s where
  onceEach := by
    have hperm : s.sched.waiting ++ s.machine.busy ~ s.places := by
      rw [h.2.busy_eq]
      exact List.perm_append_comm
    exact (hperm.map s.pid).nodup_iff.mpr (h.1.conserved.nodup_pids hnd)
  sameSlots := by
    intro core hcore
    obtain ⟨ps, hps⟩ := h.2 core hcore
    exact hps.bounds.2.2

/-- The processes and the machine `main` sets up for a run with priorities. -/
structure PrioritySetup (cfg : Config) (pcbs : List PCB) : Prop where
  policy : cfg.policy = .preemptivePrio
  fresh : ∀ core ∈ cfg.machine.cores, ∃ n, core = createCore n
  distinct : (pcbs.map PCB.pid).Nodup
  inRange : ∀ pcb ∈ pcbs, minPriority ≤ pcb.priority ∧ pcb.priority ≤ maxPriority

theorem PrioritySetup.steady {cfg : Config} {pcbs : List PCB} (h : PrioritySetup cfg pcbs)
    {s : Sys} (hb : Booted cfg pcbs s) : Steady (pcbs.map PCB.pid) s := by
  have hidle : cfg.machine.Idle := by
    intro core hcore
    obtain ⟨n, rfl⟩ := h.fresh core hcore
    exact Core.createCore_holds n
  refine ⟨⟨hb.conserved hidle, hb.policy.trans h.policy, ?_, ?_⟩, hb.machine ▸ hidle.compact⟩
  · rw [hb.heap]
    intro p hp
    have hget := List.getElem?_eq_getElem (live_bootHeap.mp hp)
    rw [get_bootHeap hget]
    exact h.inRange _ (List.mem_of_getElem? hget)
  · intro core hcore
    rw [hb.machine] at hcore
    obtain ⟨n, rfl⟩ := h.fresh core hcore
    exact Core.createCore_mirrors n _

/-- Slots and PIDs stay consistent in every run in which no pass preempts a
process that is not on the last counted slot of its core. -/
theorem priority_consistent {cfg : Config} {pcbs : List PCB} (hsetup : PrioritySetup cfg pcbs)
    {s : Sys} (hs : ((sysRuns cfg pcbs).restrict fun s a =>
      a = .pass → PassOk VictimLast s).Reachable s) : PriorityState s := by
  have hsteady : Steady (pcbs.map PCB.pid) s := by
    refine hs.invariant (Steady (pcbs.map PCB.pid)) (fun s hb => hsetup.steady (boot_spec hb)) ?_
    rintro s a t h ⟨hok, rfl⟩
    cases a with
    | tick => exact h.tick
    | pass => exact h.pass hsetup.distinct (hok rfl)
  exact hsteady.state hsetup.distinct

theorem oneCore_setup (numThreads : Nat) (quantum : Int) {pcbs : List PCB}
    (hdistinct : (pcbs.map PCB.pid).Nodup)
    (hinRange : ∀ pcb ∈ pcbs, minPriority ≤ pcb.priority ∧ pcb.priority ≤ maxPriority) :
    PrioritySetup (oneCore numThreads .preemptivePrio quantum) pcbs where
  policy := rfl
  fresh := by
    intro core hcore
    have hcore : core ∈ [createCore numThreads] := hcore
    exact ⟨numThreads, List.mem_singleton.mp hcore⟩
  distinct := hdistinct
  inRange := hinRange

/-- Three processes of one priority, of which a level holds two, and one that
is more important and arrives when the machine is full. -/
def crowdedLevel : List PCB :=
  [loadedPcb 1 10, loadedPcb 2 10, loadedPcb 3 10, loadedPcb 4 0]

theorem crowdedLevel_setup (numThreads : Nat) :
    PrioritySetup (oneCore numThreads .preemptivePrio 5) crowdedLevel :=
  oneCore_setup numThreads 5 (by decide) (by decide)

/-- With a single hardware thread the preempted process is on the last slot. -/
theorem priority_consistent_oneThread : ∃ s,
    ((sysRuns (oneCore 1 .preemptivePrio 5) crowdedLevel).restrict fun s a =>
      a = .pass → PassOk VictimLast s).Reachable s ∧
    Event.preempted 3 1 4 true ∈ s.log ∧ PriorityState s := by
  obtain ⟨s, hs⟩ : ∃ s, boot (oneCore 1 .preemptivePrio 5) crowdedLevel = some s := ⟨_, rfl⟩
  have hfirst : Action.pass = .pass → PassOk VictimLast s := by
    intro _
    obtain rfl := Option.some.inj hs
    decide +kernel
  have hlast : Action.pass = .pass → PassOk VictimLast ((s.next .pass).next .tick) := by
    intro _
    obtain rfl := Option.some.inj hs
    decide +kernel
  have hstart : ((sysRuns (oneCore 1 .preemptivePrio 5) crowdedLevel).restrict fun s a =>
      a = .pass → PassOk VictimLast s).Reachable s := .init hs
  have htick := restricted_next (restricted_next hstart .pass hfirst) .tick
    fun h => absurd h (by decide)
  have hreach := restricted_next htick .pass hlast
  refine ⟨_, hreach, ?_, priority_consistent (crowdedLevel_setup 1) hreach⟩
  obtain rfl := Option.some.inj hs
  decide +kernel

/-- With two, the preempted process keeps slot 0 and its copy is queued. -/
theorem priority_inconsistent : ¬ ∀ (cfg : Config) (pcbs : List PCB) (s : Sys),
    PrioritySetup cfg pcbs → (sysRuns cfg pcbs).Reachable s → PriorityState s := by
  intro hall
  obtain ⟨s, hs⟩ : ∃ s, boot (oneCore 2 .preemptivePrio 5) crowdedLevel = some s := ⟨_, rfl⟩
  have hstart : (sysRuns (oneCore 2 .preemptivePrio 5) crowdedLevel).Reachable s := .init hs
  have hreach := reachable_next (reachable_next (reachable_next hstart .pass) .tick) .pass
  have honce := (hall _ _ _ (crowdedLevel_setup 2) hreach).onceEach
  obtain rfl := Option.some.inj hs
  revert honce
  decide +kernel

end LocOS
