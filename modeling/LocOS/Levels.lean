import LocOS.Priority

/-!
# Levels

The priority queues are small, and the scheduler does not look whether a
requeue was refused. A refused process is on no queue, and it leaves its
thread all the same. The condition here counts, before a pass, what the scan
is about to put on each level; under it no process is lost.
-/

namespace LocOS

open scoped List

/-! ## The condition on a scan -/

/-- A visit sends the process back to its queue. -/
def Sys.Expires (s : Sys) (p : PcbPtr) : Prop :=
  (s.pcbs.get p).charge.finished = false ∧ quantumExpired s.sched (s.pcbs.get p).charge = true

instance (s : Sys) (p : PcbPtr) : Decidable (s.Expires p) := by
  unfold Sys.Expires
  infer_instance

/-- How many of the processes a scan sends back to level `i`. -/
def Sys.expiringAt (s : Sys) (i : Nat) (ps : List PcbPtr) : Nat :=
  ps.countP fun p => decide (s.Expires p ∧ Scheduler.levelOf (s.pcbs.get p).priority = some i)

/-- Every level has room for the executing processes whose quantum the pass
finds used up. -/
def LevelsFit (s : Sys) : Prop :=
  ∀ (i : Nat) (pq : ProcessQueue), s.sched.priorityQueues[i]? = some pq →
    pq.currentSize + s.expiringAt i s.running ≤ pq.maxCapacity

instance (s : Sys) : Decidable (LevelsFit s) :=
  decidable_of_iff (∀ a ∈ s.sched.priorityQueues.zipIdx,
      a.1.currentSize + s.expiringAt a.2 s.running ≤ a.1.maxCapacity) <| by
    constructor
    · intro h i pq hpq
      exact h (pq, i) (List.mem_zipIdx_iff_getElem?.mpr hpq)
    · intro h a ha
      exact h a.2 a.1 (List.mem_zipIdx_iff_getElem?.mp ha)

/-- The process preempted is on the last counted slot of its core, and the
level of its copy has room. -/
def VictimFits (s : Sys) : Prop :=
  VictimLast s ∧
    ∃ pq ∈ s.sched.queueFor? (getLowestPriorityExecuting s.machine).priority,
      pq.currentSize < pq.maxCapacity

instance (s : Sys) : Decidable (VictimFits s) := by
  unfold VictimFits
  infer_instance

theorem VictimFits.congr (s t : Sys) (h : Alike s t) (hs : VictimFits s) : VictimFits t := by
  refine ⟨VictimLast.congr s t h hs.1, ?_⟩
  rw [h.machine, h.sched]
  exact hs.2

theorem TransferOk.imp {ok ok' : Sys → Prop} (h : ∀ s, ok s → ok' s) (n : Nat) {s : Sys}
    (hs : TransferOk ok n s) : TransferOk ok' n s := by
  induction n generalizing s with
  | zero => trivial
  | succ n ih =>
      unfold TransferOk at hs ⊢
      cases hd : s.sched.readyQueue.dequeueProcess with
      | none => trivial
      | some pr =>
          obtain ⟨p, rq⟩ := pr
          simp only [hd] at hs ⊢
          split
          · rename_i hp
            rw [if_pos hp] at hs
            exact h _ hs
          · rename_i hp
            rw [if_neg hp] at hs
            cases he : enqueueToScheduler { s.sched with readyQueue := rq } s.pcbs p with
            | none => trivial
            | some sched =>
                simp only [he] at hs
                exact ih hs

/-! ## Nothing is refused -/

/-- An enqueue to level `i` adds one process to that level only. -/
theorem enqueueToScheduler_level {sched sched' : Scheduler} (h : sched.WF)
    (hpol : sched.policy = .preemptivePrio) {pcbs : PcbHeap} {p : PcbPtr} {i : Nat}
    (hi : Scheduler.levelOf (pcbs.get p).priority = some i)
    (he : enqueueToScheduler sched pcbs p = some sched') {j : Nat} {pq' : ProcessQueue}
    (hj : sched'.priorityQueues[j]? = some pq') :
    ∃ pq, sched.priorityQueues[j]? = some pq ∧ pq'.maxCapacity = pq.maxCapacity ∧
      pq'.currentSize = pq.currentSize + if i = j then 1 else 0 := by
  obtain ⟨i', pq, pq1, hi', hpq, henq, rfl⟩ := Scheduler.enqueue_levels hpol he
  obtain rfl := Option.some.inj (hi.symm.trans hi')
  rw [List.getElem?_set] at hj
  -- level `i` gains the process, the others keep their size
  by_cases hij : i = j
  · subst hij
    have hlt := (List.getElem?_eq_some_iff.mp hpq).1
    rw [if_pos rfl, if_pos hlt] at hj
    obtain rfl := Option.some.inj hj
    obtain ⟨_, _, _, hcap, hsize⟩ :=
      ProcessQueue.enqueueProcess_some (h.levels pq (List.mem_of_getElem? hpq)) henq
    exact ⟨pq, hpq, hcap, by rw [if_pos rfl]; exact hsize⟩
  · rw [if_neg hij] at hj
    exact ⟨pq', hj, rfl, by rw [if_neg hij]; rfl⟩

/-- Nothing was refused so far. -/
def NoneRefused (s : Sys) : Prop := droppedPids s.log = []

theorem levelOf_isSome {priority : Int}
    (h : minPriority ≤ priority ∧ priority ≤ maxPriority) :
    ∃ i, Scheduler.levelOf priority = some i ∧ i < numPriorityLevels := by
  refine ⟨(priority - minPriority).toNat, ?_, ?_⟩
  · rw [Scheduler.levelOf, if_neg (by omega)]
  · simp only [minPriority, maxPriority, numPriorityLevels] at *
    omega

/-- The state of a scan that fits: what is still to visit has room. -/
structure Fitting (pids : List Int) (s : Sys) (todo : List PcbPtr) (t : Sys) : Prop where
  placed : Placed pids t
  unvisited : Unvisited s todo t
  noneRefused : NoneRefused t
  room : ∀ (i : Nat) (pq : ProcessQueue), t.sched.priorityQueues[i]? = some pq →
    pq.currentSize + s.expiringAt i todo ≤ pq.maxCapacity

section
variable {pids : List Int} {s t : Sys} {todo : List PcbPtr} {p : PcbPtr}

theorem Fitting.room_rest (h : Fitting pids s (p :: todo) t) (l : Nat) (pq : ProcessQueue)
    (hpq : t.sched.priorityQueues[l]? = some pq) :
    pq.currentSize + s.expiringAt l todo ≤ pq.maxCapacity :=
  (Nat.add_le_add_left (List.sublist_cons_self p todo).countP_le _).trans (h.room l pq hpq)

/-- A process whose quantum expires was counted for its level. -/
theorem Fitting.counted (h : Fitting pids s (p :: todo) t)
    (hfin : (t.pcbs.get p).charge.finished = false)
    (hexp : quantumExpired t.sched (t.pcbs.get p).charge = true) {l : Nat}
    (hl : Scheduler.levelOf (t.pcbs.get p).priority = some l) (l' : Nat) :
    s.expiringAt l' (p :: todo) = s.expiringAt l' todo + if l = l' then 1 else 0 := by
  have hsame : t.pcbs.get p = s.pcbs.get p := h.unvisited.same p (List.mem_cons_self ..)
  have hexpires : s.Expires p := by
    rw [hsame] at hfin hexp
    rw [quantumExpired_congr h.unvisited.quantum h.unvisited.syncMode] at hexp
    exact ⟨hfin, hexp⟩
  unfold Sys.expiringAt
  rw [List.countP_cons, ← hsame, hl]
  simp [hexpires]

/-- Its level has room. -/
theorem Fitting.accepted (h : Fitting pids s (p :: todo) t) {l : Nat}
    (hl : Scheduler.levelOf (t.pcbs.get p).priority = some l) (hlt : l < numPriorityLevels)
    (hcount : s.expiringAt l (p :: todo) = s.expiringAt l todo + 1) {pcbs : PcbHeap}
    (hprio : (pcbs.get p).priority = (t.pcbs.get p).priority) :
    enqueueToScheduler t.sched pcbs p ≠ none := by
  intro hnone
  have hqueues := h.placed.conserved.queues
  have hlen : l < t.sched.priorityQueues.length := by
    rw [hqueues.numLevels h.placed.policy]
    exact hlt
  have hget := List.getElem?_eq_getElem hlen
  have hroom := h.room l _ hget
  rw [hcount] at hroom
  -- a refusal means a full level, against the room counted for it
  have hqueue : t.sched.queueFor? (pcbs.get p).priority = some t.sched.priorityQueues[l] := by
    rw [hprio, Scheduler.queueFor?_prio h.placed.policy, hl]
    exact hget
  obtain ⟨_, hsome⟩ := Scheduler.exists_enqueue hqueues hqueue (by omega)
  exact absurd (hsome.symm.trans hnone) (by simp)

theorem Fitting.scanThread (h : Fitting pids s (p :: todo) t) (hnd : pids.Nodup)
    (hc : t.machine.Compact) {i j k : Nat} {core : Core} {hw : HardwareThread}
    (hslot : t.machine.slot? i j k = some (core, hw, p)) :
    Fitting pids s todo (scanThread i j k t) := by
  have hplaced := h.placed.scanThread hnd hc hslot
  have hun := h.unvisited.scanThread hslot
  rcases scanThread_cases hslot with ⟨_, he⟩ | ⟨hfin, hexp, he⟩ | ⟨_, _, he⟩
  · rw [he] at hplaced hun ⊢
    refine ⟨hplaced, hun, ?_, h.room_rest⟩
    exact droppedPids_concat h.noneRefused rfl
  · obtain ⟨l, hl, hlt⟩ := levelOf_isSome (h.placed.inRange p
      (h.placed.conserved.live p (List.mem_append_left _ (Machine.mem_running_of_slot hc hslot))))
    have hcount := h.counted hfin hexp hl
    have hprio : (((t.charge p).pcbs.set p (expiredPcb (t.charge p) hw p)).get p).priority =
        (t.pcbs.get p).priority := by
      rw [PcbHeap.get_set_congr PCB.priority _ (expiredPcb_priority ..)]
      exact PcbHeap.get_set_congr PCB.priority t.pcbs
        (show (t.pcbs.get p).charge.priority = (t.pcbs.get p).priority from rfl) p
    rw [he] at hplaced hun ⊢
    rcases expireThread_cases (h.placed.charge p).conserved.queues i j k core hw p with
      ⟨sched, henq, _, _, _, hexp'⟩ | ⟨hnone, _⟩
    · rw [hexp'] at hplaced hun ⊢
      refine ⟨hplaced, hun, ?_, fun l' pq' hpq' => ?_⟩
      · exact droppedPids_concat h.noneRefused rfl
      · obtain ⟨pq, hpq, hcap, hsize⟩ := enqueueToScheduler_level h.placed.conserved.queues
          h.placed.policy (hprio.symm ▸ hl) henq hpq'
        have hroom := h.room l' pq hpq
        rw [hcount] at hroom
        omega
    · exact absurd hnone (h.accepted hl hlt (by rw [hcount, if_pos rfl]) hprio)
  · rw [he] at hplaced hun ⊢
    exact ⟨hplaced, hun, h.noneRefused, h.room_rest⟩

end

theorem Steady.scan_fits {pids : List Int} {s : Sys} (h : Steady pids s) (hnd : pids.Nodup)
    (hnone : NoneRefused s) (hfit : LevelsFit s) : NoneRefused (scanMachine s) := by
  have hinv := scanMachine_inv (Fitting pids s)
    (fun _ _ _ _ _ _ _ _ hct hslot ht => ht.scanThread hnd hct hslot) h.2
    ⟨h.1, .start (h.1.conserved.nodup_running hnd), hnone, fun i pq hpq => ?_⟩
  · exact hinv.1.noneRefused
  · have hperm : s.expiringAt i s.machine.scanOrder = s.expiringAt i s.running :=
      s.machine.scanOrder_perm.countP_eq _
    rw [hperm]
    exact hfit i pq hpq

/-- The transfer loop adds nothing to the log but a preemption. -/
theorem TransferInv.noneRefused {P : Sys → Prop} (h : TransferInv P) :
    TransferInv fun s => P s ∧ NoneRefused s where
  wf := fun s hs => h.wf s hs.1
  policy := fun s hs => h.policy s hs.1
  move := fun s p t u hs ht hu => by
    refine ⟨h.move s p t u hs.1 ht hu, ?_⟩
    have hlog : u.log = s.log := by rw [hu.eq, ht.eq]
    rw [NoneRefused, hlog]
    exact hs.2

/-- A preemption whose copy has room is no refusal. -/
theorem noneRefused_preempt {s t : Sys} {p : PcbPtr}
    (hpol : s.sched.policy = .preemptivePrio) (hnone : NoneRefused s) (ht : Taken s p t)
    (hfits : VictimFits t) : NoneRefused (preemptLowerPriorityProcesses t p) := by
  have hlog : NoneRefused t := by
    have : t.log = s.log := by rw [ht.eq]
    rw [NoneRefused, this]
    exact hnone
  rcases preempt_cases (ht.same.policy.trans hpol) p with
    ⟨_, he⟩ | ⟨_, i, j, k, core, _, _, hlow, he⟩
  · rwa [he]
  · rw [he]
    obtain ⟨pq, hpq, hroom⟩ := hfits.2
    rw [hlow] at hpq
    have hprio : ((t.pcbs.alloc (core.pcbs.getD k default).savedCopy).2.get t.pcbs.next).priority =
        (core.pcbs.getD k default).priority := by
      rw [PcbHeap.get_alloc_self]
      rfl
    obtain ⟨sched, hsome⟩ := Scheduler.exists_enqueue ht.wf (by rw [hprio]; exact hpq) hroom
    show droppedPids (t.log ++ [_]) = []
    rw [droppedPids_append, hlog, hsome]
    rfl

theorem noneRefused_dispatch {s : Sys} (hqueues : s.sched.WF) (hpol : s.sched.policy ≠ .bfs)
    (h : NoneRefused s) (n : Nat) : NoneRefused (dispatchReady n s) := by
  have hinv := dispatchReady_inv
    (P := fun s => s.sched.WF ∧ s.sched.policy ≠ .bfs ∧ NoneRefused s)
    (fun _ h => h.1) (fun _ h => h.2.1) ?_ n ⟨hqueues, hpol, h⟩
  · exact hinv.2.2
  · rintro s p sched i j core ⟨_, hpol, hnone⟩ _ _ hwf hsame _ _
    refine ⟨hwf, ?_, ?_⟩
    · show sched.policy ≠ .bfs
      rw [hsame.policy]
      exact hpol
    · exact droppedPids_concat hnone rfl

/-! ## Runs -/

/-- What a pass has to meet so that it loses nobody. -/
def PassFits (s : Sys) : Prop := LevelsFit s ∧ PassOk VictimFits s

instance (s : Sys) : Decidable (PassFits s) := by
  unfold PassFits
  infer_instance

theorem Steady.pass_fits {pids : List Int} {s : Sys} (h : Steady pids s) (hnd : pids.Nodup)
    (hnone : NoneRefused s) (hfits : PassFits s) :
    Steady pids (schedulerPass s) ∧ NoneRefused (schedulerPass s) := by
  refine ⟨h.pass hnd ⟨fun hquiet => (hfits.2.transfer hquiet).imp (fun _ hf => hf.1)⟩, ?_⟩
  have hscan := h.scan hnd
  have hscanned := h.scan_fits hnd hnone hfits.1
  have hprio : Policy.preemptivePrio ≠ .bfs := by decide
  rw [schedulerPass_prio hscan.1.policy]
  by_cases hcan : canCpuExecuteProcess (scanMachine s).machine = true
  · have hu := transferReady_free (steady_transfer pids).noneRefused
      (scanMachine s).sched.readyQueue.currentSize ⟨hscan, hscanned⟩ hcan
    exact noneRefused_dispatch hu.1.1.conserved.queues (by rw [hu.1.1.policy]; exact hprio) hu.2 _
  · have hu := transferReady_inv VictimFits (steady_transfer pids).noneRefused
      (unsettled_transfer pids).noneRefused (fun _ hu => hu.1.2.1.free) ?_
      (scanMachine s).sched.readyQueue.currentSize ⟨hscan, hscanned⟩
      (h.transferOk hnd VictimFits.congr hfits.2 hcan)
    · rcases hu with hu | hu
      · exact noneRefused_dispatch hu.1.1.conserved.queues
          (by rw [hu.1.1.policy]; exact hprio) hu.2 _
      · exact noneRefused_dispatch hu.1.1.conserved.queues
          (by rw [hu.1.1.policy]; exact hprio) hu.2 _
    · rintro s p t ⟨hs, hnone⟩ htaken hpre hok
      obtain ⟨hwf, hpol, hroom, hfile⟩ := hs.preempt htaken hpre hok.1
      refine ⟨hwf, hpol, hroom, fun u hu => ⟨hfile u hu, ?_⟩⟩
      have hlog : u.log = (preemptLowerPriorityProcesses t p).log := by rw [hu.eq]
      rw [NoneRefused, hlog]
      exact noneRefused_preempt hs.1.policy hnone htaken hok

theorem tickThread_noneRefused {s : Sys} (h : NoneRefused s) (i j k : Nat) :
    NoneRefused (tickThread i j k s) := by
  rcases tickThread_cases i j k s with
    ⟨_, he⟩ | ⟨core, hw, p, _, _, he⟩ | ⟨core, hw, p, pm, base, hslot, _, _, _, he⟩
  · rwa [he]
  · rw [he]
    exact h
  · rw [he]
    show droppedPids (executeInstruction _ _ _).log = []
    rw [executeInstruction_log]
    exact droppedPids_concat h rfl

theorem clockTick_noneRefused {s : Sys} (h : NoneRefused s) : NoneRefused (clockTick s) := by
  refine clockTick_inv NoneRefused ?_ fun i j k t ht => tickThread_noneRefused ht i j k
  exact droppedPids_concat h rfl

/-- The event reports an enqueue that failed unnoticed. -/
def Event.refused : Event → Bool
  | .expired _ _ enqueued => !enqueued
  | .putBack _ _ enqueued => !enqueued
  | .preempted _ _ _ enqueued => !enqueued
  | _ => false

/-- No unchecked enqueue failed, and every process is on a hardware thread,
in a queue, or completed. -/
structure NothingLost (pcbs : List PCB) (s : Sys) : Prop where
  accepted : ∀ e ∈ s.log, e.refused = false
  present : ((s.sched.waiting ++ s.machine.busy).map s.pid ++ completedPids s.log).Perm
    (pcbs.map PCB.pid)

theorem NoneRefused.accepted {s : Sys} (h : NoneRefused s) : ∀ e ∈ s.log, e.refused = false := by
  intro e he
  by_contra hr
  rw [Bool.not_eq_false] at hr
  have hne : droppedPids s.log ≠ [] := by
    cases e with
    | expired p pid b =>
        have hb : b = false := by simpa [Event.refused] using hr
        subst hb
        exact List.ne_nil_of_mem (List.mem_filterMap.mpr ⟨_, he, rfl⟩)
    | putBack p pid b =>
        have hb : b = false := by simpa [Event.refused] using hr
        subst hb
        exact List.ne_nil_of_mem (List.mem_filterMap.mpr ⟨_, he, rfl⟩)
    | preempted p pid q b =>
        have hb : b = false := by simpa [Event.refused] using hr
        subst hb
        exact List.ne_nil_of_mem (List.mem_filterMap.mpr ⟨_, he, rfl⟩)
    | tick | exec | completed | assigned => simp [Event.refused] at hr
  exact hne h

/-- No process is lost in a run whose passes all find room for what they put
back. -/
theorem priority_nothingLost {cfg : Config} {pcbs : List PCB} (hsetup : PrioritySetup cfg pcbs)
    {s : Sys} (hs : ((sysRuns cfg pcbs).restrict fun s a =>
      a = .pass → PassFits s).Reachable s) : NothingLost pcbs s := by
  obtain ⟨hsteady, hnone⟩ : Steady (pcbs.map PCB.pid) s ∧ NoneRefused s := by
    refine hs.invariant (fun s => Steady (pcbs.map PCB.pid) s ∧ NoneRefused s) ?_ ?_
    · intro s hb
      have hbooted := boot_spec hb
      refine ⟨hsetup.steady hbooted, ?_⟩
      rw [NoneRefused, hbooted.log]
      rfl
    · rintro s a t ⟨h, hnone⟩ ⟨hok, rfl⟩
      cases a with
      | tick => exact ⟨h.tick, clockTick_noneRefused hnone⟩
      | pass => exact h.pass_fits hsetup.distinct hnone (hok rfl)
  refine ⟨hnone.accepted, ?_⟩
  have hacc := hsteady.1.conserved.account
  rw [endedPids, hnone, List.append_nil] at hacc
  rw [hsteady.2.busy_eq]
  exact ((List.perm_append_comm.map s.pid).append_right _).trans hacc

/-- With two processes of one priority on one thread, the level has room for
the one whose quantum is used up. -/
theorem priority_nothingLost_requeued : ∃ s,
    ((sysRuns (oneCore 1 .preemptivePrio 1) [loadedPcb 1 10, loadedPcb 2 10]).restrict fun s a =>
      a = .pass → PassFits s).Reachable s ∧
    Event.expired 0 1 true ∈ s.log ∧ NothingLost [loadedPcb 1 10, loadedPcb 2 10] s := by
  obtain ⟨s, hs⟩ : ∃ s, boot (oneCore 1 .preemptivePrio 1)
      [loadedPcb 1 10, loadedPcb 2 10] = some s := ⟨_, rfl⟩
  have hfirst : Action.pass = .pass → PassFits s := by
    intro _
    obtain rfl := Option.some.inj hs
    decide +kernel
  have hsecond : Action.pass = .pass → PassFits ((s.next .pass).next .tick) := by
    intro _
    obtain rfl := Option.some.inj hs
    decide +kernel
  have hstart : ((sysRuns (oneCore 1 .preemptivePrio 1)
      [loadedPcb 1 10, loadedPcb 2 10]).restrict fun s a =>
        a = .pass → PassFits s).Reachable s := .init hs
  have htick := restricted_next (restricted_next hstart .pass hfirst) .tick
    fun h => absurd h (by decide)
  have hreach := restricted_next htick .pass hsecond
  have hsetup : PrioritySetup (oneCore 1 .preemptivePrio 1) [loadedPcb 1 10, loadedPcb 2 10] :=
    oneCore_setup 1 1 (by decide) (by decide)
  refine ⟨_, hreach, ?_, priority_nothingLost hsetup hreach⟩
  obtain rfl := Option.some.inj hs
  decide +kernel

/-! ## A full level -/

/-- Four processes of one priority, of which a level holds two. -/
def fullLevel : List PCB :=
  [loadedPcb 1 10, loadedPcb 2 10, loadedPcb 3 10, loadedPcb 4 10]

theorem fullLevel_setup : PrioritySetup (oneCore 2 .preemptivePrio 2) fullLevel :=
  oneCore_setup 2 2 (by decide) (by decide)

/-- In the third pass both quanta are used up and the level is full: the
second process is on no queue and on no thread any more. -/
theorem priority_loses : ¬ ∀ (cfg : Config) (pcbs : List PCB) (s : Sys),
    PrioritySetup cfg pcbs → (sysRuns cfg pcbs).Reachable s → NothingLost pcbs s := by
  intro hall
  obtain ⟨s, hs⟩ : ∃ s, boot (oneCore 2 .preemptivePrio 2) fullLevel = some s := ⟨_, rfl⟩
  have hstart : (sysRuns (oneCore 2 .preemptivePrio 2) fullLevel).Reachable s := .init hs
  have htwo := reachable_next (reachable_next (reachable_next hstart .pass) .tick) .pass
  have hreach := reachable_next (reachable_next htwo .tick) .pass
  have hacc := (hall _ _ _ fullLevel_setup hreach).accepted
  obtain rfl := Option.some.inj hs
  have hlost := hacc (.expired 1 2 false) (by decide +kernel)
  cases hlost

end LocOS
