import LocOS.Conservation
import LocOS.FreeSlots
import LocOS.Priority
import LocOS.Selection

/-!
# Dispatch

The guard of the dispatch loop, the selection and the assignment are three
scans of their own. In every state whose queues are well formed and whose
counts are in range they agree: what the guard sees the selection finds and
the assignment places. The two branches for a failure are never taken, and the
loop places as many processes as there are both processes ready and slots
free, on the free slots in CPU, core and thread order.
-/

namespace LocOS

open scoped List

/-! ## The ready processes -/

namespace Scheduler

/-- The processes in the queues the policy selects from. -/
def ready (sched : Scheduler) : List PcbPtr :=
  match sched.policy with
  | .preemptivePrio => sched.priorityQueues.flatMap ProcessQueue.toList
  | _ => sched.readyQueue.toList

theorem ready_prio {sched : Scheduler} (hpol : sched.policy = .preemptivePrio) :
    sched.ready = sched.priorityQueues.flatMap ProcessQueue.toList := by
  simp only [ready, hpol]

theorem ready_single {sched : Scheduler} (hpol : sched.policy ≠ .preemptivePrio) :
    sched.ready = sched.readyQueue.toList := by
  unfold ready
  cases hp : sched.policy with
  | preemptivePrio => exact absurd hp hpol
  | roundRobin => rfl
  | bfs => rfl

theorem ready_setReady {sched : Scheduler} (hpol : sched.policy ≠ .preemptivePrio)
    (rq : ProcessQueue) : ({ sched with readyQueue := rq } : Scheduler).ready = rq.toList :=
  ready_single hpol

theorem length_ready_le (sched : Scheduler) : sched.ready.length ≤ sched.waitingCount := by
  rw [waitingCount_eq, waiting, List.length_append]
  by_cases hpol : sched.policy = .preemptivePrio
  · rw [ready_prio hpol]
    exact Nat.le_add_left ..
  · rw [ready_single hpol]
    exact Nat.le_add_right ..

theorem hasReadyProcesses_ready (sched : Scheduler) :
    hasReadyProcesses sched = true ↔ sched.ready ≠ [] := by
  rw [hasReadyProcesses_iff]
  split
  · rename_i hpol
    simp only [ready_prio hpol, ne_eq, List.flatMap_eq_nil_iff, not_forall, exists_prop,
      ← List.length_pos_iff, ProcessQueue.length_toList]
  · rename_i hpol
    rw [ready_single hpol, ← List.length_pos_iff, ProcessQueue.length_toList]

/-- A selection writes the queues of its policy only. -/
theorem selectNextProcess_others {sched sched' : Scheduler} {pcbs : PcbHeap} {p : PcbPtr}
    (he : selectNextProcess sched pcbs = some (p, sched')) :
    if sched.policy = .preemptivePrio then sched'.readyQueue = sched.readyQueue
    else sched'.priorityQueues = sched.priorityQueues := by
  unfold selectNextProcess at he
  split at he
  · rename_i hpol
    obtain ⟨_, _, he⟩ := Option.map_eq_some_iff.mp he
    obtain ⟨_, rfl⟩ := Prod.mk.inj he
    rw [hpol]
    exact rfl
  · rename_i hpol
    split at he
    · cases he
    · dsimp only at he
      split at he
      · cases he
      · obtain ⟨_, rfl⟩ := Prod.mk.inj (Option.some.inj he)
        rw [hpol]
        exact rfl
  · rename_i hpol
    obtain ⟨_, _, he⟩ := Option.bind_eq_some_iff.mp he
    obtain ⟨_, _, he⟩ := Option.bind_eq_some_iff.mp he
    obtain ⟨_, _, he⟩ := Option.map_eq_some_iff.mp he
    obtain ⟨_, rfl⟩ := Prod.mk.inj he
    rw [hpol]
    exact rfl

/-- What a selection takes from the ready processes, under every policy. -/
structure Takes (sched sched' : Scheduler) (p : PcbPtr) : Prop where
  queues : sched'.WF
  config : SameConfig sched sched'
  taken : p ∈ sched.ready
  left : sched'.ready ⊆ sched.ready
  length : sched'.ready.length + 1 = sched.ready.length

theorem Takes.of_perm {sched sched' : Scheduler} {p : PcbPtr} (hwf : sched'.WF)
    (hsame : SameConfig sched sched') (hperm : sched.ready ~ p :: sched'.ready) :
    Takes sched sched' p where
  queues := hwf
  config := hsame
  taken := hperm.mem_iff.mpr (List.mem_cons_self ..)
  left := fun _ hq => hperm.mem_iff.mpr (List.mem_cons_of_mem p hq)
  length := hperm.length_eq.symm

/-- Whatever the shifts of a removal move, it is a process of the queue. -/
theorem bfsRemove_subset {pq : ProcessQueue} (h : pq.WF) {i : Nat} (hi : i < pq.currentSize) :
    (bfsRemove pq (pq.slotAt i)).toList ⊆ pq.toList := by
  intro q hq
  rw [ProcessQueue.toList_eq] at hq
  obtain ⟨j, hj, rfl⟩ := List.mem_map.mp hq
  have hj : j < pq.currentSize - 1 := List.mem_range.mp hj
  rw [show (bfsRemove pq (pq.slotAt i)).slotAt j = pq.slotAt j from rfl,
    ProcessQueue.bfsRemove_slot h hi hj, ProcessQueue.toList_eq]
  refine List.mem_map_of_mem (List.mem_range.mpr ?_)
  split
  · split <;> omega
  · omega

/-- What the guard sees, the selection finds. -/
theorem selectNextProcess_ready {sched : Scheduler} (h : sched.WF) (pcbs : PcbHeap)
    (hready : hasReadyProcesses sched = true) :
    ∃ p sched', selectNextProcess sched pcbs = some (p, sched') ∧ Takes sched sched' p := by
  by_cases hpol : sched.policy = .bfs
  · obtain ⟨i, hi, _, hsel, _⟩ := selectNextProcess_position h hpol pcbs hready
    have hsingle : sched.policy ≠ .preemptivePrio := by
      rw [hpol]
      decide
    have hpos := Nat.zero_lt_of_lt hi
    refine ⟨_, _, hsel, h.setReady (ProcessQueue.bfsRemove_wf h.ready hpos _),
      selectNextProcess_same hsel, ?_, ?_, ?_⟩
    · rw [ready_single hsingle, ProcessQueue.toList_eq]
      exact List.mem_map_of_mem (List.mem_range.mpr hi)
    · rw [ready_setReady hsingle, ready_single hsingle]
      exact bfsRemove_subset h.ready hi
    · rw [ready_setReady hsingle, ready_single hsingle, ProcessQueue.length_toList,
        ProcessQueue.length_toList]
      exact Nat.sub_add_cancel hpos
  · obtain ⟨p, sched', hsel, hwf, hsame, hperm⟩ := selectNextProcess_cases h hpol pcbs hready
    refine ⟨p, sched', hsel, .of_perm hwf hsame ?_⟩
    have hothers := selectNextProcess_others hsel
    rw [waiting, waiting] at hperm
    by_cases hprio : sched.policy = .preemptivePrio
    · rw [if_pos hprio] at hothers
      rw [ready_prio hprio, ready_prio (hsame.policy.trans hprio)]
      rw [hothers] at hperm
      exact (List.perm_append_left_iff _).mp (hperm.trans List.perm_middle.symm)
    · rw [if_neg hprio] at hothers
      rw [ready_single hprio, ready_single (hsame.policy ▸ hprio)]
      rw [hothers] at hperm
      exact (List.perm_append_right_iff _).mp hperm

end Scheduler

/-! ## The loop -/

/-- A context switch reads the saved context and the memory fields only. -/
theorem HardwareThread.load_congr (hw : HardwareThread) (p : PcbPtr) {pcb pcb' : PCB}
    (hcontext : pcb.context = pcb'.context) (hmm : pcb.mm = pcb'.mm) :
    hw.load p pcb = hw.load p pcb' := by
  have hpc : (hw.load p pcb).pc = (hw.load p pcb').pc := by
    rw [load_pc, load_pc, hcontext]
  unfold load at hpc ⊢
  dsimp only at hpc ⊢
  rw [hpc, hcontext, hmm]

namespace Sys

/-- The loop guard. -/
def dispatchGuard (s : Sys) : Bool :=
  hasReadyProcesses s.sched && canCpuExecuteProcess s.machine

/-- As many as there are both processes ready and slots free. -/
def dispatchCount (s : Sys) : Nat := min s.sched.ready.length s.machine.freeSlots.length

theorem dispatchGuard_iff {s : Sys} (h : s.machine.Bounded) :
    s.dispatchGuard = true ↔ 0 < s.dispatchCount := by
  rw [dispatchGuard, Bool.and_eq_true, Scheduler.hasReadyProcesses_ready,
    Machine.canCpuExecuteProcess_freeSlots h, dispatchCount, Nat.lt_min, List.length_pos_iff,
    List.length_pos_iff]

/-- `t` is `s` after the dispatches `moves`, each a process and the slot it
got: the processes come from the queues, the slots are the first free ones in
order, and no other hardware thread is written. -/
structure DispatchedTo (s t : Sys) (moves : List (PcbPtr × Slot)) : Prop where
  queues : t.sched.WF
  bounded : t.machine.Bounded
  config : Scheduler.SameConfig s.sched t.sched
  taken : ∀ move ∈ moves, move.1 ∈ s.sched.ready
  left : t.sched.ready ⊆ s.sched.ready
  length : t.sched.ready.length + moves.length = s.sched.ready.length
  slots : s.machine.freeSlots = moves.map Prod.snd ++ t.machine.freeSlots
  loaded : ∀ move ∈ moves, ∃ hw, s.machine.thread? move.2 = some hw ∧
    t.machine.thread? move.2 = some (hw.load move.1 (s.pcbs.get move.1))
  kept : ∀ slot, slot ∉ moves.map Prod.snd → t.machine.thread? slot = s.machine.thread? slot
  pid : ∀ p, t.pid p = s.pid p
  context : ∀ p, (t.pcbs.get p).context = (s.pcbs.get p).context
  mm : ∀ p, (t.pcbs.get p).mm = (s.pcbs.get p).mm
  log : t.log = s.log ++ moves.map fun move => Event.assigned move.1 (s.pid move.1)

namespace DispatchedTo

variable {s t u : Sys} {moves more : List (PcbPtr × Slot)}

theorem refl (hqueues : s.sched.WF) (hbounded : s.machine.Bounded) : s.DispatchedTo s [] where
  queues := hqueues
  bounded := hbounded
  config := .refl _
  taken := fun _ hmove => by cases hmove
  left := List.Subset.refl _
  length := rfl
  slots := rfl
  loaded := fun _ hmove => by cases hmove
  kept := fun _ _ => rfl
  pid := fun _ => rfl
  context := fun _ => rfl
  mm := fun _ => rfl
  log := (List.append_nil _).symm

theorem trans (h : s.DispatchedTo t moves) (h' : t.DispatchedTo u more) :
    s.DispatchedTo u (moves ++ more) where
  queues := h'.queues
  bounded := h'.bounded
  config := h.config.trans h'.config
  taken := by
    intro move hmove
    rcases List.mem_append.mp hmove with hmove | hmove
    · exact h.taken move hmove
    · exact h.left (h'.taken move hmove)
  left := List.Subset.trans h'.left h.left
  length := by
    have hlen := h.length
    have hlen' := h'.length
    rw [List.length_append]
    omega
  slots := by
    rw [h.slots, h'.slots, List.map_append, List.append_assoc]
  loaded := by
    intro move hmove
    -- the slots of the two stretches are different ones
    have hnd := s.machine.nodup_freeSlots
    rw [h.slots, h'.slots] at hnd
    have hdisjoint := List.disjoint_of_nodup_append hnd
    rcases List.mem_append.mp hmove with hmove | hmove
    · obtain ⟨hw, hold, hnew⟩ := h.loaded move hmove
      have hout : move.2 ∉ more.map Prod.snd := fun hin =>
        hdisjoint (List.mem_map_of_mem hmove) (List.mem_append_left _ hin)
      exact ⟨hw, hold, (h'.kept _ hout).trans hnew⟩
    · obtain ⟨hw, hold, hnew⟩ := h'.loaded move hmove
      have hout : move.2 ∉ moves.map Prod.snd := fun hin =>
        hdisjoint hin (List.mem_append_left _ (List.mem_map_of_mem hmove))
      refine ⟨hw, (h.kept _ hout).symm.trans hold, ?_⟩
      rw [hnew, hw.load_congr move.1 (h.context _) (h.mm _)]
  kept := by
    intro slot hout
    rw [List.map_append, List.mem_append, not_or] at hout
    exact (h'.kept slot hout.2).trans (h.kept slot hout.1)
  pid := fun p => (h'.pid p).trans (h.pid p)
  context := fun p => (h'.context p).trans (h.context p)
  mm := fun p => (h'.mm p).trans (h.mm p)
  log := by
    have hpids : (fun move : PcbPtr × Slot => Event.assigned move.1 (t.pid move.1)) =
        fun move => Event.assigned move.1 (s.pid move.1) := by
      funext move
      rw [h.pid]
    rw [h'.log, h.log, hpids, List.map_append, List.append_assoc]

/-- Each dispatch is one ready process and one free slot less. -/
theorem dispatchCount_add (h : s.DispatchedTo t moves) :
    t.dispatchCount + moves.length = s.dispatchCount := by
  have hready := h.length
  have hslots := congrArg List.length h.slots
  rw [List.length_append, List.length_map] at hslots
  unfold dispatchCount
  omega

end DispatchedTo

/-- One dispatch, on the first free slot. -/
theorem dispatchedTo_dispatched {s : Sys} (hbounded : s.machine.Bounded) {p : PcbPtr}
    {sched : Scheduler} (htakes : Scheduler.Takes s.sched sched p) {i j : Nat} {core : Core}
    (hcore : s.machine.core? i j = some core) (hspace : core.hasSpace = true)
    (hslots : s.machine.freeSlots = (i, j, core.currentPcbCount.toNat) ::
      (s.dispatched sched p i j core).machine.freeSlots) :
    s.DispatchedTo (s.dispatched sched p i j core) [(p, i, j, core.currentPcbCount.toNat)] where
  queues := htakes.queues
  bounded := hbounded.assign hcore hspace p _
  config := htakes.config
  taken := by
    intro move hmove
    rw [List.mem_singleton.mp hmove]
    exact htakes.taken
  left := htakes.left
  length := htakes.length
  slots := hslots
  loaded := by
    intro move hmove
    obtain rfl := List.mem_singleton.mp hmove
    have hcount := (hbounded core (Machine.mem_cores_of_core? hcore)).1
    obtain ⟨hw, hhw⟩ := Core.exists_freeThread hcount hspace
    have hthread : s.machine.thread? (i, j, core.currentPcbCount.toNat) = some hw := by
      rw [Machine.thread?, hcore]
      exact hhw
    refine ⟨hw, hthread, ?_⟩
    show (s.machine.setCore i j _).thread? _ = _
    rw [Machine.thread?_assign_self hcore, hthread, Option.map_some]
    refine congrArg some (hw.load_congr p ?_ ?_)
    · exact s.pcbs.get_set_congr PCB.context (PCB.start_context ..) p
    · exact s.pcbs.get_set_congr PCB.mm (PCB.start_mm ..) p
  kept := by
    intro slot hout
    exact Machine.thread?_assign_ne hcore p _ fun he => hout (he ▸ List.mem_singleton_self _)
  pid := s.pcbs.get_set_congr PCB.pid (PCB.start_pid ..)
  context := s.pcbs.get_set_congr PCB.context (PCB.start_context ..)
  mm := s.pcbs.get_set_congr PCB.mm (PCB.start_mm ..)
  log := rfl

/-- What the guard sees, the selection finds and the assignment places. -/
theorem dispatch_found {s : Sys} (hqueues : s.sched.WF) (hbounded : s.machine.Bounded)
    (hguard : s.dispatchGuard = true) :
    ∃ p sched i j core, selectNextProcess s.sched s.pcbs = some (p, sched) ∧
      assignProcessToCore s.machine (s.started sched p) p =
        some (s.machine.setCore i j (core.assign p ((s.started sched p).get p))) ∧
      s.DispatchedTo (s.dispatched sched p i j core)
        [(p, i, j, core.currentPcbCount.toNat)] := by
  obtain ⟨hready, hcan⟩ := Bool.and_eq_true_iff.mp hguard
  obtain ⟨p, sched, hsel, htakes⟩ := Scheduler.selectNextProcess_ready hqueues s.pcbs hready
  obtain ⟨i, j, core, hcore, hspace, hassign, hslots⟩ :=
    Machine.assignProcessToCore_first hbounded hcan (s.started sched p) p
  exact ⟨p, sched, i, j, core, hsel, hassign,
    dispatchedTo_dispatched hbounded htakes hcore hspace hslots⟩

/-- One iteration: the loop is at its end, or it dispatches. -/
theorem dispatchReady_step {s : Sys} (hqueues : s.sched.WF) (hbounded : s.machine.Bounded) :
    (s.dispatchCount = 0 ∧ ∀ n, dispatchReady n s = s) ∨
    ∃ t move, s.DispatchedTo t [move] ∧ ∀ n, dispatchReady (n + 1) s = dispatchReady n t := by
  cases hguard : s.dispatchGuard with
  | false =>
      left
      refine ⟨?_, fun n => ?_⟩
      · have hstop := mt (dispatchGuard_iff hbounded).mpr (Bool.eq_false_iff.mp hguard)
        omega
      · cases n with
        | zero => rfl
        | succ n =>
            rw [dispatchGuard] at hguard
            simp [dispatchReady, hguard]
  | true =>
      right
      obtain ⟨p, sched, i, j, core, hsel, hassign, hmove⟩ :=
        dispatch_found hqueues hbounded hguard
      obtain ⟨hready, hcan⟩ := Bool.and_eq_true_iff.mp hguard
      exact ⟨_, _, hmove, dispatchReady_assigned hready hcan hsel hassign⟩

/-- The loop dispatches until it has made as many dispatches as it can. -/
theorem dispatchReady_run {s : Sys} (hqueues : s.sched.WF) (hbounded : s.machine.Bounded)
    (n : Nat) : ∃ moves, moves.length = min n s.dispatchCount ∧
      s.DispatchedTo (dispatchReady n s) moves := by
  induction n generalizing s with
  | zero => exact ⟨[], (Nat.zero_min _).symm, .refl hqueues hbounded⟩
  | succ n ih =>
      rcases dispatchReady_step hqueues hbounded with ⟨hzero, hstop⟩ | ⟨t, move, hmove, hnext⟩
      · rw [hstop, hzero]
        exact ⟨[], rfl, .refl hqueues hbounded⟩
      · obtain ⟨moves, hlength, hmoves⟩ := ih hmove.queues hmove.bounded
        rw [hnext]
        refine ⟨move :: moves, ?_, hmove.trans hmoves⟩
        have hcount := hmove.dispatchCount_add
        rw [List.length_singleton] at hcount
        rw [List.length_cons, hlength]
        omega

theorem dispatchReady_add {s : Sys} (hqueues : s.sched.WF) (hbounded : s.machine.Bounded)
    (m n : Nat) : dispatchReady (m + n) s = dispatchReady n (dispatchReady m s) := by
  induction m generalizing s with
  | zero => rw [Nat.zero_add, dispatchReady]
  | succ m ih =>
      rcases dispatchReady_step hqueues hbounded with ⟨_, hstop⟩ | ⟨t, move, hmove, hnext⟩
      · rw [hstop, hstop, hstop]
      · rw [Nat.add_right_comm, hnext, hnext, ih hmove.queues hmove.bounded]

/-- The iterations left after `n`. -/
theorem dispatchCount_dispatchReady {s : Sys} (hqueues : s.sched.WF)
    (hbounded : s.machine.Bounded) (n : Nat) :
    (dispatchReady n s).dispatchCount = s.dispatchCount - n := by
  obtain ⟨moves, hlength, hmoves⟩ := dispatchReady_run hqueues hbounded n
  have hcount := hmoves.dispatchCount_add
  omega

/-- A counted slot is not one of the free ones. -/
theorem DispatchedTo.counted {s t : Sys} {moves : List (PcbPtr × Slot)}
    (h : s.DispatchedTo t moves) {i j k : Nat} {core : Core}
    (hcore : s.machine.core? i j = some core) (hk : (k : Int) < core.currentPcbCount) :
    t.machine.thread? (i, j, k) = s.machine.thread? (i, j, k) := by
  refine h.kept _ fun hmem => ?_
  have hfree : (i, j, k) ∈ s.machine.freeSlots := by
    rw [h.slots]
    exact List.mem_append_left _ hmem
  obtain ⟨core', hcore', hin⟩ := Machine.mem_freeSlots.mp hfree
  obtain rfl := Option.some.inj (hcore.symm.trans hcore')
  have hle := (List.mem_range'_1.mp hin).1
  omega

end Sys

/-- In every state with well formed queues and counts in range: whenever the
guard of the dispatch loop holds, the selection returns a process and the
assignment succeeds. After `n` iterations the loop has made `n` dispatches, or
as many as there are both processes ready and slots free; they fill the free
slots in CPU, core and thread order and write no other hardware thread. There
it ends, within the bound a pass gives it. -/
theorem dispatchReady_complete {s : Sys} (hqueues : s.sched.WF) (hbounded : s.machine.Bounded) :
    s.dispatchCount = min s.sched.ready.length (s.machine.cores.map fun core =>
      core.numKernelThreads - core.currentPcbCount.toNat).sum ∧
    (∀ n, (dispatchReady n s).dispatchGuard = true ↔ n < s.dispatchCount) ∧
    (∀ n, n < s.dispatchCount → ∃ p sched machine,
      selectNextProcess (dispatchReady n s).sched (dispatchReady n s).pcbs = some (p, sched) ∧
      assignProcessToCore (dispatchReady n s).machine ((dispatchReady n s).started sched p) p =
        some machine) ∧
    (∀ n, ∃ moves, moves.length = min n s.dispatchCount ∧
      s.DispatchedTo (dispatchReady n s) moves) ∧
    (∀ n, s.dispatchCount ≤ n → dispatchReady n s = dispatchReady s.dispatchCount s) ∧
    s.dispatchCount ≤ s.sched.waitingCount ∧
    ∀ (n i j k : Nat) (core : Core), s.machine.core? i j = some core →
      (k : Int) < core.currentPcbCount →
      (dispatchReady n s).machine.thread? (i, j, k) = s.machine.thread? (i, j, k) := by
  have hrun := Sys.dispatchReady_run hqueues hbounded
  have hguard : ∀ n, (dispatchReady n s).dispatchGuard = true ↔ n < s.dispatchCount := by
    intro n
    obtain ⟨moves, _, hmoves⟩ := hrun n
    rw [Sys.dispatchGuard_iff hmoves.bounded, Sys.dispatchCount_dispatchReady hqueues hbounded]
    omega
  refine ⟨?_, hguard, fun n hn => ?_, hrun, fun n hn => ?_, ?_,
    fun n i j k core hcore hk => ?_⟩
  · rw [Sys.dispatchCount, Machine.length_freeSlots]
  · obtain ⟨moves, _, hmoves⟩ := hrun n
    obtain ⟨p, sched, _, _, _, hsel, hassign, _⟩ :=
      Sys.dispatch_found hmoves.queues hmoves.bounded ((hguard n).mpr hn)
    exact ⟨p, sched, _, hsel, hassign⟩
  · obtain ⟨moves, _, hmoves⟩ := hrun s.dispatchCount
    have hend := Sys.dispatchCount_dispatchReady hqueues hbounded s.dispatchCount
    obtain ⟨k, rfl⟩ := Nat.exists_eq_add_of_le hn
    rw [Sys.dispatchReady_add hqueues hbounded]
    rcases Sys.dispatchReady_step hmoves.queues hmoves.bounded with
      ⟨_, hstop⟩ | ⟨t, move, hmove, _⟩
    · exact hstop k
    -- a dispatch more than there can be
    · have hmore := hmove.dispatchCount_add
      rw [List.length_singleton] at hmore
      omega
  · exact Nat.le_trans (Nat.min_le_left ..) s.sched.length_ready_le
  · obtain ⟨moves, _, hmoves⟩ := hrun n
    exact hmoves.counted hcore hk

/-- Three processes under BFS, one slot of a core with two threads occupied,
and a core with one. -/
def threeReady : Sys where
  clkCounter := 0
  clockPmRef := none
  machine := { cpus := [{ cores := [(createCore 2).assign 3 (loadedPcb 4 0), createCore 1] }] }
  sched := threeQueued 4
  pcbs := bootHeap [loadedPcb 1 0, loadedPcb 2 0, loadedPcb 3 0, loadedPcb 4 0]
  log := []

theorem threeReady_complete :
    (dispatchReady 3 threeReady).dispatchGuard = false ∧
      (∃ moves, moves.length = 2 ∧ moves.map Prod.snd = [(0, 0, 1), (0, 1, 0)] ∧
        threeReady.DispatchedTo (dispatchReady 3 threeReady) moves) ∧
      (dispatchReady 3 threeReady).machine.thread? (0, 0, 0) =
        threeReady.machine.thread? (0, 0, 0) := by
  have hready := (Scheduler.wf_of_readyRuns (by decide)
    (threeQueued_reachable 4 (by decide))).1
  have hqueues : threeReady.sched.WF :=
    { ready := hready
      levels := fun pq hpq => by cases hpq
      numLevels := fun hpol => by cases hpol }
  have hbounded : threeReady.machine.Bounded := by
    unfold Machine.Bounded
    decide
  have hcount : threeReady.dispatchCount = 2 := by decide
  have hfree : threeReady.machine.freeSlots = [(0, 0, 1), (0, 1, 0)] := by decide
  obtain ⟨_, hguard, _, hrun, _, _, hcounted⟩ := dispatchReady_complete hqueues hbounded
  obtain ⟨moves, hlength, hmoves⟩ := hrun 3
  have hstop := mt (hguard 3).mp (by rw [hcount]; decide)
  rw [hcount] at hlength
  refine ⟨Bool.eq_false_iff.mpr hstop, ⟨moves, hlength, ?_, hmoves⟩,
    hcounted 3 0 0 0 _ rfl (by decide)⟩
  -- both free slots are used, so none is left
  have hslots := hmoves.slots
  rw [hfree] at hslots
  have hlen := congrArg List.length hslots
  rw [List.length_append, List.length_map, hlength] at hlen
  have hnone : (dispatchReady 3 threeReady).machine.freeSlots = [] := by
    rw [← List.length_eq_zero_iff]
    simpa using hlen
  rw [hnone, List.append_nil] at hslots
  exact hslots.symm

/-- A thread beyond the count that a preemption has left occupied is not
spared: the second pass of this run finds slots 0 and 1 in use, preempts the
process of slot 0, which takes slot 1 out of the count, and dispatches to
slot 1. -/
theorem dispatchReady_overwrites : ∃ s t,
    (sysRuns (oneCore 2 .preemptivePrio 5) crowdedLevel).Reachable s ∧
      t = transferReady (scanMachine s).sched.readyQueue.currentSize (scanMachine s) ∧
      schedulerPass s = dispatchReady t.sched.waitingCount t ∧
      t.sched.WF ∧ t.machine.Bounded ∧
      (∀ level ∈ t.sched.priorityQueues.zipIdx, ∀ p ∈ level.1.toList,
        Scheduler.levelOf (t.pcbs.get p).priority = some level.2) ∧
      (t.machine.thread? (0, 0, 1)).map HardwareThread.pcb = some (some 1) ∧
      ((dispatchReady 1 t).machine.thread? (0, 0, 1)).map HardwareThread.pcb = some (some 3) := by
  obtain ⟨s, hs⟩ : ∃ s, boot (oneCore 2 .preemptivePrio 5) crowdedLevel = some s := ⟨_, rfl⟩
  have hstart : (sysRuns (oneCore 2 .preemptivePrio 5) crowdedLevel).Reachable s := .init hs
  have hreach := reachable_next (reachable_next hstart .pass) .tick
  refine ⟨_, _, hreach, rfl, schedulerPass_prio ?_, ?_⟩
  · obtain rfl := Option.some.inj hs
    decide +kernel
  · obtain rfl := Option.some.inj hs
    unfold Machine.Bounded
    decide +kernel

end LocOS
