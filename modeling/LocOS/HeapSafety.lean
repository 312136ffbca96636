import LocOS.Lib.Objects
import LocOS.RoundRobin
import LocOS.WorkConserving

/-!
# HeapSafety

No PCB is used after it was destroyed, and none is destroyed twice, although
hardware threads, queues and the scheduler itself hold pointers to it. Each
PCB is held once: by a thread, counted or stale, by a queue, or by the code
that moves it. A full queue and a preemption lose PCBs, but lose them for
everybody.
-/

namespace LocOS

open scoped List

/-! ## Who holds a PCB -/

/-- The pointers on the threads of a core, those above the count included. -/
def Core.pointers (core : Core) : List PcbPtr := core.hwThreads.filterMap HardwareThread.pcb

/-- The pointers on all threads. -/
def Machine.pointers (m : Machine) : List PcbPtr := m.cores.flatMap Core.pointers

/-- Every pointer to a PCB that a critical section leaves behind. -/
def Sys.references (s : Sys) : List PcbPtr := s.machine.pointers ++ s.waiting

/-- The PCB an event destroys. -/
def Event.freed : Event → Option PcbPtr
  | .completed p _ => some p
  | _ => none

/-- The PCBs an event is about. -/
def Event.used : Event → List PcbPtr
  | .tick _ => []
  | .exec p _ _ => [p]
  | .completed p _ => [p]
  | .expired p _ _ => [p]
  | .preempted p _ saved _ => [p, saved]
  | .assigned p _ => [p]
  | .putBack p _ _ => [p]

/-- The events as uses and releases of PCBs. -/
def pcbVocabulary : Objects.Vocabulary Event where
  freed := Event.freed
  used := Event.used
  used_of_freed := by
    intro e p h
    cases e with
    | completed q _ =>
        obtain rfl := Option.some.inj h
        exact List.mem_singleton_self _
    | _ => cases h

/-- The PCBs destroyed so far, in this order. -/
def freedPcbs (log : List Event) : List PcbPtr := pcbVocabulary.freedIn log

/-- No event is about a PCB destroyed before it. -/
def NoUseAfterFree (log : List Event) : Prop := pcbVocabulary.NoUseAfterFree log

/-! ### Pointers of a machine -/

namespace Core

theorem mem_pointers {core : Core} {hw : HardwareThread} {p : PcbPtr}
    (hmem : hw ∈ core.hwThreads) (hp : hw.pcb = some p) : p ∈ core.pointers :=
  List.mem_filterMap.mpr ⟨hw, hmem, hp⟩

/-- A write that keeps the pointer of its thread. -/
theorem pointers_setThread {core : Core} {k : Nat} {hw hw' : HardwareThread}
    (hk : core.hwThreads[k]? = some hw) (hpcb : hw'.pcb = hw.pcb) :
    (core.setThread k hw').pointers = core.pointers := by
  obtain ⟨pre, post, hl, hset⟩ := List.split_set hk
  rw [pointers, pointers, setThread, hset, hl]
  simp [List.filterMap_cons, hpcb]

theorem pointers_dropLegacy (core : Core) (k : Nat) :
    (core.dropLegacy k).pointers = core.pointers := by
  rw [pointers, dropLegacy_hwThreads, pointers]

/-- An assignment overwrites the pointer a preemption has left on its slot. -/
theorem pointers_assign (core : Core) (p : PcbPtr) (pcb : PCB) :
    (core.assign p pcb).pointers <+~ p :: core.pointers := by
  show (core.hwThreads.modify core.currentPcbCount.toNat
    (HardwareThread.load · p pcb)).filterMap HardwareThread.pcb <+~
      p :: core.hwThreads.filterMap HardwareThread.pcb
  cases hk : core.hwThreads[core.currentPcbCount.toNat]? with
  | none =>
      rw [List.modify_eq_self (List.getElem?_eq_none_iff.mp hk)]
      exact (List.sublist_cons_self ..).subperm
  | some hw =>
      obtain ⟨pre, post, hl, hmod⟩ := List.split_modify hk
      have hstale : (pre ++ post).filterMap HardwareThread.pcb <+
          core.hwThreads.filterMap HardwareThread.pcb := by
        rw [hl]
        exact ((List.sublist_cons_self ..).append_left pre).filterMap _
      have hnew : (core.hwThreads.modify core.currentPcbCount.toNat
          (HardwareThread.load · p pcb)).filterMap HardwareThread.pcb ~
            p :: (pre ++ post).filterMap HardwareThread.pcb := by
        rw [hmod, List.filterMap_append, List.filterMap_append]
        exact List.perm_middle
      exact hnew.subperm_right.mpr (hstale.cons_cons p).subperm

/-- A removal gives up the pointer of its slot. -/
theorem pointers_removeThread {core : Core} {k : Nat} {hw : HardwareThread} {p : PcbPtr}
    (hk : core.hwThreads[k]? = some hw) (hp : hw.pcb = some p)
    (hcount : (k : Int) < core.currentPcbCount)
    (hle : core.currentPcbCount ≤ core.numKernelThreads) :
    core.pointers ~ p :: (core.removeThread k).pointers := by
  obtain ⟨pre, post, hl, hmod⟩ := List.split_modify hk
  have hlast : k + ((core.currentPcbCount - 1).toNat - k) =
      (core.currentPcbCount - 1).toNat := by omega
  have hlen : k + ((core.currentPcbCount - 1).toNat - k) <
      (core.hwThreads.modify k HardwareThread.clear).length := by
    rw [List.length_modify]
    rw [numKernelThreads] at hle
    omega
  -- the loop wipes out the slot, and so does a single write
  have hgone : (core.removeThread k).pointers = (pre ++ post).filterMap HardwareThread.pcb := by
    have hshift := Loop.filterMap_up_shift HardwareThread.pcb (c := clearLast) (fun _ => rfl)
      idleThread k _ _ hlen
    rw [hlast] at hshift
    rw [pointers, removeThread_hwThreads, hshift, List.modify_modify_eq, hmod]
    rw [List.filterMap_append, List.filterMap_append]
    rfl
  rw [hgone, pointers, hl, List.filterMap_append, List.filterMap_append,
    List.filterMap_cons_some hp]
  exact List.perm_middle

end Core

namespace Machine

/-- What one core gives up and takes on, the machine does. -/
theorem pointers_setCore {m : Machine} {i j : Nat} {old new : Core}
    (hcore : m.core? i j = some old) (gone come : List PcbPtr)
    (h : gone ++ new.pointers ~ come ++ old.pointers) :
    gone ++ (m.setCore i j new).pointers ~ come ++ m.pointers := by
  obtain ⟨pre, post, hm, hset⟩ := split_core hcore
  rw [pointers, pointers, hset, hm, List.perm_iff_count]
  intro p
  have hp := h.count_eq p
  simp only [List.flatMap_append, List.flatMap_cons, List.count_append] at hp ⊢
  omega

/-- One core takes on one PCB at most. -/
theorem pointers_setCore_subperm {m : Machine} {i j : Nat} {old new : Core} {p : PcbPtr}
    (hcore : m.core? i j = some old) (h : new.pointers <+~ p :: old.pointers) :
    (m.setCore i j new).pointers <+~ p :: m.pointers := by
  obtain ⟨pre, post, hm, hset⟩ := split_core hcore
  rw [pointers, pointers, hset, hm]
  simp only [List.flatMap_append, List.flatMap_cons]
  refine ((List.subperm_append_left _).mpr ((List.subperm_append_right _).mpr h)).trans ?_
  exact List.perm_middle.subperm

theorem Idle.pointers {m : Machine} (h : m.Idle) : m.pointers = [] := by
  refine List.flatMap_eq_nil_iff.mpr fun core hcore => ?_
  refine List.filterMap_eq_nil_iff.mpr fun hw hmem => ?_
  obtain ⟨k, hk⟩ := List.getElem?_of_mem hmem
  exact (h core hcore).slot k hw hk

theorem mem_pointers {m : Machine} {i j k : Nat} {core : Core} {hw : HardwareThread} {p : PcbPtr}
    (hslot : m.slot? i j k = some (core, hw, p)) : p ∈ m.pointers := by
  obtain ⟨hcore, hk, hp⟩ := slot?_eq_some.mp hslot
  exact List.mem_flatMap.mpr
    ⟨core, mem_cores_of_core? hcore, Core.mem_pointers (List.mem_of_getElem? hk) hp⟩

end Machine

/-! ## The invariant -/

/-- The heap is safe while the code itself holds the PCBs `held`. -/
structure HeapSafe (policy : Policy) (threads : Nat) (held : List PcbPtr) (s : Sys) : Prop
    extends Sound threads s where
  samePolicy : s.sched.policy = policy
  owned : Objects.Owned pcbVocabulary s.pcbs.Live s.pcbs.next s.log (held ++ s.references)

namespace PcbHeap

theorem live_age (h : PcbHeap) (p q : PcbPtr) : (h.age p).Live q ↔ h.Live q := live_set ..

theorem live_alloc {h : PcbHeap} (pcb : PCB) (p : PcbPtr) :
    (h.alloc pcb).2.Live p ↔ p = h.next ∨ h.Live p := by
  by_cases hp : p = h.next <;> simp [Live, alloc, hp]

end PcbHeap

namespace HeapSafe

variable {policy : Policy} {threads : Nat} {held held' : List PcbPtr} {s t : Sys}

/-- A step that destroys nothing and allocates nothing. -/
theorem keep (h : HeapSafe policy threads held s) (hsound : Sound threads t)
    (hpol : t.sched.policy = s.sched.policy) (hnext : t.pcbs.next = s.pcbs.next)
    (hlive : ∀ p, t.pcbs.Live p ↔ s.pcbs.Live p)
    (hheld : held' ++ t.references <+~ held ++ s.references) (events : List Event)
    (hlog : t.log = s.log ++ events) (hfree : ∀ e ∈ events, e.freed = none)
    (huse : ∀ e ∈ events, ∀ p ∈ e.used, p ∈ held ++ s.references) :
    HeapSafe policy threads held' t where
  toSound := hsound
  samePolicy := hpol.trans h.samePolicy
  owned := by
    rw [hlog, hnext]
    exact h.owned.keep hlive hheld hfree fun e he p hp => h.owned.heldLive p (huse e he p hp)

/-- A write to PCBs. -/
theorem write (h : HeapSafe policy threads held s) {pcbs : PcbHeap}
    (hnext : pcbs.next = s.pcbs.next) (hlive : ∀ p, pcbs.Live p ↔ s.pcbs.Live p) :
    HeapSafe policy threads held { s with pcbs } where
  toSound := h.toSound.same rfl rfl
  samePolicy := h.samePolicy
  owned := hnext ▸ h.owned.pass hlive (List.Subperm.refl _)

/-- A change of the queues, with the PCBs in the hands of the scheduler. -/
theorem queue (h : HeapSafe policy threads held s) {sched : Scheduler} (hwf : sched.WF)
    (hpol : sched.policy = s.sched.policy)
    (hheld : held' ++ (s.machine.pointers ++ sched.waiting) <+~ held ++ s.references) :
    HeapSafe policy threads held' { s with sched } where
  toSound := ⟨hwf, h.bounded, h.threads⟩
  samePolicy := hpol.trans h.samePolicy
  owned := h.owned.pass (fun _ => Iff.rfl) hheld

/-! ### A tick -/

theorem tickThread (h : HeapSafe policy threads held s) (i j k : Nat) :
    HeapSafe policy threads held (LocOS.tickThread i j k s) := by
  have hsound := h.toSound.tickThread i j k
  rcases tickThread_cases i j k s with
    ⟨_, he⟩ | ⟨core, hw, p, _, _, he⟩ | ⟨core, hw, p, pm, base, hslot, _, _, _, he⟩
  · rw [he]
    exact h
  · rw [he]
    exact h.write rfl fun q => s.pcbs.live_age p q
  · rw [he] at hsound ⊢
    obtain ⟨hcore, hk, _⟩ := Machine.slot?_eq_some.mp hslot
    have hp : p ∈ held ++ s.references :=
      List.mem_append_right _ (List.mem_append_left _ (Machine.mem_pointers hslot))
    have hlive : ∀ q, (executeInstruction (fetched (s.exec hw pm p) p) p
        (fetch (s.exec hw pm p))).pcbs.Live q ↔ s.pcbs.Live q := by
      intro q
      rw [executeInstruction_pcbs]
      split
      · exact (PcbHeap.live_set ..).trans (s.pcbs.live_age p q)
      · exact s.pcbs.live_age p q
    have hnext : (executeInstruction (fetched (s.exec hw pm p) p) p
        (fetch (s.exec hw pm p))).pcbs.next = s.pcbs.next := by
      rw [executeInstruction_pcbs]
      split <;> rfl
    have hpointers : (s.machine.setCore i j (core.setThread k (executeInstruction
        (fetched (s.exec hw pm p) p) p (fetch (s.exec hw pm p))).hw)).pointers ~
          s.machine.pointers :=
      Machine.pointers_setCore hcore [] []
        (.of_eq (Core.pointers_setThread hk (executeInstruction_hw_pcb ..)))
    refine h.keep hsound rfl hnext hlive ((hpointers.append_right _).append_left held).subperm _
      exec_log (fun e he => ?_) fun e he q hq => ?_
    · obtain rfl := List.mem_singleton.mp he
      rfl
    · obtain rfl := List.mem_singleton.mp he
      obtain rfl := List.mem_singleton.mp hq
      exact hp

theorem clockTick (h : HeapSafe policy threads held s) :
    HeapSafe policy threads held (LocOS.clockTick s) := by
  refine clockTick_inv (HeapSafe policy threads held) ?_ fun i j k _ ht => ht.tickThread i j k
  refine h.keep (h.toSound.same rfl rfl) rfl rfl (fun _ => Iff.rfl) (List.Subperm.refl _)
    [.tick (s.clkCounter + 1)] rfl (fun e he => ?_) fun e he p hp => ?_
  · obtain rfl := List.mem_singleton.mp he
    rfl
  · obtain rfl := List.mem_singleton.mp he
    cases hp

/-! ### The scan -/

/-- A queue takes on one PCB at most. -/
theorem subperm_come {machine machine' queues queues' : List PcbPtr} {p : PcbPtr}
    (hmachine : machine' <+~ machine) (hqueues : queues' <+~ p :: queues) :
    held ++ (machine' ++ queues') <+~ p :: (held ++ (machine ++ queues)) := by
  have hboth : machine' ++ queues' <+~ p :: (machine ++ queues) :=
    (hmachine.append hqueues).trans List.perm_middle.subperm
  exact ((List.subperm_append_left held).mpr hboth).trans List.perm_middle.subperm

/-- A process filed, or lost. -/
theorem waiting_enqueue {sched : Scheduler} (h : sched.WF) (pcbs : PcbHeap) (p : PcbPtr) :
    ((enqueueToScheduler sched pcbs p).getD sched).waiting <+~ p :: sched.waiting := by
  rcases Scheduler.enqueueToScheduler_cases h pcbs p with
    ⟨hnone, _⟩ | ⟨sched', _, hsome, _, _, _, _, hperm⟩
  · rw [hnone]
    exact (List.sublist_cons_self ..).subperm
  · rw [hsome]
    exact hperm.subperm

theorem policy_enqueue (sched : Scheduler) (pcbs : PcbHeap) (p : PcbPtr) :
    ((enqueueToScheduler sched pcbs p).getD sched).policy = sched.policy := by
  cases he : enqueueToScheduler sched pcbs p with
  | none => rfl
  | some sched' => exact (Scheduler.enqueueToScheduler_same he).policy

/-- A visit to a counted slot. -/
theorem scanThread (h : HeapSafe policy threads held s) {i j k : Nat} {core : Core}
    (hcore : s.machine.core? i j = some core) (hcount : (k : Int) < core.currentPcbCount) :
    HeapSafe policy threads held (LocOS.scanThread i j k s) := by
  have hsound := (h.toSound.scanThread hcore (by omega) k).1
  cases hslot : s.machine.slot? i j k with
  | none =>
      unfold LocOS.scanThread
      rw [hslot]
      exact h
  | some slot =>
      obtain ⟨core', hw, p⟩ := slot
      obtain ⟨hcore', hk, hp⟩ := Machine.slot?_eq_some.mp hslot
      obtain rfl := Option.some.inj (hcore'.symm.trans hcore)
      have hbounds := h.bounded core' (Machine.mem_cores_of_core? hcore)
      have hremoved : s.machine.pointers ~
          p :: (s.machine.setCore i j (core'.removeThread k)).pointers :=
        (Machine.pointers_setCore hcore [p] []
          (Core.pointers_removeThread hk hp hcount hbounds.2).symm).symm
      have hcharged : HeapSafe policy threads held (s.charge p) :=
        h.write rfl fun q => PcbHeap.live_set ..
      have hmem : p ∈ held ++ s.references :=
        List.mem_append_right _ (List.mem_append_left _ (Machine.mem_pointers hslot))
      rcases scanThread_cases hslot with ⟨_, he⟩ | ⟨_, _, he⟩ | ⟨_, _, he⟩
      · rw [he] at hsound ⊢
        refine ⟨hsound, h.samePolicy, hcharged.owned.release ?_
          (fun q => PcbHeap.live_destroyPcb ..) rfl fun q hq => List.mem_singleton.mp hq⟩
        exact ((hremoved.append_right _).append_left held).trans List.perm_middle
      · rw [he] at hsound ⊢
        refine hcharged.keep hsound (policy_enqueue ..) rfl (fun q => PcbHeap.live_set ..) ?_
          [.expired p _ _] rfl (fun e he => ?_) fun e he q hq => ?_
        · refine (subperm_come (List.Subperm.refl _) (waiting_enqueue h.queues _ p)).trans ?_
          exact (List.perm_middle.symm.trans
            ((hremoved.append_right _).append_left held).symm).subperm
        · obtain rfl := List.mem_singleton.mp he
          rfl
        · obtain rfl := List.mem_singleton.mp he
          obtain rfl := List.mem_singleton.mp hq
          exact hmem
      · rw [he]
        exact hcharged

theorem scanCore (h : HeapSafe policy threads held s) (ij : Nat × Nat) :
    HeapSafe policy threads held (LocOS.scanCore s ij) := by
  unfold LocOS.scanCore
  cases hcore : s.machine.core? ij.1 ij.2 with
  | none => exact h
  | some core =>
      have hinv := @Loop.down_inv _ (LocOS.scanThread ij.1 ij.2) core.currentPcbCount.toNat s
        (fun n t => HeapSafe policy threads held t ∧
          ∃ c, t.machine.core? ij.1 ij.2 = some c ∧ (n : Int) ≤ c.currentPcbCount) ?_ ?_
      · exact hinv.1
      · have hpos := (h.bounded core (Machine.mem_cores_of_core? hcore)).1
        exact ⟨h, core, hcore, by omega⟩
      · rintro n t - ⟨ht, c, hc, hn⟩
        obtain ⟨_, c', hc', hle⟩ := ht.toSound.scanThread hc (by omega) n
        exact ⟨ht.scanThread hc (by omega), c', hc', by omega⟩

theorem scanMachine (h : HeapSafe policy threads held s) :
    HeapSafe policy threads held (LocOS.scanMachine s) :=
  Loop.foldl_inv (HeapSafe policy threads held) h fun ij _ _ ht => ht.scanCore ij

/-! ### The transfer -/

/-- A preemption allocates the saved copy. The preempted process keeps its
thread, and with it its PCB. -/
theorem preempt {p : PcbPtr} (h : HeapSafe policy threads (p :: held) s) :
    HeapSafe policy threads (p :: held) (preemptLowerPriorityProcesses s p) := by
  have hsound := h.toSound.preempt p
  by_cases hpol : s.sched.policy = .preemptivePrio
  · rcases preempt_cases hpol p with ⟨_, he⟩ | ⟨_, i, j, k, core, hcore, _, _, he⟩
    · rw [he]
      exact h
    · rw [he] at hsound ⊢
      have hpointers : (s.machine.setCore i j (core.dropLegacy k)).pointers ~
          s.machine.pointers :=
        Machine.pointers_setCore hcore [] [] (.of_eq (core.pointers_dropLegacy k))
      have hcreated := h.owned.create (PcbHeap.live_alloc (core.pcbs.getD k default).savedCopy)
      refine ⟨hsound, (policy_enqueue ..).trans h.samePolicy,
        hcreated.keep (fun _ => Iff.rfl) ?_ (fun e he => ?_) fun e he q hq => ?_⟩
      · exact subperm_come hpointers.subperm (waiting_enqueue h.queues _ _)
      · obtain rfl := List.mem_singleton.mp he
        rfl
      · obtain rfl := List.mem_singleton.mp he
        rcases List.mem_cons.mp hq with rfl | hq
        · exact hcreated.heldLive _ (List.mem_cons_of_mem _ (List.mem_cons_self ..))
        · obtain rfl := List.mem_singleton.mp hq
          exact hcreated.heldLive _ (List.mem_cons_self ..)
  · unfold preemptLowerPriorityProcesses
    rw [if_pos hpol]
    exact h

/-- A PCB taken from a queue is in the hands of the scheduler. -/
theorem take (h : HeapSafe policy threads held s) {p : PcbPtr} {sched : Scheduler}
    (hwf : sched.WF) (hpol : sched.policy = s.sched.policy)
    (hperm : s.sched.waiting ~ p :: sched.waiting) :
    HeapSafe policy threads (p :: held) { s with sched } := by
  refine h.queue hwf hpol ?_
  have hmoved : s.machine.pointers ++ s.sched.waiting ~
      p :: (s.machine.pointers ++ sched.waiting) :=
    (hperm.append_left _).trans List.perm_middle
  exact (List.perm_middle.symm.trans (hmoved.append_left held).symm).subperm

/-- The scheduler puts it on a queue, or loses it. -/
theorem file {p : PcbPtr} (h : HeapSafe policy threads (p :: held) s) {sched : Scheduler}
    (hwf : sched.WF) (hpol : sched.policy = s.sched.policy)
    (hsub : sched.waiting <+~ p :: s.sched.waiting) :
    HeapSafe policy threads held { s with sched } :=
  h.queue hwf hpol (subperm_come (List.Subperm.refl _) hsub)

theorem transferReady (h : HeapSafe policy threads held s) (n : Nat) :
    HeapSafe policy threads held (LocOS.transferReady n s) := by
  induction n generalizing s with
  | zero => exact h
  | succ n ih =>
      unfold LocOS.transferReady
      cases hdeq : s.sched.readyQueue.dequeueProcess with
      | none => exact h
      | some taken =>
          obtain ⟨p, rq⟩ := taken
          dsimp only
          have htaken := taken_of_dequeue h.queues hdeq
          have hhand : HeapSafe policy threads (p :: held)
              { s with sched := { s.sched with readyQueue := rq } } :=
            h.take htaken.wf htaken.same.policy htaken.perm
          have hroom : HeapSafe policy threads (p :: held)
              (if canCpuExecuteProcess s.machine then
                ({ s with sched := { s.sched with readyQueue := rq } } : Sys)
              else preemptLowerPriorityProcesses
                { s with sched := { s.sched with readyQueue := rq } } p) := by
            split
            · exact hhand
            · exact hhand.preempt
          revert hroom
          generalize (if canCpuExecuteProcess s.machine then
              ({ s with sched := { s.sched with readyQueue := rq } } : Sys)
            else preemptLowerPriorityProcesses
              { s with sched := { s.sched with readyQueue := rq } } p) = t
          intro ht
          rcases Scheduler.enqueueToScheduler_cases ht.queues t.pcbs p with
            ⟨hnone, _⟩ | ⟨sched, _, hsome, _, _, hwf, hsame, hperm⟩
          · rw [hnone]
            -- back to the rear of `ready_queue`
            cases hback : t.sched.readyQueue.enqueueProcess p with
            | none => exact ht.file ht.queues rfl (List.sublist_cons_self ..).subperm
            | some back =>
                obtain ⟨_, hbackwf, hl, _⟩ :=
                  ProcessQueue.enqueueProcess_some ht.queues.ready hback
                exact ht.file (ht.queues.setReady hbackwf) rfl
                  (Scheduler.waiting_setReady_perm hl).subperm
          · rw [hsome]
            exact ih (ht.file hwf hsame.policy hperm.subperm)

/-! ### The dispatch -/

theorem dispatched (h : HeapSafe policy threads held s) {p : PcbPtr} {sched : Scheduler} {i j : Nat}
    {core : Core} (hcore : s.machine.core? i j = some core) (hspace : core.hasSpace = true)
    (hwf : sched.WF) (hpol : sched.policy = s.sched.policy)
    (hperm : s.sched.waiting ~ p :: sched.waiting) :
    HeapSafe policy threads held (s.dispatched sched p i j core) := by
  have hmachine : (s.machine.setCore i j (core.assign p ((s.started sched p).get p))).pointers <+~
      p :: s.machine.pointers :=
    Machine.pointers_setCore_subperm hcore (core.pointers_assign ..)
  refine h.keep (h.toSound.dispatched hwf hcore hspace) hpol rfl (fun q => PcbHeap.live_set ..) ?_
    [.assigned p (s.pid p)] rfl (fun e he => ?_) fun e he q hq => ?_
  · refine (List.subperm_append_left held).mpr ?_
    refine (hmachine.append (List.Subperm.refl _)).trans ?_
    exact (List.perm_middle.symm.trans (hperm.append_left _).symm).subperm
  · obtain rfl := List.mem_singleton.mp he
    rfl
  · obtain rfl := List.mem_singleton.mp he
    obtain rfl := List.mem_singleton.mp hq
    exact List.mem_append_right _ (List.mem_append_right _
      (hperm.mem_iff.mpr (List.mem_cons_self ..)))

theorem dispatchReady (h : HeapSafe policy threads held s) (hpol : policy ≠ .bfs) (n : Nat) :
    HeapSafe policy threads held (LocOS.dispatchReady n s) :=
  dispatchReady_inv (fun _ ht => ht.queues) (fun _ ht => ht.samePolicy.trans_ne hpol)
    (fun _ _ _ _ _ _ ht hcore hspace hwf hsame hperm _ =>
      ht.dispatched hcore hspace hwf hsame.policy hperm) n h

theorem schedulerPass (h : HeapSafe policy threads held s) (hpol : policy ≠ .bfs) :
    HeapSafe policy threads held (LocOS.schedulerPass s) := by
  unfold LocOS.schedulerPass
  dsimp only
  split
  · exact (h.scanMachine.transferReady _).dispatchReady hpol _
  · exact h.scanMachine.dispatchReady hpol _

theorem next (h : HeapSafe policy threads held s) (hpol : policy ≠ .bfs) (a : Action) :
    HeapSafe policy threads held (s.next a) := by
  cases a with
  | tick => exact h.clockTick
  | pass => exact h.schedulerPass hpol

/-! ### Runs -/

theorem boot {cfg : Config} {pcbs : List PCB} (hb : Booted cfg pcbs s)
    (hidle : cfg.machine.Idle) : HeapSafe cfg.policy cfg.machine.threadCount [] s where
  toSound := .boot hb hidle.compact.bounded
  samePolicy := hb.policy
  owned := by
    have hrefs : [] ++ s.references = List.range pcbs.length := by
      rw [Sys.references, hb.machine, hidle.pointers, hb.waiting]
      rfl
    rw [hrefs, hb.log, hb.heap]
    refine ⟨List.nodup_range, fun p hp => live_bootHeap.mpr (List.mem_range.mp hp), fun p => ?_,
      fun p hp => absurd hp List.not_mem_nil, List.Pairwise.nil⟩
    rw [live_bootHeap]
    exact (or_iff_left List.not_mem_nil).symm

/-- The generator allocates the PCB it enqueues. -/
theorem iterate {g : Generating} (h : HeapSafe policy threads [] g.sys) (draws : GeneratorDraws) :
    HeapSafe policy threads [] (g.iterate draws).sys := by
  have hsound := h.toSound.iterate draws
  revert hsound
  unfold Generating.iterate
  split
  · exact fun _ => h
  · split
    · rw [Generating.waitForSpace_sys]
      exact fun _ => h
    · have hprepared : HeapSafe policy threads [] (g.prepare draws).sys := by
        rw [Generating.prepare_sys]
        exact h
      unfold Generating.offer
      split
      · exact fun _ => hprepared
      · rename_i pcb _
        dsimp only
        split
        · rename_i rq henq
          obtain ⟨_, _, hl, _⟩ := ProcessQueue.enqueueProcess_some hprepared.queues.ready henq
          intro hsound
          have hcreated := hprepared.owned.create (PcbHeap.live_alloc pcb)
          exact ⟨hsound, hprepared.samePolicy, hcreated.pass (fun _ => Iff.rfl)
            (subperm_come (List.Subperm.refl _) (Scheduler.waiting_setReady_perm hl).subperm)⟩
        · rw [Generating.waitForSpace_sys]
          exact fun _ => hprepared

end HeapSafe

theorem HeapSafe.served {cfg : Config} {pcbs : List PCB} (hpol : cfg.policy ≠ .bfs)
    (hidle : cfg.machine.Idle) {g : Generating} (hg : (servedRuns cfg pcbs).Reachable g) :
    HeapSafe cfg.policy cfg.machine.threadCount [] g.sys := by
  refine hg.invariant (fun g => HeapSafe cfg.policy cfg.machine.threadCount [] g.sys) ?_ ?_
  · intro g hb
    exact .boot (boot_spec hb) hidle
  · rintro g a t h rfl
    cases a with
    | sys a => exact h.next hpol a
    | iterate draws => exact h.iterate draws

end LocOS
