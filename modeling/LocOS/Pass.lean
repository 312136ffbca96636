import LocOS.Mirror

/-!
# Pass

What a pass does, whatever its queues hold: the rule for properties of the
machine and the PCBs that do not depend on the order or the number of the
waiting processes. It covers all policies, BFS included. Its first use is the
references to page tables, which a pass and a tick only copy or drop.
-/

namespace LocOS

/-! ## The rule -/

/-- The system after no core took the selected process. -/
def Sys.putBack (s : Sys) (sched : Scheduler) (p : PcbPtr) (enqueued : Bool) : Sys :=
  { s with
    sched
    pcbs := s.started sched p
    log := s.log ++ [Event.putBack p (s.pid p) enqueued] }

/-- Every part of a pass keeps `P`. -/
structure PassKeeps (P : Sys → Prop) : Prop where
  scan : ∀ i j k s, P s → P (scanThread i j k s)
  preempt : ∀ p s, P s → P (preemptLowerPriorityProcesses s p)
  queues : ∀ sched (s : Sys), P s → P { s with sched }
  dispatch : ∀ p sched i j core (s : Sys), s.machine.core? i j = some core → P s →
    P (s.dispatched sched p i j core)
  putBack : ∀ p sched enqueued (s : Sys), P s → P (s.putBack sched p enqueued)

namespace PassKeeps

variable {P : Sys → Prop} {s : Sys}

theorem scanMachine (h : PassKeeps P) (hs : P s) : P (scanMachine s) := by
  refine Loop.foldl_inv P hs fun ij _ t ht => ?_
  unfold scanCore
  split
  · exact ht
  · exact Loop.down_inv (fun _ => P) ht fun k t _ ht => h.scan ij.1 ij.2 k t ht

theorem transferReady (h : PassKeeps P) (n : Nat) (hs : P s) : P (transferReady n s) := by
  induction n generalizing s with
  | zero => exact hs
  | succ n ih =>
      unfold LocOS.transferReady
      split
      · exact hs
      · rename_i p rq _
        have htaken : P { s with sched := { s.sched with readyQueue := rq } } := h.queues _ s hs
        have hroom : P (if canCpuExecuteProcess s.machine then
              ({ s with sched := { s.sched with readyQueue := rq } } : Sys)
            else preemptLowerPriorityProcesses
              { s with sched := { s.sched with readyQueue := rq } } p) := by
          split
          · exact htaken
          · exact h.preempt p _ htaken
        dsimp only
        split
        · exact ih (h.queues _ _ hroom)
        · exact h.queues _ _ hroom

theorem dispatchReady (h : PassKeeps P) (n : Nat) (hs : P s) : P (dispatchReady n s) := by
  induction n generalizing s with
  | zero => exact hs
  | succ n ih =>
      unfold LocOS.dispatchReady
      split
      · split
        · exact hs
        · rename_i p sched _
          rcases s.machine.assignProcessToCore_cases (s.started sched p) p with
            ⟨_, hnone⟩ | ⟨i, j, core, hcore, _, hassign⟩
          · rw [Sys.started] at hnone
            simp only [hnone, PCB.start_pid]
            exact h.queues _ _ (h.putBack p sched _ s hs)
          · rw [Sys.started] at hassign
            simp only [hassign, PCB.start_pid]
            exact ih (h.dispatch p sched i j core s hcore hs)
      · exact hs

theorem schedulerPass (h : PassKeeps P) (hs : P s) : P (schedulerPass s) := by
  unfold LocOS.schedulerPass
  refine h.dispatchReady _ ?_
  split
  · exact h.transferReady _ (h.scanMachine hs)
  · exact h.scanMachine hs

/-- A pass writes neither the counter nor physical memory. -/
theorem inputs (Q : Int → Option PhysicalMemory → Prop) :
    PassKeeps fun s => Q s.clkCounter s.clockPmRef where
  scan := by
    intro i j k s hs
    cases hslot : s.machine.slot? i j k with
    | none =>
        unfold LocOS.scanThread
        rw [hslot]
        exact hs
    | some slot =>
        rcases scanThread_cases hslot with ⟨_, he⟩ | ⟨_, _, he⟩ | ⟨_, _, he⟩
        all_goals
          rw [he]
          exact hs
  preempt := by
    intro p s hs
    unfold preemptLowerPriorityProcesses
    dsimp only
    split
    · exact hs
    · split
      · split
        · exact hs
        · exact hs
      · exact hs
  queues := fun _ _ hs => hs
  dispatch := fun _ _ _ _ _ _ _ hs => hs
  putBack := fun _ _ _ _ hs => hs

theorem clockPmRef (pmRef : Option PhysicalMemory) :
    PassKeeps fun s => s.clockPmRef = pmRef := inputs fun _ pm => pm = pmRef

theorem clkCounter (counter : Int) : PassKeeps fun s => s.clkCounter = counter :=
  inputs fun c _ => c = counter

end PassKeeps

/-! ## References to page tables -/

/-- Every reference to a page table, in a PCB or on a hardware thread, stands
in relation `R` to the process that holds it. -/
structure References (R : PcbPtr → Option Nat → Prop) (m : Machine) (h : PcbHeap) : Prop where
  none : ∀ p, R p none
  heap : ∀ p, R p (h.get p).mm.pgb
  threads : ∀ core ∈ m.cores, ∀ hw ∈ core.hwThreads, ∀ p, hw.pcb = some p → R p hw.ptbr

namespace References

variable {R : PcbPtr → Option Nat → Prop} {m : Machine} {h : PcbHeap}

theorem set (hr : References R m h) {p : PcbPtr} {pcb : PCB} (hmm : pcb.mm = (h.get p).mm) :
    References R m (h.set p pcb) where
  none := hr.none
  heap := by
    intro q
    rw [PcbHeap.get_set_congr PCB.mm h hmm]
    exact hr.heap q
  threads := hr.threads

theorem destroyPcb (hr : References R m h) (p : PcbPtr) : References R m (h.destroyPcb p) where
  none := hr.none
  heap := by
    intro q
    by_cases hq : q = p
    · have hnone : ((h.destroyPcb p).get q).mm.pgb = Option.none := by
        simp only [hq, PcbHeap.get, PcbHeap.destroyPcb, if_true, Option.getD_none]
        rfl
      rw [hnone]
      exact hr.none q
    · rw [PcbHeap.get_destroyPcb_ne h hq]
      exact hr.heap q
  threads := hr.threads

/-- A new PCB without a page table. -/
theorem alloc (hr : References R m h) {pcb : PCB} (hpcb : pcb.mm.pgb = Option.none) :
    References R m (h.alloc pcb).2 where
  none := hr.none
  heap := by
    intro q
    by_cases hq : q = h.next
    · rw [hq, PcbHeap.get_alloc_self, hpcb]
      exact hr.none _
    · have hget : (h.alloc pcb).2.get q = h.get q := by simp [PcbHeap.get, PcbHeap.alloc, hq]
      rw [hget]
      exact hr.heap q
  threads := hr.threads

theorem core (hr : References R m h) {i j : Nat} {core : Core} (hcore : m.core? i j = some core) :
    ∀ hw ∈ core.hwThreads, ∀ p, hw.pcb = some p → R p hw.ptbr :=
  hr.threads core (Machine.mem_cores_of_core? hcore)

/-- A write to one core whose new threads are in relation to their processes. -/
theorem setCore (hr : References R m h) {i j : Nat} {old new : Core}
    (hcore : m.core? i j = some old)
    (hnew : ∀ hw ∈ new.hwThreads, ∀ p, hw.pcb = some p → R p hw.ptbr) :
    References R (m.setCore i j new) h where
  none := hr.none
  heap := hr.heap
  threads := by
    intro core hmem
    rcases Machine.mem_setCore hcore hmem with rfl | hmem
    · exact hnew
    · exact hr.threads core hmem

/-- A write to one thread that keeps its process and its table. -/
theorem setThread (hr : References R m h) {i j k : Nat} {core : Core} {hw hw' : HardwareThread}
    (hcore : m.core? i j = some core) (hk : core.hwThreads[k]? = some hw)
    (hpcb : hw'.pcb = hw.pcb) (hptbr : hw'.ptbr = hw.ptbr) :
    References R (m.setCore i j (core.setThread k hw')) h := by
  refine hr.setCore hcore fun hw'' hmem q hq => ?_
  rcases List.mem_or_eq_of_mem_set hmem with hmem | rfl
  · exact hr.core hcore hw'' hmem q hq
  · rw [hpcb] at hq
    rw [hptbr]
    exact hr.core hcore hw (List.mem_of_getElem? hk) q hq

theorem removeThread (hr : References R m h) {i j : Nat} {core : Core}
    (hcore : m.core? i j = some core) (k : Nat) :
    References R (m.setCore i j (core.removeThread k)) h := by
  refine hr.setCore hcore fun hw hmem p hp => ?_
  rcases Core.mem_removeThread_hwThreads hmem with hmem | ⟨_, hnone⟩
  · exact hr.core hcore hw hmem p hp
  · rw [hnone]
    exact hr.none p

theorem scanThread {s : Sys} (hr : References R s.machine s.pcbs) (i j k : Nat) :
    References R (LocOS.scanThread i j k s).machine (LocOS.scanThread i j k s).pcbs := by
  cases hslot : s.machine.slot? i j k with
  | none =>
      unfold LocOS.scanThread
      rw [hslot]
      exact hr
  | some slot =>
      obtain ⟨core, hw, p⟩ := slot
      have hcore := (Machine.slot?_eq_some.mp hslot).1
      have hcharge : References R s.machine (s.charge p).pcbs := hr.set rfl
      have hgone := hcharge.removeThread hcore k
      rcases scanThread_cases hslot with ⟨_, he⟩ | ⟨_, _, he⟩ | ⟨_, _, he⟩
      · rw [he]
        exact hgone.destroyPcb p
      · rw [he]
        exact hgone.set (expiredPcb_mm (s.charge p) hw p)
      · rw [he]
        exact hcharge

theorem preempt {s : Sys} (hr : References R s.machine s.pcbs) (p : PcbPtr) :
    References R (preemptLowerPriorityProcesses s p).machine
      (preemptLowerPriorityProcesses s p).pcbs := by
  unfold preemptLowerPriorityProcesses
  dsimp only
  split
  · exact hr
  · split
    · split
      · exact hr
      · rename_i core hcore
        refine (hr.setCore hcore fun hw hmem q hq => ?_).alloc rfl
        rw [Core.dropLegacy_hwThreads] at hmem
        exact hr.core hcore hw hmem q hq
    · exact hr

theorem started {s : Sys} (hr : References R s.machine s.pcbs) (sched : Scheduler) (p : PcbPtr) :
    References R s.machine (s.started sched p) := hr.set (PCB.start_mm ..)

theorem dispatched {s : Sys} (hr : References R s.machine s.pcbs) {i j : Nat} {core : Core}
    (hcore : s.machine.core? i j = some core) (sched : Scheduler) (p : PcbPtr) :
    References R (s.dispatched sched p i j core).machine
      (s.dispatched sched p i j core).pcbs := by
  have hstart := hr.started sched p
  refine hstart.setCore hcore fun hw hmem q hq => ?_
  rcases Core.mem_assign_hwThreads hmem with hmem | ⟨hw', rfl⟩
  · exact hstart.core hcore hw hmem q hq
  · obtain rfl : p = q := Option.some.inj hq
    exact hstart.heap p

theorem tickThread {s : Sys} (hr : References R s.machine s.pcbs) (i j k : Nat) :
    References R (LocOS.tickThread i j k s).machine (LocOS.tickThread i j k s).pcbs := by
  have hage : ∀ p, References R s.machine (s.pcbs.age p) := fun p =>
    hr.set (PCB.decrementTtl_mm _)
  rcases tickThread_cases i j k s with
    ⟨_, he⟩ | ⟨core, hw, p, _, _, he⟩ | ⟨core, hw, p, pm, base, hslot, _, _, _, he⟩
  · rw [he]
    exact hr
  · rw [he]
    exact hage p
  · obtain ⟨hcore, hk, _⟩ := Machine.slot?_eq_some.mp hslot
    rw [he]
    have hmachine := (hage p).setThread hcore hk
      (executeInstruction_hw_pcb (fetched (s.exec hw pm p) p) p (fetch (s.exec hw pm p)))
      (executeInstruction_hw_ptbr (fetched (s.exec hw pm p) p) p (fetch (s.exec hw pm p)))
    show References R _ (executeInstruction _ _ _).pcbs
    rw [executeInstruction_pcbs]
    split
    · exact hmachine.set rfl
    · exact hmachine

/-- Whatever a pass does, it keeps the references. -/
theorem passKeeps : PassKeeps fun s => References R s.machine s.pcbs where
  scan := fun i j k _ hs => hs.scanThread i j k
  preempt := fun p _ hs => hs.preempt p
  queues := fun _ _ hs => hs
  dispatch := fun p sched _ _ _ _ hcore hs => hs.dispatched hcore sched p
  putBack := fun p sched _ _ hs => hs.started sched p

end References

end LocOS
