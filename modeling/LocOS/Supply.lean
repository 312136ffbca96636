import LocOS.Deadlines
import LocOS.HeapSafety
import LocOS.Lifetime
import LocOS.Priority

/-!
# Supply

A pass leaves nobody on a hardware thread whose TTL is used up, the copies
that preemption makes apart, which have no page table and execute nothing. The
scan finds every process the clock executes, also after a pass that preempted:
the slot a preemption leaves behind the count is filled by the dispatch of the
same pass.
-/

namespace LocOS

open scoped List

/-! ## Priorities -/

/-- The priority has a queue. -/
def PCB.InRange (pcb : PCB) : Prop := minPriority ≤ pcb.priority ∧ pcb.priority ≤ maxPriority

/-- The PCBs and the legacy copies have priorities with a queue. -/
structure Ranges (s : Sys) : Prop where
  heap : s.pcbs.InRange
  copies : ∀ core ∈ s.machine.cores, ∀ pcb ∈ core.pcbs, pcb.InRange

theorem default_inRange : (default : PCB).InRange := by
  show minPriority ≤ 0 ∧ 0 ≤ maxPriority
  decide

theorem PcbHeap.InRange.get {h : PcbHeap} (hr : h.InRange) (p : PcbPtr) : (h.get p).InRange := by
  by_cases hp : h.Live p
  · exact hr p hp
  -- a dead object reads as a new one
  · have hnone : h.cells p = none := by simpa [PcbHeap.Live] using hp
    rw [PcbHeap.get, hnone]
    exact default_inRange

theorem Core.dropLegacy_pcbs (core : Core) (k : Nat) :
    (core.dropLegacy k).pcbs =
      Loop.up (fun l t => t.set (k + l) (t.getD (k + l + 1) default))
        ((core.currentPcbCount - 1).toNat - k) core.pcbs := by
  simp only [dropLegacy]
  rw [Loop.up_map Core.pcbs (fun l t => t.set (k + l) (t.getD (k + l + 1) default))
    fun _ _ => rfl]

namespace Ranges

variable {s : Sys}

theorem setCore (h : Ranges s) {i j : Nat} {old new : Core}
    (hcore : s.machine.core? i j = some old) (hnew : ∀ pcb ∈ new.pcbs, pcb.InRange) :
    ∀ core ∈ (s.machine.setCore i j new).cores, ∀ pcb ∈ core.pcbs, pcb.InRange := by
  intro core hmem
  rcases Machine.mem_setCore hcore hmem with rfl | hold
  · exact hnew
  · exact h.copies core hold

/-- The copies of a core after the gap of a removal or a preemption is closed. -/
theorem shifted (h : Ranges s) {i j : Nat} {core : Core} (hcore : s.machine.core? i j = some core)
    (k n : Nat) :
    ∀ pcb ∈ Loop.up (fun l t => t.set (k + l) (t.getD (k + l + 1) default)) n core.pcbs,
      pcb.InRange :=
  Loop.forall_mem_up_shift default_inRange k n
    (h.copies core (Machine.mem_cores_of_core? hcore))

theorem charge (h : Ranges s) (p : PcbPtr) : Ranges (s.charge p) :=
  ⟨h.heap.set rfl, h.copies⟩

theorem scanThread (h : Ranges s) (i j k : Nat) : Ranges (LocOS.scanThread i j k s) := by
  cases hslot : s.machine.slot? i j k with
  | none =>
      unfold LocOS.scanThread
      rw [hslot]
      exact h
  | some slot =>
      obtain ⟨core, hw, p⟩ := slot
      have hcore := (Machine.slot?_eq_some.mp hslot).1
      have hcopies : ∀ c ∈ (s.machine.setCore i j (core.removeThread k)).cores,
          ∀ pcb ∈ c.pcbs, pcb.InRange := by
        refine h.setCore hcore ?_
        rw [Core.removeThread_pcbs]
        exact h.shifted hcore k _
      rcases scanThread_cases hslot with ⟨_, he⟩ | ⟨_, _, he⟩ | ⟨_, _, he⟩
      · rw [he]
        exact ⟨(h.charge p).heap.destroyPcb p, hcopies⟩
      · rw [he]
        exact ⟨(h.charge p).heap.set (expiredPcb_priority ..), hcopies⟩
      · rw [he]
        exact h.charge p

theorem preempt (h : Ranges s) (p : PcbPtr) : Ranges (preemptLowerPriorityProcesses s p) := by
  by_cases hpol : s.sched.policy = .preemptivePrio
  · rcases preempt_cases hpol p with ⟨_, he⟩ | ⟨_, i, j, k, core, hcore, _, _, he⟩
    · rw [he]
      exact h
    · have hcopies : ∀ c ∈ (s.machine.setCore i j (core.dropLegacy k)).cores,
          ∀ pcb ∈ c.pcbs, pcb.InRange := by
        refine h.setCore hcore ?_
        rw [Core.dropLegacy_pcbs]
        exact h.shifted hcore k _
      rw [he]
      refine ⟨h.heap.alloc ?_, hcopies⟩
      -- the saved copy has the priority of the legacy copy
      show (core.pcbs.getD k default).InRange
      rw [List.getD_eq_getElem?_getD]
      cases hget : core.pcbs[k]? with
      | none => exact default_inRange
      | some pcb =>
          exact h.copies core (Machine.mem_cores_of_core? hcore) pcb (List.mem_of_getElem? hget)
  · unfold preemptLowerPriorityProcesses
    rw [if_pos hpol]
    exact h

theorem started (h : Ranges s) (sched : Scheduler) (p : PcbPtr) :
    (s.started sched p).InRange := h.heap.set (PCB.start_priority ..)

theorem passKeeps : PassKeeps Ranges where
  scan := fun i j k _ h => h.scanThread i j k
  preempt := fun p _ h => h.preempt p
  queues := fun _ _ h => ⟨h.heap, h.copies⟩
  dispatch := by
    intro p sched i j core s hcore h
    refine ⟨h.started sched p, h.setCore hcore fun pcb hmem => ?_⟩
    rcases List.mem_or_eq_of_mem_set hmem with hmem | rfl
    · exact h.copies core (Machine.mem_cores_of_core? hcore) pcb hmem
    · exact (h.started sched p).get p
  putBack := fun p sched _ _ h => ⟨h.started sched p, h.copies⟩

theorem tickThread (h : Ranges s) (i j k : Nat) : Ranges (LocOS.tickThread i j k s) := by
  rcases tickThread_cases i j k s with
    ⟨_, he⟩ | ⟨core, hw, p, _, _, he⟩ | ⟨core, hw, p, pm, base, hslot, _, _, _, he⟩
  · rw [he]
    exact h
  · rw [he]
    exact ⟨h.heap.set (PCB.decrementTtl_priority _), h.copies⟩
  · have hcore := (Machine.slot?_eq_some.mp hslot).1
    rw [he]
    exact ⟨inRange_executeInstruction (h.heap.set (PCB.decrementTtl_priority _)),
      h.setCore hcore (h.copies core (Machine.mem_cores_of_core? hcore))⟩

end Ranges

/-! ## The supply -/

/-- Every loaded process that waits or executes has TTL left, those that are
`late` apart. -/
structure Supplied (policy : Policy) (threads : Nat) (pcbs : List PCB) (late : PcbPtr → Prop)
    (s : Sys) : Prop where
  safe : HeapSafe policy threads [] s
  life : Lifetime pcbs s
  ranges : Ranges s
  left : ∀ p ∈ s.places, p < pcbs.length → ¬ late p → 0 < (s.pcbs.get p).ttl

theorem Machine.Compact.pointers_eq {m : Machine} (h : m.Compact) : m.pointers = m.running :=
  h.busy_eq

theorem ttl_pos_of_charge {pcb : PCB} (h : pcb.charge.finished = false) : 0 < pcb.ttl :=
  Int.not_le.mp fun hle => of_decide_eq_false h (.inr hle)

namespace Supplied

variable {policy : Policy} {threads : Nat} {pcbs : List PCB} {late late' : PcbPtr → Prop} {s : Sys}

theorem mono (h : Supplied policy threads pcbs late s)
    (hlate : ∀ p ∈ s.places, late p → late' p) : Supplied policy threads pcbs late' s where
  safe := h.safe
  life := h.life
  ranges := h.ranges
  left := fun p hp hloaded hnot => h.left p hp hloaded fun hl => hnot (hlate p hp hl)

/-- No process is on two hardware threads, nor on one and in a queue. -/
theorem nodup (h : Supplied policy threads pcbs late s) (hc : s.machine.Compact) :
    s.places.Nodup := by
  have hnd := h.safe.owned.nodup
  rw [List.nil_append, Sys.references, hc.pointers_eq] at hnd
  exact hnd

/-- Nobody is left by the scan whose TTL is used up. -/
theorem scanThread {todo : List PcbPtr} {i j k : Nat} {core : Core} {hw : HardwareThread}
    {p : PcbPtr} (hc : s.machine.Compact) (hslot : s.machine.slot? i j k = some (core, hw, p))
    (h : Supplied policy threads pcbs (· ∈ p :: todo) s) :
    Supplied policy threads pcbs (· ∈ todo) (LocOS.scanThread i j k s) := by
  obtain ⟨hcore, hk, hp⟩ := Machine.slot?_eq_some.mp hslot
  have hholds := hc.core hcore
  have hcount : (k : Int) < core.currentPcbCount := by
    have hlt := (List.getElem?_eq_some_iff.mp (hholds.busy hk hp)).1
    rw [hholds.count]
    exact Int.ofNat_lt.mpr hlt
  have hperm := Machine.running_removeThread_perm hc hslot
  have hsafe := h.safe.scanThread hcore hcount (k := k)
  -- what is still held was held before, and only `p` was written to
  have hothers : ∀ q, q ≠ p → q ∈ s.places → q < pcbs.length → q ∉ todo →
      0 < ((LocOS.scanThread i j k s).pcbs.get q).ttl := by
    intro q hqp hq hloaded hnot
    rw [scanThread_get_ne hslot hqp]
    exact h.left q hq hloaded fun hl => hnot ((List.mem_cons.mp hl).resolve_left hqp)
  refine ⟨hsafe, h.life.scanThread i j k, h.ranges.scanThread i j k, fun q hq hloaded hnot => ?_⟩
  have hcharge : ∀ q, ((s.charge p).pcbs.get q).ttl = (s.pcbs.get q).ttl :=
    PcbHeap.get_set_congr PCB.ttl s.pcbs rfl
  rcases scanThread_cases hslot with ⟨_, he⟩ | ⟨hfin, _, he⟩ | ⟨hfin, _, he⟩
  · have hplaces : s.places ~ p :: (LocOS.scanThread i j k s).places := by
      rw [he]
      exact hperm.append_right s.waiting
    have hqp : q ≠ p := by
      rintro rfl
      exact (List.nodup_cons.mp (hplaces.nodup_iff.mp (h.nodup hc))).1 hq
    exact hothers q hqp (hplaces.mem_iff.mpr (List.mem_cons_of_mem p hq)) hloaded hnot
  · by_cases hqp : q = p
    · rw [hqp, he]
      show 0 < (((s.charge p).pcbs.set p (expiredPcb (s.charge p) hw p)).get p).ttl
      rw [PcbHeap.get_set_congr PCB.ttl _ (Lifetime.expiredPcb_ttl (s.charge p) hw p), hcharge]
      exact ttl_pos_of_charge hfin
    · refine hothers q hqp ?_ hloaded hnot
      rw [he] at hq
      rcases List.mem_append.mp hq with hq | hq
      · exact List.mem_append_left _ (hperm.mem_iff.mpr (List.mem_cons_of_mem p hq))
      · have hwf : s.sched.WF := h.safe.queues
        have hsub := (HeapSafe.waiting_enqueue hwf _ p).subset hq
        exact List.mem_append_right _ ((List.mem_cons.mp hsub).resolve_left hqp)
  · by_cases hqp : q = p
    · rw [hqp, he, hcharge]
      exact ttl_pos_of_charge hfin
    · rw [he] at hq
      exact hothers q hqp hq hloaded hnot

theorem scanMachine (h : Supplied policy threads pcbs (· ∈ s.running) s)
    (hc : s.machine.Compact) :
    Supplied policy threads pcbs (fun _ => False) (LocOS.scanMachine s) ∧
      (LocOS.scanMachine s).machine.Compact := by
  have hscan := scanMachine_inv (fun todo t => Supplied policy threads pcbs (· ∈ todo) t)
    (fun _ _ _ _ _ _ _ _ hct hslot ht => ht.scanThread hct hslot) hc
    (h.mono fun p _ hp => s.machine.scanOrder_perm.mem_iff.mpr hp)
  exact ⟨hscan.1.mono fun p _ hp => absurd hp List.not_mem_nil, hscan.2⟩

/-- A change of the queues that keeps who waits. -/
theorem queue (h : Supplied policy threads pcbs late s) {sched : Scheduler} (hwf : sched.WF)
    (hpol : sched.policy = s.sched.policy) (hperm : sched.waiting ~ s.sched.waiting) :
    Supplied policy threads pcbs late { s with sched } where
  safe := h.safe.queue hwf hpol ((hperm.append_left _).append_left []).subperm
  life := (Lifetime.passKeeps pcbs).queues sched s h.life
  ranges := Ranges.passKeeps.queues sched s h.ranges
  left := by
    intro p hp
    rcases List.mem_append.mp hp with hp | hp
    · exact h.left p (List.mem_append_left _ hp)
    · exact h.left p (List.mem_append_right _ (hperm.mem_iff.mp hp))

theorem dispatched (h : Supplied policy threads pcbs late s) (hc : s.machine.Counted) {p : PcbPtr}
    {sched : Scheduler} {i j : Nat} {core : Core} (hcore : s.machine.core? i j = some core)
    (hspace : core.hasSpace = true) (hwf : sched.WF) (hsame : Scheduler.SameConfig s.sched sched)
    (hperm : s.sched.waiting ~ p :: sched.waiting) :
    Supplied policy threads pcbs late (s.dispatched sched p i j core) where
  safe := h.safe.dispatched hcore hspace hwf hsame.policy hperm
  life := (Lifetime.passKeeps pcbs).dispatch p sched i j core s hcore h.life
  ranges := Ranges.passKeeps.dispatch p sched i j core s hcore h.ranges
  left := by
    intro q hq hloaded hnot
    have hold := (s.places_dispatched hc hcore hspace hperm).mem_iff.mpr hq
    show 0 < ((s.started sched p).get q).ttl
    rw [Sys.started, PcbHeap.get_set_congr PCB.ttl _ (Lifetime.start_ttl ..)]
    exact h.left q hold hloaded hnot

/-- A process taken out of its queue, and in nobody's hands but the
scheduler's. -/
theorem take (h : Supplied policy threads pcbs late s) {p : PcbPtr} {t : Sys} (ht : Taken s p t) :
    HeapSafe policy threads [p] t ∧ Lifetime pcbs t ∧ Ranges t := by
  rw [ht.eq]
  exact ⟨h.safe.take ht.wf ht.same.policy ht.perm,
    (Lifetime.passKeeps pcbs).queues t.sched s h.life, Ranges.passKeeps.queues t.sched s h.ranges⟩

/-- The transfer takes a process from one queue and puts it on another. -/
theorem move (h : Supplied policy threads pcbs late s) {p : PcbPtr} {t u : Sys} (ht : Taken s p t)
    (hu : Filed t p u) : Supplied policy threads pcbs late u ∧ u.machine = s.machine := by
  have he : u = { s with sched := u.sched } := hu.eq.trans (by rw [ht.eq])
  refine ⟨?_, by rw [he]⟩
  rw [he]
  exact h.queue hu.wf (hu.same.policy.trans ht.same.policy) (hu.perm.trans ht.perm.symm)

end Supplied

/-! ## Preemption -/

/-- Nobody on a thread or in a queue has used his TTL up, and every thread in
use is counted. -/
def Replenished (policy : Policy) (threads : Nat) (pcbs : List PCB) (s : Sys) : Prop :=
  Supplied policy threads pcbs (fun _ => False) s ∧ s.machine.Compact

section
variable {policy : Policy} {threads : Nat} {pcbs : List PCB} {s : Sys}

theorem Replenished.dispatched (h : Replenished policy threads pcbs s) {p : PcbPtr}
    {sched : Scheduler} {i j : Nat} {core : Core} (hcore : s.machine.core? i j = some core)
    (hspace : core.hasSpace = true) (hwf : sched.WF) (hsame : Scheduler.SameConfig s.sched sched)
    (hperm : s.sched.waiting ~ p :: sched.waiting) :
    Replenished policy threads pcbs (s.dispatched sched p i j core) :=
  ⟨h.1.dispatched h.2.counted hcore hspace hwf hsame hperm,
    h.2.setCore hcore ((h.2.core hcore).assign hspace _ _)⟩

theorem Replenished.dispatch (h : Replenished policy threads pcbs s) (hpol : policy ≠ .bfs)
    (n : Nat) : Replenished policy threads pcbs (dispatchReady n s) :=
  dispatchReady_inv (fun _ h => h.1.safe.queues) (fun _ h => h.1.safe.samePolicy.trans_ne hpol)
    (fun _ _ _ _ _ _ h hcore hspace hwf hsame hperm _ =>
      h.dispatched hcore hspace hwf hsame hperm) n h

/-- Between a preemption and the dispatch that follows it. -/
def UnsettledSupply (threads : Nat) (pcbs : List PCB) (s : Sys) : Prop :=
  Supplied .preemptivePrio threads pcbs (fun _ => False) s ∧ s.machine.Stale ∧
    hasReadyProcesses s.sched = true

theorem replenished_transfer (threads : Nat) (pcbs : List PCB) :
    TransferInv (Replenished .preemptivePrio threads pcbs) where
  wf := fun _ h => h.1.safe.queues
  policy := fun _ h => h.1.safe.samePolicy
  move := fun _ _ _ _ h ht hu => by
    obtain ⟨hsupplied, hm⟩ := h.1.move ht hu
    exact ⟨hsupplied, hm ▸ h.2⟩

theorem unsettledSupply_transfer (threads : Nat) (pcbs : List PCB) :
    TransferInv (UnsettledSupply threads pcbs) where
  wf := fun _ h => h.1.safe.queues
  policy := fun _ h => h.1.safe.samePolicy
  move := fun _ _ _ _ h ht hu => by
    obtain ⟨hsupplied, hm⟩ := h.1.move ht hu
    refine ⟨hsupplied, hm ▸ h.2.1, hu.more ?_⟩
    have hpol := h.1.safe.samePolicy
    have hready := h.2.2
    rw [Scheduler.hasReadyProcesses_iff, if_pos hpol] at hready
    rw [Scheduler.hasReadyProcesses_iff, if_pos (ht.same.policy.trans hpol), ht.levels]
    exact hready

/-- Behind a preemption everybody is where he was, the victim gone and the saved
copy added. -/
theorem mem_places_preempted {t u : Sys} (hwf : t.sched.WF)
    (hpol : t.sched.policy = .preemptivePrio) (hc : t.machine.Compact) {p : PcbPtr} {i j k : Nat}
    {core : Core} (hcore : t.machine.core? i j = some core) (hk : k < core.currentPcbCount.toNat)
    (hu : Filed (t.preempted p i j k core) p u) {q : PcbPtr} (hq : q ∈ u.places)
    (hnext : q ≠ t.pcbs.next) : q ∈ t.running ∨ q ∈ p :: t.waiting := by
  rcases List.mem_append.mp hq with hq | hq
  · obtain ⟨v, hrun⟩ := hc.running_dropLegacy hcore hk
    have hmachine : u.machine = t.machine.setCore i j (core.dropLegacy k) :=
      congrArg Sys.machine hu.eq
    rw [Sys.running, hmachine] at hq
    exact .inl (hrun.mem_iff.mpr (List.mem_cons_of_mem v hq))
  · refine .inr ?_
    rcases List.mem_cons.mp (hu.perm.mem_iff.mp hq) with rfl | hq
    · exact List.mem_cons_self ..
    · have hoff := offered hwf hpol t.pcbs.next
        (t.pcbs.alloc (core.pcbs.getD k default).savedCopy).2
      rcases hoff.waiting with ⟨_, hw⟩ | ⟨_, hw⟩
      · exact List.mem_cons_of_mem p (hw ▸ hq)
      · exact List.mem_cons_of_mem p ((List.mem_cons.mp (hw.mem_iff.mp hq)).resolve_left hnext)

theorem get_filed_preempted {t u : Sys} {p : PcbPtr} {i j k : Nat} {core : Core}
    (hu : Filed (t.preempted p i j k core) p u) {q : PcbPtr} (hnext : q ≠ t.pcbs.next) :
    u.pcbs.get q = t.pcbs.get q := by
  have hcell : u.pcbs = (t.pcbs.alloc (core.pcbs.getD k default).savedCopy).2 :=
    congrArg Sys.pcbs hu.eq
  rw [hcell]
  simp [PcbHeap.get, PcbHeap.alloc, hnext]

/-- A preemption, whatever slot the victim is on: no loaded process loses TTL
by it, its copy is none of them, and the process it makes room for waits. -/
theorem Replenished.preempt (h : Replenished .preemptivePrio threads pcbs s) {p : PcbPtr} {t : Sys}
    (ht : Taken s p t) (hpre : t.Preempts p) :
    (preemptLowerPriorityProcesses t p).sched.WF ∧
    (preemptLowerPriorityProcesses t p).sched.policy = .preemptivePrio ∧
    (preemptLowerPriorityProcesses t p).sched.readyQueue.currentSize <
      (preemptLowerPriorityProcesses t p).sched.readyQueue.maxCapacity ∧
    ∀ u, Filed (preemptLowerPriorityProcesses t p) p u → UnsettledSupply threads pcbs u := by
  obtain ⟨hsupplied, hc⟩ := h
  obtain ⟨hhand, hlife, hranges⟩ := hsupplied.take ht
  have hpol : t.sched.policy = .preemptivePrio := hhand.samePolicy
  have hct : t.machine.Compact := by
    rw [ht.eq]
    exact hc
  have hsafe := hhand.preempt
  have hlife' := hlife.preempt p
  have hranges' := hranges.preempt p
  rcases preempt_cases hpol p with ⟨hno, _⟩ | ⟨_, i, j, k, core, hcore, hk, _, he⟩
  · exact absurd hpre.2 hno
  have hoff := offered ht.wf hpol t.pcbs.next
    (t.pcbs.alloc (core.pcbs.getD k default).savedCopy).2
  rw [he] at hsafe hlife' hranges' ⊢
  refine ⟨hoff.wf, hoff.same.policy.trans hpol, hoff.ready ▸ ht.room, fun u hu => ?_⟩
  refine ⟨⟨?_, ?_, ?_, fun q hq hloaded _ => ?_⟩, ?_, hu.ready ?_⟩
  · rw [hu.eq]
    exact hsafe.file hu.wf hu.same.policy hu.perm.subperm
  · rw [hu.eq]
    exact (Lifetime.passKeeps pcbs).queues u.sched _ hlife'
  · rw [hu.eq]
    exact Ranges.passKeeps.queues u.sched _ hranges'
  · have hnext : q ≠ t.pcbs.next := Nat.ne_of_lt (Nat.lt_of_lt_of_le hloaded hlife.next)
    have hmem := mem_places_preempted ht.wf hpol hct hcore hk hu hq hnext
    have hold : q ∈ s.places := by
      rcases hmem with hmem | hmem
      · rw [ht.eq] at hmem
        exact List.mem_append_left _ hmem
      · exact List.mem_append_right _ (ht.perm.mem_iff.mpr hmem)
    rw [get_filed_preempted hu hnext, ht.eq]
    exact hsupplied.left q hold hloaded not_false
  · rw [hu.eq]
    exact hct.stale hpre.full hcore hk
  · have hrange := hranges'.heap.get p
    simp only [Scheduler.levelOf]
    rw [if_neg (by unfold PCB.InRange at hrange; omega)]
    rfl

theorem UnsettledSupply.dispatch (h : UnsettledSupply threads pcbs s) :
    Replenished .preemptivePrio threads pcbs (dispatchReady s.sched.waitingCount s) := by
  obtain ⟨hsupplied, hstale, hready⟩ := h
  obtain ⟨p, sched, i, j, core, hcore, hspace, hwf, hsame, hperm, he, hcompact⟩ :=
    dispatch_stale hsupplied.safe.queues hsupplied.safe.samePolicy hstale hready
  rw [he]
  exact Replenished.dispatch
    ⟨hsupplied.dispatched hstale.counted hcore hspace hwf hsame hperm, hcompact⟩ (by decide) _

end

/-! ## A pass -/

/-- A pass leaves no loaded process on a hardware thread or in a queue whose
TTL is used up. Under BFS its removals have to fit. -/
theorem Supplied.pass {policy : Policy} {threads : Nat} {pcbs : List PCB} {s : Sys}
    (h : Supplied policy threads pcbs (· ∈ s.running) s) (hc : s.machine.Compact)
    (hfits : policy = .bfs → RemovalsFit s .pass) :
    Replenished policy threads pcbs (schedulerPass s) := by
  have hscan : Replenished policy threads pcbs (LocOS.scanMachine s) := h.scanMachine hc
  have hpol := hscan.1.safe.samePolicy
  cases policy with
  | roundRobin =>
      rw [schedulerPass_noTransfer (by rw [hpol]; decide)]
      exact hscan.dispatch (by decide) _
  | bfs =>
      rw [schedulerPass_noTransfer (by rw [hpol]; decide)]
      exact dispatchReady_bfs (fun _ ht => ht.1.safe.queues) (fun _ ht => ht.1.safe.samePolicy)
        (fun _ _ _ _ _ _ ht hcore hspace hwf hsame hperm =>
          ht.dispatched hcore hspace hwf hsame hperm) _ hscan (hfits rfl)
  | preemptivePrio =>
      rw [schedulerPass_prio hpol]
      have htrans := transferReady_inv (fun _ => True) (replenished_transfer threads pcbs)
        (unsettledSupply_transfer threads pcbs) (fun _ hu => hu.2.1.free)
        (fun _ _ _ ht htaken hpre _ => ht.preempt htaken hpre)
        (LocOS.scanMachine s).sched.readyQueue.currentSize hscan (transferOk_true _ _)
      rcases htrans with hsteady | hunsettled
      · exact hsteady.dispatch (by decide) _
      · exact hunsettled.dispatch

end LocOS
