import LocOS.Conservation

/-!
# Mirror

The legacy array `pcbs` of a core holds copies of the executing PCBs. As far
as PID and priority go the copies stay true to the PCBs, because assignment
writes both arrays and a removal shifts both: this is what preemption, which
reads the copies, relies on. Preemption itself shifts only the copies.
-/

namespace LocOS

open scoped List

/-! ## The copies of one core -/

/-- Slot by slot, the copy agrees with the process in what `π` shows. -/
structure Core.Copied {α : Type*} (π : PCB → α) (core : Core) (h : PcbHeap) : Prop where
  length : core.pcbs.length = core.numKernelThreads
  copy : ∀ (k : Nat) (p : PcbPtr), core.running[k]? = some p →
    ∃ c, core.pcbs[k]? = some c ∧ π c = π (h.get p)

/-- Slot by slot, the copy has the PID and the priority of the process. -/
structure Core.Mirrors (core : Core) (h : PcbHeap) : Prop where
  length : core.pcbs.length = core.numKernelThreads
  copy : ∀ (k : Nat) (p : PcbPtr), core.running[k]? = some p →
    ∃ c, core.pcbs[k]? = some c ∧ c.pid = (h.get p).pid ∧ c.priority = (h.get p).priority

namespace Core

section
variable {α : Type*} {π : PCB → α} {core : Core} {h : PcbHeap}

/-- The copies stay true while the PCBs show the same. -/
theorem Copied.congr {h' : PcbHeap} (hm : core.Copied π h)
    (hsame : ∀ p ∈ core.running, π (h'.get p) = π (h.get p)) : core.Copied π h' where
  length := hm.length
  copy := by
    intro k p hp
    obtain ⟨c, hc, hcopy⟩ := hm.copy k p hp
    exact ⟨c, hc, hcopy.trans (hsame p (List.mem_of_getElem? hp)).symm⟩

theorem copied_of_idle (hlen : core.pcbs.length = core.numKernelThreads)
    (hidle : core.running = []) : core.Copied π h where
  length := hlen
  copy := by
    intro k p hp
    rw [hidle] at hp
    cases hp

theorem createCore_copied (n : Nat) (h : PcbHeap) : (createCore n).Copied π h :=
  copied_of_idle (by simp [createCore, numKernelThreads]) (createCore_holds n).running_eq

theorem Copied.setThread (hm : core.Copied π h) {k : Nat} {hw : HardwareThread}
    (hrun : (core.setThread k hw).running = core.running) :
    (core.setThread k hw).Copied π h where
  length := by
    rw [setThread_numKernelThreads]
    exact hm.length
  copy := by
    rw [hrun]
    exact hm.copy

theorem Copied.assign {ps : List PcbPtr} (hm : core.Copied π h)
    (hc : core.Counts ps) (hspace : core.hasSpace = true) (p : PcbPtr) :
    (core.assign p (h.get p)).Copied π h where
  length := by
    rw [assign_numKernelThreads, ← hm.length]
    exact List.length_set ..
  copy := by
    intro k q hq
    have hlt : ps.length < core.pcbs.length := by
      rw [hm.length]
      exact hc.hasSpace_iff.mp hspace
    rw [(hc.assign hspace p _).running_eq] at hq
    simp only [Core.assign, hc.count, Int.toNat_natCast]
    rcases Nat.lt_or_ge k ps.length with hk | hk
    · rw [List.getElem?_append_left hk, ← hc.running_eq] at hq
      rw [List.getElem?_set_ne (by omega)]
      exact hm.copy k q hq
    · obtain rfl : k = ps.length := by
        have := (List.getElem?_eq_some_iff.mp hq).1
        simp only [List.length_append, List.length_singleton] at this
        omega
      obtain rfl : p = q := by simpa using hq
      exact ⟨h.get p, by simp [hlt], rfl⟩

theorem removeThread_pcbs (core : Core) (k : Nat) :
    (core.removeThread k).pcbs =
      Loop.up (fun l t => t.set (k + l) (t.getD (k + l + 1) default))
        ((core.currentPcbCount - 1).toNat - k) core.pcbs := by
  simp only [removeThread]
  rw [Loop.up_map Core.pcbs (fun l t => t.set (k + l) (t.getD (k + l + 1) default))
    fun _ _ => rfl]

theorem length_removeThread_pcbs (core : Core) (k : Nat) :
    (core.removeThread k).pcbs.length = core.pcbs.length := by
  rw [removeThread_pcbs, Loop.length_up_shift]

theorem Copied.removeThread {ps : List PcbPtr} (hm : core.Copied π h) (hh : core.Holds ps)
    {k : Nat} (hk : k < ps.length) : (core.removeThread k).Copied π h where
  length := by
    rw [removeThread_numKernelThreads, length_removeThread_pcbs]
    exact hm.length
  copy := by
    intro j p hp
    have hlen : ps.length ≤ core.pcbs.length := by
      rw [hm.length]
      exact hh.le
    have hlast : (core.currentPcbCount - 1).toNat = ps.length - 1 := by
      rw [hh.count]
      omega
    rw [(hh.removeThread hk).running_eq, List.getElem?_eraseIdx] at hp
    rw [removeThread_pcbs, hlast, Loop.getElem?_up_shift _ _ _ _ (by omega)]
    split at hp
    · rw [if_neg (by omega)]
      exact hm.copy j p (hh.running_eq ▸ hp)
    · have := (List.getElem?_eq_some_iff.mp hp).1
      rw [if_pos (by omega)]
      exact hm.copy (j + 1) p (hh.running_eq ▸ hp)

end

/-! ### PID and priority -/

theorem mirrors_iff {core : Core} {h : PcbHeap} :
    core.Mirrors h ↔ core.Copied (fun pcb => (pcb.pid, pcb.priority)) h := by
  rw [iff_def]
  exact ⟨fun hm => ⟨hm.length, by simpa using hm.copy⟩,
    fun hm => ⟨hm.length, by simpa using hm.copy⟩⟩

/-- The copies stay true while the PCBs keep PID and priority. -/
theorem Mirrors.keeps {core : Core} {h h' : PcbHeap} (hm : core.Mirrors h)
    (hk : ∀ p ∈ core.running, h.Keeps h' p) : core.Mirrors h' := by
  refine mirrors_iff.mpr ((mirrors_iff.mp hm).congr fun p hp => ?_)
  rw [(hk p hp).pid, (hk p hp).priority]

theorem createCore_mirrors (n : Nat) (h : PcbHeap) : (createCore n).Mirrors h :=
  mirrors_iff.mpr (createCore_copied n h)

theorem Mirrors.setThread {core : Core} {h : PcbHeap} (hm : core.Mirrors h) {k : Nat}
    {hw : HardwareThread} (hrun : (core.setThread k hw).running = core.running) :
    (core.setThread k hw).Mirrors h :=
  mirrors_iff.mpr ((mirrors_iff.mp hm).setThread hrun)

theorem Mirrors.assign {core : Core} {h : PcbHeap} {ps : List PcbPtr} (hm : core.Mirrors h)
    (hc : core.Counts ps) (hspace : core.hasSpace = true) (p : PcbPtr) :
    (core.assign p (h.get p)).Mirrors h :=
  mirrors_iff.mpr ((mirrors_iff.mp hm).assign hc hspace p)

theorem Mirrors.removeThread {core : Core} {h : PcbHeap} {ps : List PcbPtr}
    (hm : core.Mirrors h) (hh : core.Holds ps) {k : Nat} (hk : k < ps.length) :
    (core.removeThread k).Mirrors h :=
  mirrors_iff.mpr ((mirrors_iff.mp hm).removeThread hh hk)

/-! ### Preemption of the last slot -/

theorem dropLegacy_hwThreads (core : Core) (k : Nat) :
    (core.dropLegacy k).hwThreads = core.hwThreads := by
  simp only [dropLegacy]
  rw [Loop.up_const Core.hwThreads]
  exact fun _ _ => rfl

/-- Preempting the last counted slot leaves that slot stale. -/
theorem Holds.dropLegacy {core : Core} {ps : List PcbPtr} {v : PcbPtr}
    (h : core.Holds (ps ++ [v])) (k : Nat) : (core.dropLegacy k).Counts ps where
  count := by
    show core.currentPcbCount - 1 = _
    rw [h.count, List.length_append, List.length_singleton]
    omega
  le := by
    have hle := h.le
    rw [List.length_append, List.length_singleton] at hle
    rw [numKernelThreads, dropLegacy_hwThreads]
    exact Nat.le_of_succ_le hle
  slot := by
    intro j p hj
    rw [dropLegacy_hwThreads]
    refine h.counts.slot j p ?_
    rw [List.getElem?_append_left (List.getElem?_eq_some_iff.mp hj).1]
    exact hj

theorem Mirrors.dropLegacy {core : Core} {h : PcbHeap} {ps : List PcbPtr} {v : PcbPtr}
    (hm : core.Mirrors h) (hh : core.Holds (ps ++ [v])) :
    (core.dropLegacy ps.length).Mirrors h := by
  have hpcbs : (core.dropLegacy ps.length).pcbs = core.pcbs := by
    have hlast : (core.currentPcbCount - 1).toNat - ps.length = 0 := by
      rw [hh.count, List.length_append, List.length_singleton]
      omega
    simp only [Core.dropLegacy, hlast, Loop.up_zero]
  refine ⟨?_, fun k p hp => ?_⟩
  · rw [hpcbs, numKernelThreads, dropLegacy_hwThreads]
    exact hm.length
  · rw [(hh.dropLegacy _).running_eq] at hp
    rw [hpcbs]
    refine hm.copy k p ?_
    rw [hh.running_eq, List.getElem?_append_left (List.getElem?_eq_some_iff.mp hp).1]
    exact hp

end Core

/-! ## The copies of the machine -/

/-- The account of a state together with true copies on every core. -/
structure Placed (pids : List Int) (s : Sys) : Prop where
  conserved : Conserved pids s
  policy : s.sched.policy = .preemptivePrio
  inRange : s.pcbs.InRange
  mirrors : ∀ core ∈ s.machine.cores, core.Mirrors s.pcbs

namespace Placed

variable {pids : List Int} {s : Sys}

theorem mirrors_setCore (h : Placed pids s) {i j : Nat} {old new : Core}
    (hc : s.machine.core? i j = some old) {pcbs : PcbHeap} (hnew : new.Mirrors pcbs)
    (hkeeps : ∀ core ∈ (s.machine.setCore i j new).cores, core ∈ s.machine.cores →
      ∀ p ∈ core.running, s.pcbs.Keeps pcbs p) :
    ∀ core ∈ (s.machine.setCore i j new).cores, core.Mirrors pcbs := by
  intro core hcore
  rcases Machine.mem_setCore hc hcore with rfl | hold
  · exact hnew
  · exact (h.mirrors core hold).keeps (hkeeps core hcore hold)

theorem live_running (h : Placed pids s) {core : Core} (hc : core ∈ s.machine.cores)
    {p : PcbPtr} (hp : p ∈ core.running) : s.pcbs.Live p :=
  h.conserved.live p (List.mem_append_left _ (List.mem_flatMap.mpr ⟨core, hc, hp⟩))

/-- A step that leaves the machine alone. -/
theorem congr (h : Placed pids s) {s' : Sys} (hcons : Conserved pids s')
    (hpol : s'.sched.policy = s.sched.policy) (hrange : s'.pcbs.InRange)
    (hm : s'.machine = s.machine)
    (hkeeps : ∀ p, s.pcbs.Live p → s.pcbs.Keeps s'.pcbs p) : Placed pids s' where
  conserved := hcons
  policy := hpol.trans h.policy
  inRange := hrange
  mirrors := by
    intro core hcore
    rw [hm] at hcore
    exact (h.mirrors core hcore).keeps fun p hp => hkeeps p (h.live_running hcore hp)

theorem tickThread (h : Placed pids s) (hc : s.machine.Compact) (i j k : Nat) :
    Placed pids (tickThread i j k s) := by
  have hcons := h.conserved.tickThread hc i j k
  rcases tickThread_cases i j k s with
    ⟨_, he⟩ | ⟨core, hw, p, _, _, he⟩ | ⟨core, hw, p, pm, base, hslot, _, _, _, he⟩
  · rwa [he]
  · rw [he] at hcons ⊢
    exact h.congr hcons rfl (h.inRange.set (PCB.decrementTtl_priority _)) rfl
      fun q hq => PcbHeap.keeps_age hq
  · obtain ⟨hcore, hk, hp⟩ := Machine.slot?_eq_some.mp hslot
    have hthread := (hc.core hcore).setThread hk (executeInstruction
      (fetched (s.exec hw pm p) p) p (fetch (s.exec hw pm p))).hw
      (executeInstruction_hw_pcb ..)
    have hkeeps : ∀ q, s.pcbs.Live q → s.pcbs.Keeps (executeInstruction
        (fetched (s.exec hw pm p) p) p (fetch (s.exec hw pm p))).pcbs q := by
      intro q hq
      have hage := PcbHeap.keeps_age (p := p) hq
      exact hage.trans (keeps_executeInstruction (s := fetched (s.exec hw pm p) p) hage.live)
    have hmem := Machine.mem_cores_of_core? hcore
    rw [he] at hcons ⊢
    refine ⟨hcons, h.policy,
      inRange_executeInstruction (h.inRange.set (PCB.decrementTtl_priority _)),
      h.mirrors_setCore hcore ?_ fun c _ hold q hq => hkeeps q (h.live_running hold hq)⟩
    exact ((h.mirrors core hmem).keeps fun q hq =>
      hkeeps q (h.live_running hmem hq)).setThread hthread.running_eq

theorem charge (h : Placed pids s) (p : PcbPtr) : Placed pids (s.charge p) :=
  h.congr (h.conserved.charge p) rfl (h.inRange.set rfl) rfl fun _ hq => PcbHeap.keeps_charge hq

/-- A removal, with the heap keeping every process that stays. -/
theorem removed (h : Placed pids s) (hnd : pids.Nodup) (hc : s.machine.Compact) {i j k : Nat}
    {core : Core} {hw : HardwareThread} {p : PcbPtr}
    (hslot : s.machine.slot? i j k = some (core, hw, p)) {pcbs : PcbHeap}
    (hkeeps : ∀ q, q ≠ p → s.pcbs.Live q → s.pcbs.Keeps pcbs q) :
    ∀ c ∈ (s.machine.setCore i j (core.removeThread k)).cores, c.Mirrors pcbs := by
  obtain ⟨hcore, hk, hp⟩ := Machine.slot?_eq_some.mp hslot
  have hh := hc.core hcore
  have hget := hh.busy hk hp
  have hlt := (List.getElem?_eq_some_iff.mp hget).1
  have hmem := Machine.mem_cores_of_core? hcore
  have hne : ∀ c ∈ (s.machine.setCore i j (core.removeThread k)).cores, ∀ q ∈ c.running,
      q ≠ p := fun c hcmem q hq =>
    ((Machine.mem_running_removeThread hc (h.conserved.nodup_running hnd) hslot).mp
      (List.mem_flatMap.mpr ⟨c, hcmem, hq⟩)).2
  refine h.mirrors_setCore hcore ?_ fun c hcmem hold q hq =>
    hkeeps q (hne c hcmem q hq) (h.live_running hold hq)
  have hself := Machine.mem_cores_of_core?
    (Machine.core?_setCore_self (core.removeThread k) hcore)
  refine ((h.mirrors core hmem).removeThread hh hlt).keeps fun q hq =>
    hkeeps q (hne _ hself q hq) (h.live_running hmem ?_)
  rw [(hh.removeThread hlt).running_eq] at hq
  exact List.mem_of_mem_eraseIdx hq

theorem scanThread (h : Placed pids s) (hnd : pids.Nodup) (hc : s.machine.Compact)
    {i j k : Nat} {core : Core} {hw : HardwareThread} {p : PcbPtr}
    (hslot : s.machine.slot? i j k = some (core, hw, p)) :
    Placed pids (scanThread i j k s) := by
  have hcons := h.conserved.scanThread hnd hc hslot
  have hcharge := h.charge p
  rcases scanThread_cases hslot with ⟨_, he⟩ | ⟨_, _, he⟩ | ⟨_, _, he⟩
  · rw [he] at hcons ⊢
    exact ⟨hcons, h.policy, hcharge.inRange.destroyPcb p,
      hcharge.removed hnd hc hslot fun q hq hlive => PcbHeap.keeps_destroyPcb hq hlive⟩
  · rw [he] at hcons ⊢
    have hmir := hcharge.removed hnd hc hslot fun q _ hlive =>
      PcbHeap.keeps_set (expiredPcb_pid (s.charge p) hw p) (expiredPcb_priority ..)
        (expiredPcb_mm ..) hlive
    have hrange := hcharge.inRange.set (expiredPcb_priority (s.charge p) hw p)
    rcases expireThread_cases hcharge.conserved.queues i j k core hw p with
      ⟨sched, _, _, hsame, _, hexp⟩ | ⟨_, hexp⟩
    · rw [hexp] at hcons ⊢
      exact ⟨hcons, hsame.policy.trans h.policy, hrange, hmir⟩
    · rw [hexp] at hcons ⊢
      exact ⟨hcons, h.policy, hrange, hmir⟩
  · rw [he]
    exact hcharge

theorem dispatched (h : Placed pids s) (hc : s.machine.Counted) {p : PcbPtr}
    {sched : Scheduler} {i j : Nat} {core : Core} (hcore : s.machine.core? i j = some core)
    (hspace : core.hasSpace = true) (hwf : sched.WF)
    (hsame : Scheduler.SameConfig s.sched sched) (hperm : s.sched.waiting ~ p :: sched.waiting) :
    Placed pids (s.dispatched sched p i j core) := by
  have hkeeps : ∀ q, s.pcbs.Live q → s.pcbs.Keeps (s.started sched p) q := fun q hq =>
    PcbHeap.keeps_set (PCB.start_pid ..) (PCB.start_priority ..) (PCB.start_mm ..) hq
  have hmem := Machine.mem_cores_of_core? hcore
  refine ⟨h.conserved.dispatched hc hcore hspace hwf hsame hperm,
    hsame.policy.trans h.policy, h.inRange.set (PCB.start_priority ..),
    h.mirrors_setCore hcore ?_ fun c _ hold q hq => hkeeps q (h.live_running hold hq)⟩
  exact ((h.mirrors core hmem).keeps fun q hq =>
    hkeeps q (h.live_running hmem hq)).assign (hc.core hcore) hspace p

end Placed
end LocOS
