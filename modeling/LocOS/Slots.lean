import LocOS.Scheduler
import LocOS.Lib.Split
import Mathlib.Data.List.Nodup

/-!
# Slots

Which processes a machine executes. `Core.Holds core ps` says that the
hardware threads of a core point to `ps` in order and to nothing after
them: the count, the null pointers and the list of processes agree. Each
operation of the scheduler on a core is a list operation on `ps`.
-/

namespace LocOS

/-! ## One core -/

namespace Core

/-- The occupied slots are the first ones, as many as the count says. -/
structure Holds (core : Core) (ps : List PcbPtr) : Prop where
  count : core.currentPcbCount = ps.length
  le : ps.length ≤ core.numKernelThreads
  slot : ∀ (k : Nat) (hw : HardwareThread), core.hwThreads[k]? = some hw → hw.pcb = ps[k]?

/-- The slots below the count point to `ps`; the others may be stale. -/
structure Counts (core : Core) (ps : List PcbPtr) : Prop where
  count : core.currentPcbCount = ps.length
  le : ps.length ≤ core.numKernelThreads
  slot : ∀ (k : Nat) (p : PcbPtr), ps[k]? = some p →
    ∃ hw, core.hwThreads[k]? = some hw ∧ hw.pcb = some p

/-- The processes on the slots below `current_pcb_count`. -/
def running (core : Core) : List PcbPtr :=
  (List.range core.currentPcbCount.toNat).filterMap fun k =>
    (core.hwThreads[k]?).bind (·.pcb)

/-- Each core has its occupied slots in front. -/
def Compact (core : Core) : Prop := ∃ ps, core.Holds ps

theorem Holds.counts {core : Core} {ps : List PcbPtr} (h : core.Holds ps) :
    core.Counts ps where
  count := h.count
  le := h.le
  slot := by
    intro k p hk
    have hlt : k < core.hwThreads.length :=
      Nat.lt_of_lt_of_le (List.getElem?_eq_some_iff.mp hk).1 h.le
    exact ⟨_, List.getElem?_eq_getElem hlt,
      (h.slot k _ (List.getElem?_eq_getElem hlt)).trans hk⟩

/-- On a full core no slot is left to be stale. -/
theorem Counts.holds {core : Core} {ps : List PcbPtr} (h : core.Counts ps)
    (hfull : ps.length = core.numKernelThreads) : core.Holds ps where
  count := h.count
  le := h.le
  slot := by
    intro k hw hk
    have hlt : k < ps.length := by
      rw [hfull]
      exact (List.getElem?_eq_some_iff.mp hk).1
    obtain ⟨hw', hk', hp⟩ := h.slot k _ (List.getElem?_eq_getElem hlt)
    obtain rfl : hw = hw' := Option.some.inj (hk.symm.trans hk')
    rw [hp, List.getElem?_eq_getElem hlt]

theorem filterMap_range_getElem? {α : Type*} (l : List α) :
    (List.range l.length).filterMap (fun k => l[k]?) = l := by
  induction l with
  | nil => rfl
  | cons a l ih =>
      rw [List.length_cons, List.range_succ_eq_map, List.filterMap_cons, List.filterMap_map]
      simpa using ih

theorem Counts.running_eq {core : Core} {ps : List PcbPtr} (h : core.Counts ps) :
    core.running = ps := by
  have hbody : ∀ k ∈ List.range ps.length,
      ((core.hwThreads[k]?).bind (·.pcb)) = ps[k]? := by
    intro k hk
    have hget := List.getElem?_eq_getElem (List.mem_range.mp hk)
    obtain ⟨hw, hhw, hp⟩ := h.slot k _ hget
    rw [hhw, hget]
    exact hp
  rw [running, h.count, Int.toNat_natCast, List.filterMap_congr hbody,
    filterMap_range_getElem?]

theorem Holds.running_eq {core : Core} {ps : List PcbPtr} (h : core.Holds ps) :
    core.running = ps := h.counts.running_eq

/-- A busy slot is a counted one. -/
theorem Holds.busy {core : Core} {ps : List PcbPtr} (h : core.Holds ps) {k : Nat}
    {hw : HardwareThread} {p : PcbPtr} (hk : core.hwThreads[k]? = some hw)
    (hp : hw.pcb = some p) : ps[k]? = some p :=
  (h.slot k hw hk).symm.trans hp

theorem hasSpace_iff {core : Core} :
    core.hasSpace = true ↔ core.currentPcbCount < (core.numKernelThreads : Int) :=
  decide_eq_true_iff

theorem Counts.hasSpace_iff {core : Core} {ps : List PcbPtr} (h : core.Counts ps) :
    core.hasSpace = true ↔ ps.length < core.numKernelThreads := by
  rw [Core.hasSpace_iff, h.count]
  omega

/-- A core with space has a thread at the index of its count. -/
theorem exists_freeThread {core : Core} (hcount : 0 ≤ core.currentPcbCount)
    (hspace : core.hasSpace = true) :
    ∃ hw, core.hwThreads[core.currentPcbCount.toNat]? = some hw := by
  have hlt := Core.hasSpace_iff.mp hspace
  rw [numKernelThreads] at hlt
  exact ⟨_, List.getElem?_eq_getElem (by omega)⟩

theorem createCore_holds (n : Nat) : (createCore n).Holds [] where
  count := rfl
  le := Nat.zero_le _
  slot := by
    intro k hw hk
    rw [List.eq_of_mem_replicate (List.mem_of_getElem? hk)]
    rfl

/-- The count is in range, and the occupied slots are the counted ones. -/
theorem Holds.bounds {core : Core} {ps : List PcbPtr} (h : core.Holds ps) :
    0 ≤ core.currentPcbCount ∧ core.currentPcbCount ≤ core.numKernelThreads ∧
      ∀ (k : Nat) (hw : HardwareThread), core.hwThreads[k]? = some hw →
        (hw.pcb.isSome ↔ (k : Int) < core.currentPcbCount) := by
  have hle := h.le
  refine ⟨by rw [h.count]; omega, by rw [h.count]; omega, fun k hw hk => ?_⟩
  rw [h.slot k hw hk, h.count]
  simp

/-- Who runs on a core is on one of its threads. -/
theorem mem_running {core : Core} {p : PcbPtr} (h : p ∈ core.running) :
    ∃ hw ∈ core.hwThreads, hw.pcb = some p := by
  obtain ⟨k, _, hk⟩ := List.mem_filterMap.mp h
  obtain ⟨hw, hget, hp⟩ := Option.bind_eq_some_iff.mp hk
  exact ⟨hw, List.mem_of_getElem? hget, hp⟩

/-! ### Assignment -/

@[simp] theorem assign_numKernelThreads (core : Core) (p : PcbPtr) (pcb : PCB) :
    (core.assign p pcb).numKernelThreads = core.numKernelThreads :=
  List.length_modify ..

theorem Counts.assign {core : Core} {ps : List PcbPtr} (h : core.Counts ps)
    (hspace : core.hasSpace = true) (p : PcbPtr) (pcb : PCB) :
    (core.assign p pcb).Counts (ps ++ [p]) where
  count := by
    show core.currentPcbCount + 1 = _
    rw [h.count, List.length_append]
    rfl
  le := by
    rw [assign_numKernelThreads, List.length_append, List.length_singleton]
    exact h.hasSpace_iff.mp hspace
  slot := by
    intro k q hk
    have hlt : ps.length < core.hwThreads.length := h.hasSpace_iff.mp hspace
    simp only [Core.assign, h.count, Int.toNat_natCast]
    rcases Nat.lt_trichotomy k ps.length with hlt' | rfl | hgt
    · rw [List.getElem?_append_left hlt'] at hk
      rw [List.getElem?_modify_ne _ _ (by omega)]
      exact h.slot k q hk
    · obtain rfl : p = q := by simpa using hk
      exact ⟨_, by rw [List.getElem?_modify_eq, List.getElem?_eq_getElem hlt]; rfl, rfl⟩
    · rw [List.getElem?_eq_none] at hk
      · cases hk
      · simp only [List.length_append, List.length_singleton]
        omega

theorem Holds.assign {core : Core} {ps : List PcbPtr} (h : core.Holds ps)
    (hspace : core.hasSpace = true) (p : PcbPtr) (pcb : PCB) :
    (core.assign p pcb).Holds (ps ++ [p]) where
  count := (h.counts.assign hspace p pcb).count
  le := (h.counts.assign hspace p pcb).le
  slot := by
    intro k hw hk
    rcases Nat.lt_or_ge k (ps ++ [p]).length with hlt | hge
    · obtain ⟨hw', hk', hp⟩ :=
        (h.counts.assign hspace p pcb).slot k _ (List.getElem?_eq_getElem hlt)
      obtain rfl : hw = hw' := Option.some.inj (hk.symm.trans hk')
      rw [hp, List.getElem?_eq_getElem hlt]
    · have hle : ps.length + 1 ≤ k := by simpa using hge
      simp only [Core.assign, h.count, Int.toNat_natCast] at hk
      rw [List.getElem?_modify_ne _ _ (by omega)] at hk
      rw [h.slot k hw hk, List.getElem?_eq_none hge, List.getElem?_eq_none (by omega)]

theorem mem_assign_hwThreads {core : Core} {p : PcbPtr} {pcb : PCB} {hw : HardwareThread}
    (h : hw ∈ (core.assign p pcb).hwThreads) :
    hw ∈ core.hwThreads ∨ ∃ hw' : HardwareThread, hw = hw'.load p pcb :=
  List.mem_modify h

/-! ### Removal -/

/-- The last slot's `pcb` and `PTBR` are reset after the shift. -/
def clearLast (hw : HardwareThread) : HardwareThread := { hw with pcb := none, ptbr := none }

theorem removeThread_hwThreads (core : Core) (k : Nat) :
    (core.removeThread k).hwThreads =
      (Loop.up (fun l t => t.set (k + l) (t.getD (k + l + 1) idleThread))
        ((core.currentPcbCount - 1).toNat - k)
        (core.hwThreads.modify k HardwareThread.clear)).modify
        (core.currentPcbCount - 1).toNat clearLast := by
  simp only [removeThread]
  rw [Loop.up_map Core.hwThreads
    (fun l t => t.set (k + l) (t.getD (k + l + 1) idleThread)) fun _ _ => rfl]
  rfl

@[simp] theorem removeThread_numKernelThreads (core : Core) (k : Nat) :
    (core.removeThread k).numKernelThreads = core.numKernelThreads := by
  rw [numKernelThreads, removeThread_hwThreads, List.length_modify, Loop.length_up_shift,
    List.length_modify]
  rfl

/-- After a removal every thread is as before, or empty. -/
theorem mem_removeThread_hwThreads {core : Core} {k : Nat} {hw : HardwareThread}
    (h : hw ∈ (core.removeThread k).hwThreads) :
    hw ∈ core.hwThreads ∨ (hw.pcb = none ∧ hw.ptbr = none) := by
  rw [removeThread_hwThreads] at h
  rcases List.mem_modify h with h | ⟨hw', rfl⟩
  · refine Loop.up_inv (fun _ (t : List HardwareThread) => ∀ hw ∈ t, hw ∈ core.hwThreads ∨
      (hw.pcb = none ∧ hw.ptbr = none)) ?_ ?_ hw h
    · intro hw hmem
      rcases List.mem_modify hmem with hmem | ⟨hw', rfl⟩
      · exact .inl hmem
      · exact .inr ⟨rfl, rfl⟩
    · intro i t _ ht hw hmem
      rcases List.mem_or_eq_of_mem_set hmem with hmem | rfl
      · exact ht hw hmem
      · rw [List.getD_eq_getElem?_getD]
        cases hget : t[k + i + 1]? with
        | none => exact .inr ⟨rfl, rfl⟩
        | some hw => exact ht hw (List.mem_of_getElem? hget)
  · exact .inr ⟨rfl, rfl⟩

/-- The slots after a removal: those below stay, those above move down one,
and the last counted one is empty. -/
theorem Holds.removeThread_slot {core : Core} {ps : List PcbPtr} (h : core.Holds ps)
    {k : Nat} (hk : k < ps.length) {j : Nat} {hw : HardwareThread}
    (hj : (core.removeThread k).hwThreads[j]? = some hw) :
    (j < k ∧ core.hwThreads[j]? = some hw) ∨
    (k ≤ j ∧ j + 1 < ps.length ∧ core.hwThreads[j + 1]? = some hw) ∨
    (j + 1 = ps.length ∧ hw.pcb = none ∧ hw.ptbr = none) ∨
    (ps.length ≤ j ∧ core.hwThreads[j]? = some hw) := by
  have hlast : (core.currentPcbCount - 1).toNat = ps.length - 1 := by
    rw [h.count]
    omega
  have hlen : k + (ps.length - 1 - k) < (core.hwThreads.modify k HardwareThread.clear).length := by
    rw [List.length_modify]
    have : ps.length ≤ core.hwThreads.length := h.le
    omega
  rw [removeThread_hwThreads, hlast] at hj
  by_cases hjl : ps.length - 1 = j
  · right; right; left
    rw [← hjl, List.getElem?_modify_eq] at hj
    obtain ⟨hw', _, rfl⟩ := Option.map_eq_some_iff.mp hj
    exact ⟨by omega, rfl, rfl⟩
  · rw [List.getElem?_modify_ne _ _ hjl, Loop.getElem?_up_shift _ _ _ _ hlen] at hj
    by_cases hin : k ≤ j ∧ j < k + (ps.length - 1 - k)
    · right; left
      rw [if_pos hin, List.getElem?_modify_ne _ _ (by omega)] at hj
      exact ⟨hin.1, by omega, hj⟩
    · rw [if_neg hin] at hj
      rcases Nat.lt_or_ge j k with hjk | hjk
      · left
        rw [List.getElem?_modify_ne _ _ (by omega)] at hj
        exact ⟨hjk, hj⟩
      · right; right; right
        rw [List.getElem?_modify_ne _ _ (by omega)] at hj
        exact ⟨by omega, hj⟩

theorem Holds.removeThread {core : Core} {ps : List PcbPtr} (h : core.Holds ps)
    {k : Nat} (hk : k < ps.length) : (core.removeThread k).Holds (ps.eraseIdx k) where
  count := by
    show core.currentPcbCount - 1 = _
    rw [h.count, List.length_eraseIdx_of_lt hk]
    omega
  le := by
    rw [removeThread_numKernelThreads, List.length_eraseIdx_of_lt hk]
    exact Nat.le_trans (Nat.sub_le _ _) h.le
  slot := by
    intro j hw hj
    rw [List.getElem?_eraseIdx]
    rcases h.removeThread_slot hk hj with
      ⟨hjk, hold⟩ | ⟨hkj, hlt, hold⟩ | ⟨hje, hpcb, _⟩ | ⟨hge, hold⟩
    · rw [if_pos hjk]
      exact h.slot j hw hold
    · rw [if_neg (by omega)]
      exact h.slot (j + 1) hw hold
    · rw [hpcb, if_neg (by omega), List.getElem?_eq_none (by omega)]
    · rw [h.slot j hw hold, List.getElem?_eq_none hge]
      split
      · rfl
      · rw [List.getElem?_eq_none (by omega)]

end Core

/-! ## The machine -/

namespace Machine

/-- The processes on the counted slots of every core, in CPU, core and
thread order. -/
def running (m : Machine) : List PcbPtr := m.cores.flatMap Core.running

/-- Every core has its occupied slots in front. -/
def Compact (m : Machine) : Prop := ∀ core ∈ m.cores, core.Compact

/-- Every core has its counted slots occupied. -/
def Counted (m : Machine) : Prop := ∀ core ∈ m.cores, ∃ ps, core.Counts ps

/-- No slot of any core is occupied. -/
def Idle (m : Machine) : Prop := ∀ core ∈ m.cores, core.Holds []

/-- A core, and the machine around it. -/
theorem split_core {m : Machine} {i j : Nat} {core : Core} (h : m.core? i j = some core) :
    ∃ pre post, m.cores = pre ++ core :: post ∧
      ∀ core', (m.setCore i j core').cores = pre ++ core' :: post := by
  obtain ⟨cpu, hcpu, hcore⟩ := Option.bind_eq_some_iff.mp h
  obtain ⟨A, B, hA, hmod⟩ := List.split_modify hcpu
  obtain ⟨C, D, hC, hset⟩ := List.split_set hcore
  refine ⟨A.flatMap CPU.cores ++ C, D ++ B.flatMap CPU.cores, ?_, fun core' => ?_⟩
  · rw [cores, hA, List.flatMap_append, List.flatMap_cons, hC]
    simp
  · rw [cores, setCore, hmod]
    simp [hset core']

theorem mem_cores_of_core? {m : Machine} {i j : Nat} {core : Core}
    (h : m.core? i j = some core) : core ∈ m.cores := by
  obtain ⟨pre, post, hm, _⟩ := split_core h
  rw [hm]
  simp

theorem mem_cores_iff {m : Machine} {core : Core} :
    core ∈ m.cores ↔ ∃ i j, m.core? i j = some core := by
  constructor
  · intro h
    obtain ⟨cpu, hcpu, hcore⟩ := List.mem_flatMap.mp h
    obtain ⟨i, hi⟩ := List.getElem?_of_mem hcpu
    obtain ⟨j, hj⟩ := List.getElem?_of_mem hcore
    exact ⟨i, j, Option.bind_eq_some_iff.mpr ⟨cpu, hi, hj⟩⟩
  · rintro ⟨i, j, h⟩
    exact mem_cores_of_core? h

/-- After a write to one core, every core is the one written or an old one. -/
theorem mem_setCore {m : Machine} {i j : Nat} {old new core : Core}
    (h : m.core? i j = some old) (hmem : core ∈ (m.setCore i j new).cores) :
    core = new ∨ core ∈ m.cores := by
  obtain ⟨pre, post, hm, hset⟩ := split_core h
  rw [hset, List.mem_append, List.mem_cons] at hmem
  rw [hm, List.mem_append, List.mem_cons]
  tauto

theorem core?_setCore_self {m : Machine} {i j : Nat} {old : Core} (new : Core)
    (h : m.core? i j = some old) : (m.setCore i j new).core? i j = some new := by
  obtain ⟨cpu, hcpu, hcore⟩ := Option.bind_eq_some_iff.mp h
  obtain ⟨hj, _⟩ := List.getElem?_eq_some_iff.mp hcore
  simp [core?, setCore, hcpu, hj]

theorem core?_setCore_ne (m : Machine) {i j i' j' : Nat} (new : Core)
    (hne : (i', j') ≠ (i, j)) : (m.setCore i j new).core? i' j' = m.core? i' j' := by
  by_cases hi : i = i'
  · subst hi
    have hj : j ≠ j' := fun h => hne (by rw [h])
    cases hcpu : m.cpus[i]? <;> simp [core?, setCore, hcpu, hj]
  · simp [core?, setCore, hi]

theorem mem_coreIndices {m : Machine} {i j : Nat} :
    (i, j) ∈ m.coreIndices ↔ (m.core? i j).isSome := by
  simp only [coreIndices, List.mem_flatMap, List.mem_map, List.mem_range, Prod.exists,
    Prod.mk.injEq, List.mem_zipIdx_iff_getElem?, core?, Option.isSome_bind]
  constructor
  · rintro ⟨cpu, i', hcpu, j', hj, rfl, rfl⟩
    simp [hcpu, hj]
  · intro h
    cases hcpu : m.cpus[i]? with
    | none => simp [hcpu] at h
    | some cpu =>
        exact ⟨cpu, i, hcpu, j, by simpa [hcpu] using h, rfl, rfl⟩

/-! ### Busy slots -/

theorem slot?_eq_some {m : Machine} {i j k : Nat} {core : Core} {hw : HardwareThread}
    {p : PcbPtr} :
    m.slot? i j k = some (core, hw, p) ↔
      m.core? i j = some core ∧ core.hwThreads[k]? = some hw ∧ hw.pcb = some p := by
  simp only [slot?, Option.bind_eq_some_iff, Option.map_eq_some_iff, Prod.mk.injEq]
  constructor
  · rintro ⟨core', hcore, hw', hhw, p', hp, rfl, rfl, rfl⟩
    exact ⟨hcore, hhw, hp⟩
  · rintro ⟨hcore, hhw, hp⟩
    exact ⟨core, hcore, hw, hhw, p, hp, rfl, rfl, rfl⟩

/-! ### Compactness and the running processes -/

theorem Compact.core {m : Machine} (h : m.Compact) {i j : Nat} {core : Core}
    (hc : m.core? i j = some core) : core.Holds core.running := by
  obtain ⟨ps, hps⟩ := h core (mem_cores_of_core? hc)
  rwa [hps.running_eq]

theorem Compact.counted {m : Machine} (h : m.Compact) : m.Counted := by
  intro core hc
  obtain ⟨ps, hps⟩ := h core hc
  exact ⟨ps, hps.counts⟩

theorem Counted.core {m : Machine} (h : m.Counted) {i j : Nat} {core : Core}
    (hc : m.core? i j = some core) : core.Counts core.running := by
  obtain ⟨ps, hps⟩ := h core (mem_cores_of_core? hc)
  rwa [hps.running_eq]

theorem Counted.setCore {m : Machine} (h : m.Counted) {i j : Nat} {old new : Core}
    {ps : List PcbPtr} (hc : m.core? i j = some old) (hnew : new.Counts ps) :
    (m.setCore i j new).Counted := by
  intro core hmem
  rcases mem_setCore hc hmem with rfl | hold
  · exact ⟨ps, hnew⟩
  · exact h core hold

theorem Compact.setCore {m : Machine} (h : m.Compact) {i j : Nat} {old new : Core}
    {ps : List PcbPtr} (hc : m.core? i j = some old) (hnew : new.Holds ps) :
    (m.setCore i j new).Compact := by
  intro core hmem
  rcases mem_setCore hc hmem with rfl | hold
  · exact ⟨ps, hnew⟩
  · exact h core hold

/-- The processes of a rewritten core replace those it had. -/
theorem count_running_setCore {m : Machine} {i j : Nat} {old : Core}
    (hc : m.core? i j = some old) (new : Core) (p : PcbPtr) :
    (m.setCore i j new).running.count p + old.running.count p =
      m.running.count p + new.running.count p := by
  obtain ⟨pre, post, hm, hset⟩ := split_core hc
  rw [running, running, hset, hm]
  simp only [List.flatMap_append, List.flatMap_cons, List.count_append]
  omega

theorem running_setCore_perm {m : Machine} {i j : Nat} {old new : Core}
    (hc : m.core? i j = some old) (r r' : List PcbPtr)
    (h : (r ++ old.running).Perm (r' ++ new.running)) :
    (r ++ m.running).Perm (r' ++ (m.setCore i j new).running) := by
  rw [List.perm_iff_count]
  intro p
  have hcount := count_running_setCore hc new p
  have hp := h.count_eq p
  simp only [List.count_append] at hp ⊢
  omega

theorem running_setCore_eq {m : Machine} {i j : Nat} {old new : Core}
    (hc : m.core? i j = some old) (h : new.running = old.running) :
    (m.setCore i j new).running = m.running := by
  obtain ⟨pre, post, hm, hset⟩ := split_core hc
  rw [running, running, hset, hm]
  simp [h]

theorem mem_running_of_core {m : Machine} {i j : Nat} {core : Core}
    (hc : m.core? i j = some core) {p : PcbPtr} (hp : p ∈ core.running) : p ∈ m.running :=
  List.mem_flatMap.mpr ⟨core, mem_cores_of_core? hc, hp⟩

/-- A busy thread of some core is a busy slot. -/
theorem slot_of_mem {m : Machine} {core : Core} {hw : HardwareThread} {p : PcbPtr}
    (hcore : core ∈ m.cores) (hmem : hw ∈ core.hwThreads) (hp : hw.pcb = some p) :
    ∃ i j k, m.slot? i j k = some (core, hw, p) := by
  obtain ⟨i, j, hij⟩ := mem_cores_iff.mp hcore
  obtain ⟨k, hk⟩ := List.getElem?_of_mem hmem
  exact ⟨i, j, k, slot?_eq_some.mpr ⟨hij, hk, hp⟩⟩

theorem mem_running_of_slot {m : Machine} (hc : m.Compact) {i j k : Nat} {core : Core}
    {hw : HardwareThread} {p : PcbPtr} (h : m.slot? i j k = some (core, hw, p)) :
    p ∈ m.running := by
  obtain ⟨hcore, hk, hp⟩ := slot?_eq_some.mp h
  exact mem_running_of_core hcore (List.mem_of_getElem? ((hc.core hcore).busy hk hp))

/-- A removal takes exactly the process of the slot off the machine. -/
theorem running_removeThread_perm {m : Machine} (hc : m.Compact) {i j k : Nat} {core : Core}
    {hw : HardwareThread} {p : PcbPtr} (hslot : m.slot? i j k = some (core, hw, p)) :
    m.running.Perm (p :: (m.setCore i j (core.removeThread k)).running) := by
  obtain ⟨hcore, hk, hp⟩ := slot?_eq_some.mp hslot
  have hh := hc.core hcore
  have hget := hh.busy hk hp
  have hlt := (List.getElem?_eq_some_iff.mp hget).1
  refine running_setCore_perm hcore [] [p] ?_
  rw [(hh.removeThread hlt).running_eq]
  exact List.perm_cons_eraseIdx hget

/-- After an assignment every thread is as before, or the one just loaded. -/
theorem mem_setCore_assign {m : Machine} {i j : Nat} {core : Core} {p : PcbPtr} {pcb : PCB}
    (hcore : m.core? i j = some core) {core' : Core}
    (hcore' : core' ∈ (m.setCore i j (core.assign p pcb)).cores) {hw : HardwareThread}
    (hmem : hw ∈ core'.hwThreads) :
    (∃ core ∈ m.cores, hw ∈ core.hwThreads) ∨ ∃ hw' : HardwareThread, hw = hw'.load p pcb := by
  rcases mem_setCore hcore hcore' with rfl | hcore'
  · rcases Core.mem_assign_hwThreads hmem with hmem | hload
    · exact .inl ⟨core, mem_cores_of_core? hcore, hmem⟩
    · exact .inr hload
  · exact .inl ⟨core', hcore', hmem⟩

theorem mem_running_removeThread {m : Machine} (hc : m.Compact) (hnd : m.running.Nodup)
    {i j k : Nat} {core : Core} {hw : HardwareThread} {p : PcbPtr}
    (hslot : m.slot? i j k = some (core, hw, p)) {q : PcbPtr} :
    q ∈ (m.setCore i j (core.removeThread k)).running ↔ q ∈ m.running ∧ q ≠ p := by
  have hrem := running_removeThread_perm hc hslot
  have hgone := (List.nodup_cons.mp (hrem.nodup_iff.mp hnd)).1
  rw [hrem.mem_iff, List.mem_cons]
  constructor
  · intro hq
    refine ⟨.inr hq, ?_⟩
    rintro rfl
    exact hgone hq
  · exact fun ⟨hq, hqp⟩ => hq.resolve_left hqp

/-- A process is on one hardware thread at most. -/
theorem thread_unique {m : Machine} (hc : m.Compact) (hnd : m.running.Nodup)
    {i j k i' j' k' : Nat} {core core' : Core} {hw hw' : HardwareThread} {p : PcbPtr}
    (h : m.slot? i j k = some (core, hw, p)) (h' : m.slot? i' j' k' = some (core', hw', p)) :
    hw = hw' := by
  obtain ⟨hcore, hk, hp⟩ := slot?_eq_some.mp h
  obtain ⟨hcore', hk', hp'⟩ := slot?_eq_some.mp h'
  by_cases hij : (i', j') = (i, j)
  · obtain ⟨rfl, rfl⟩ := Prod.mk.inj hij
    obtain rfl := Option.some.inj (hcore.symm.trans hcore')
    have hnd' : core.running.Nodup :=
      (List.nodup_flatMap.mp hnd).1 core (mem_cores_of_core? hcore)
    have hget := (hc.core hcore).busy hk hp
    have hlt := (List.getElem?_eq_some_iff.mp hget).1
    -- on one core: the same position of its list
    obtain rfl := (List.getElem?_inj hlt hnd').mp
      (hget.trans ((hc.core hcore).busy hk' hp').symm)
    exact Option.some.inj (hk.symm.trans hk')
  -- on another core: it would still be there after a removal
  · have hmem : p ∈ (m.setCore i j (core.removeThread k)).running := by
      refine mem_running_of_core ((core?_setCore_ne m _ hij).trans hcore') ?_
      exact List.mem_of_getElem? ((hc.core hcore').busy hk' hp')
    exact absurd rfl ((mem_running_removeThread hc hnd h).mp hmem).2

/-- After a removal every busy thread is as before, and none holds `p`. -/
theorem mem_setCore_removeThread {m : Machine} (hc : m.Compact) (hnd : m.running.Nodup)
    {i j k : Nat} {core : Core} {hw : HardwareThread} {p : PcbPtr}
    (hslot : m.slot? i j k = some (core, hw, p))
    {core' : Core} (hcore' : core' ∈ (m.setCore i j (core.removeThread k)).cores)
    {hw' : HardwareThread} (hmem' : hw' ∈ core'.hwThreads) {q : PcbPtr}
    (hq : hw'.pcb = some q) : (∃ core ∈ m.cores, hw' ∈ core.hwThreads) ∧ q ≠ p := by
  obtain ⟨hcore, hk, hp⟩ := slot?_eq_some.mp hslot
  have hh := hc.core hcore
  have hlt := (List.getElem?_eq_some_iff.mp (hh.busy hk hp)).1
  have hc' := hc.setCore hcore (hh.removeThread hlt)
  constructor
  · rcases mem_setCore hcore hcore' with rfl | hcore'
    · rcases Core.mem_removeThread_hwThreads hmem' with hmem' | ⟨hnone, _⟩
      · exact ⟨core, mem_cores_of_core? hcore, hmem'⟩
      · rw [hnone] at hq
        cases hq
    · exact ⟨core', hcore', hmem'⟩
  · rintro rfl
    obtain ⟨i', j', k', hslot'⟩ := slot_of_mem hcore' hmem' hq
    exact ((mem_running_removeThread hc hnd hslot).mp (mem_running_of_slot hc' hslot')).2 rfl

theorem Idle.compact {m : Machine} (h : m.Idle) : m.Compact := fun core hc => ⟨[], h core hc⟩

theorem Idle.running {m : Machine} (h : m.Idle) : m.running = [] := by
  rw [Machine.running, List.flatMap_eq_nil_iff]
  exact fun core hc => (h core hc).running_eq

theorem createMachine_idle (numCpus numCores numKernelThreads : Nat) :
    (createMachine numCpus numCores numKernelThreads).Idle := by
  intro core hcore
  obtain ⟨cpu, hcpu, hcore⟩ := List.mem_flatMap.mp hcore
  rw [List.eq_of_mem_replicate hcpu] at hcore
  rw [List.eq_of_mem_replicate hcore]
  exact Core.createCore_holds numKernelThreads

/-! ### Space and assignment -/

theorem canCpuExecuteProcess_iff {m : Machine} :
    canCpuExecuteProcess m = true ↔ ∃ core ∈ m.cores, core.hasSpace = true := by
  simp only [canCpuExecuteProcess, List.any_eq_true, cores, List.mem_flatMap]
  constructor
  · rintro ⟨cpu, hcpu, core, hcore, hs⟩
    exact ⟨core, ⟨cpu, hcpu, hcore⟩, hs⟩
  · rintro ⟨core, ⟨cpu, hcpu, hcore⟩, hs⟩
    exact ⟨cpu, hcpu, core, hcore, hs⟩

/-- Where an assignment looks: it fails exactly when no core has space, and
otherwise writes the first that has. -/
theorem assignProcessToCore_find (m : Machine) (pcbs : PcbHeap) (p : PcbPtr) :
    (canCpuExecuteProcess m = false ∧ assignProcessToCore m pcbs p = none) ∨
    ∃ i j core, m.coreIndices.find? (fun ij => (m.core? ij.1 ij.2).any Core.hasSpace) =
        some (i, j) ∧ m.core? i j = some core ∧ core.hasSpace = true ∧
      assignProcessToCore m pcbs p = some (m.setCore i j (core.assign p (pcbs.get p))) := by
  unfold assignProcessToCore
  generalize hfind : List.find? _ m.coreIndices = found
  cases found with
  | none =>
      refine .inl ⟨?_, rfl⟩
      rw [Bool.eq_false_iff]
      intro hcan
      obtain ⟨core, hcore, hs⟩ := canCpuExecuteProcess_iff.mp hcan
      obtain ⟨i, j, hij⟩ := mem_cores_iff.mp hcore
      have hnone := List.find?_eq_none.mp hfind (i, j)
        (mem_coreIndices.mpr (by rw [hij]; rfl))
      simp [hij, hs] at hnone
  | some ij =>
      obtain ⟨i, j⟩ := ij
      have hs := List.find?_some hfind
      cases hcore : m.core? i j with
      | none => simp [hcore] at hs
      | some core =>
          refine .inr ⟨i, j, core, rfl, hcore, by simpa [hcore] using hs, ?_⟩
          simp [hcore]

/-- What an assignment does: it fails exactly when no core has space, and
otherwise writes one core that has. -/
theorem assignProcessToCore_cases (m : Machine) (pcbs : PcbHeap) (p : PcbPtr) :
    (canCpuExecuteProcess m = false ∧ assignProcessToCore m pcbs p = none) ∨
    ∃ i j core, m.core? i j = some core ∧ core.hasSpace = true ∧
      assignProcessToCore m pcbs p = some (m.setCore i j (core.assign p (pcbs.get p))) := by
  rcases m.assignProcessToCore_find pcbs p with hno | ⟨i, j, core, _, hassign⟩
  · exact .inl hno
  · exact .inr ⟨i, j, core, hassign⟩

/-- `0 <= current_pcb_count <= num_kernel_threads` on every core. -/
def Bounded (m : Machine) : Prop :=
  ∀ core ∈ m.cores, 0 ≤ core.currentPcbCount ∧ core.currentPcbCount ≤ core.numKernelThreads

theorem Compact.bounded {m : Machine} (h : m.Compact) : m.Bounded := by
  intro core hcore
  obtain ⟨ps, hps⟩ := h core hcore
  exact ⟨hps.bounds.1, hps.bounds.2.1⟩

/-- An assignment loads the process on the first slot behind the counted ones. -/
theorem slot?_assign {m : Machine} (hbounded : m.Bounded) {i j : Nat} {core : Core}
    (hcore : m.core? i j = some core) (hspace : core.hasSpace = true) (p : PcbPtr) (pcb : PCB) :
    ∃ hw : HardwareThread, (m.setCore i j (core.assign p pcb)).slot? i j
      core.currentPcbCount.toNat = some (core.assign p pcb, hw.load p pcb, p) := by
  obtain ⟨hw, hhw⟩ := Core.exists_freeThread (hbounded core (mem_cores_of_core? hcore)).1 hspace
  refine ⟨hw, slot?_eq_some.mpr ⟨core?_setCore_self _ hcore, ?_, rfl⟩⟩
  rw [Core.assign, List.getElem?_modify_eq, hhw]
  rfl

end Machine
end LocOS
