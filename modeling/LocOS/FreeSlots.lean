import LocOS.LeastImportant

/-!
# FreeSlots

The hardware threads behind the counted ones, in the order of the loops over
CPUs and cores. Space on some core is a free slot, and an assignment loads its
process on the first of them and writes no other thread.
-/

namespace LocOS

namespace Core

/-- The slots behind the counted ones. -/
def freeSlots (core : Core) : List Nat :=
  List.range' core.currentPcbCount.toNat
    (core.numKernelThreads - core.currentPcbCount.toNat)

theorem length_freeSlots (core : Core) :
    core.freeSlots.length = core.numKernelThreads - core.currentPcbCount.toNat :=
  List.length_range'

theorem hasSpace_freeSlots {core : Core} (hcount : 0 ≤ core.currentPcbCount) :
    core.hasSpace = true ↔ core.freeSlots ≠ [] := by
  rw [← List.length_pos_iff, length_freeSlots, hasSpace_iff]
  omega

/-- An assignment takes the first free slot. -/
theorem freeSlots_assign {core : Core} (hcount : 0 ≤ core.currentPcbCount)
    (hspace : core.hasSpace = true) (p : PcbPtr) (pcb : PCB) :
    core.freeSlots = core.currentPcbCount.toNat :: (core.assign p pcb).freeSlots := by
  have hlt := Core.hasSpace_iff.mp hspace
  have hnext : (core.assign p pcb).currentPcbCount.toNat = core.currentPcbCount.toNat + 1 := by
    show (core.currentPcbCount + 1).toNat = _
    omega
  have hfree : core.numKernelThreads - core.currentPcbCount.toNat =
      core.numKernelThreads - (core.currentPcbCount.toNat + 1) + 1 := by
    omega
  rw [freeSlots, freeSlots, hnext, assign_numKernelThreads, hfree, List.range'_succ]

end Core

/-- CPU, core and thread index of a hardware thread. -/
abbrev Slot := Nat × Nat × Nat

namespace Machine

/-- `machine->cpus[i].cores[j].hw_threads[k]`. -/
def thread? (m : Machine) (slot : Slot) : Option HardwareThread :=
  (m.core? slot.1 slot.2.1).bind fun core => core.hwThreads[slot.2.2]?

/-- The free slots of core `(i, j)`. -/
def freeSlotsOf (m : Machine) (ij : Nat × Nat) : List Slot :=
  ((m.core? ij.1 ij.2).map fun core => core.freeSlots.map fun k => (ij.1, ij.2, k)).getD []

/-- The free slots in the order of the loops. -/
def freeSlots (m : Machine) : List Slot := m.coreIndices.flatMap m.freeSlotsOf

theorem freeSlotsOf_eq {m : Machine} {i j : Nat} {core : Core} (hcore : m.core? i j = some core) :
    m.freeSlotsOf (i, j) = core.freeSlots.map fun k => (i, j, k) := by
  rw [freeSlotsOf, hcore]
  rfl

/-- The slots of a list of free ones are those of one core. -/
theorem mem_freeSlotsOf {m : Machine} {ij : Nat × Nat} {slot : Slot}
    (h : slot ∈ m.freeSlotsOf ij) :
    ∃ core k, m.core? ij.1 ij.2 = some core ∧ k ∈ core.freeSlots ∧ slot = (ij.1, ij.2, k) := by
  rw [freeSlotsOf] at h
  cases hcore : m.core? ij.1 ij.2 with
  | none =>
      rw [hcore] at h
      cases h
  | some core =>
      rw [hcore] at h
      obtain ⟨k, hk, rfl⟩ := List.mem_map.mp h
      exact ⟨core, k, rfl, hk, rfl⟩

theorem mem_freeSlots {m : Machine} {i j k : Nat} :
    (i, j, k) ∈ m.freeSlots ↔ ∃ core, m.core? i j = some core ∧ k ∈ core.freeSlots := by
  constructor
  · intro h
    obtain ⟨ij, _, h⟩ := List.mem_flatMap.mp h
    obtain ⟨core, k', hcore, hk, he⟩ := mem_freeSlotsOf h
    obtain ⟨rfl, rfl, rfl⟩ : i = ij.1 ∧ j = ij.2 ∧ k = k' := by simpa using he
    exact ⟨core, hcore, hk⟩
  · rintro ⟨core, hcore, hk⟩
    refine List.mem_flatMap.mpr ⟨(i, j), mem_coreIndices.mpr (by rw [hcore]; rfl), ?_⟩
    rw [freeSlotsOf_eq hcore]
    exact List.mem_map_of_mem hk

/-- The slots come in CPU, core and thread order. -/
theorem pairwise_freeSlots (m : Machine) :
    m.freeSlots.Pairwise fun a b => a.1 < b.1 ∨ a.1 = b.1 ∧
      (a.2.1 < b.2.1 ∨ a.2.1 = b.2.1 ∧ a.2.2 < b.2.2) := by
  rw [freeSlots, List.pairwise_flatMap]
  constructor
  · intro ij _
    rw [freeSlotsOf]
    cases m.core? ij.1 ij.2 with
    | none => exact .nil
    | some core =>
        refine List.pairwise_map.mpr ((List.pairwise_lt_range' 1).imp ?_)
        exact fun hlt => .inr ⟨rfl, .inr ⟨rfl, hlt⟩⟩
  · refine m.pairwise_coreIndices.imp fun {a b} hab x hx y hy => ?_
    obtain ⟨_, _, _, _, rfl⟩ := mem_freeSlotsOf hx
    obtain ⟨_, _, _, _, rfl⟩ := mem_freeSlotsOf hy
    dsimp only
    omega

theorem nodup_freeSlots (m : Machine) : m.freeSlots.Nodup := by
  refine m.pairwise_freeSlots.imp fun {a b} hab he => ?_
  rw [he] at hab
  omega

/-- As many as the cores have threads behind their counts. -/
theorem length_freeSlots (m : Machine) : m.freeSlots.length =
    (m.cores.map fun core => core.numKernelThreads - core.currentPcbCount.toNat).sum := by
  have hcores := congrArg List.length (m.flatMap_coreIndices Core.freeSlots)
  rw [List.length_flatMap, List.length_flatMap] at hcores
  simp only [Core.length_freeSlots] at hcores
  rw [freeSlots, List.length_flatMap, ← hcores]
  congr 1
  apply List.map_congr_left
  intro ij _
  rw [freeSlotsOf]
  cases m.core? ij.1 ij.2 with
  | none => rfl
  | some core => exact List.length_map ..

/-- What the guard asks for is a free slot. -/
theorem canCpuExecuteProcess_freeSlots {m : Machine} (h : m.Bounded) :
    canCpuExecuteProcess m = true ↔ m.freeSlots ≠ [] := by
  rw [canCpuExecuteProcess_iff]
  constructor
  · rintro ⟨core, hcore, hspace⟩
    have hfree := (Core.hasSpace_freeSlots (h core hcore).1).mp hspace
    obtain ⟨k, hk⟩ := List.exists_mem_of_ne_nil _ hfree
    obtain ⟨i, j, hij⟩ := mem_cores_iff.mp hcore
    exact List.ne_nil_of_mem (mem_freeSlots.mpr ⟨core, hij, hk⟩)
  · intro hfree
    obtain ⟨⟨i, j, k⟩, hslot⟩ := List.exists_mem_of_ne_nil _ hfree
    obtain ⟨core, hcore, hk⟩ := mem_freeSlots.mp hslot
    have hmem := mem_cores_of_core? hcore
    exact ⟨core, hmem,
      (Core.hasSpace_freeSlots (h core hmem).1).mpr (List.ne_nil_of_mem hk)⟩

/-! ## Assignment -/

/-- The loops go by the numbers of cores. -/
theorem coreIndices_eq (m : Machine) :
    m.coreIndices = (m.cpus.map fun cpu => cpu.cores.length).zipIdx.flatMap
      fun a => (List.range a.1).map (a.2, ·) := by
  rw [List.zipIdx_map, List.flatMap_map]
  rfl

theorem coreIndices_setCore (m : Machine) (i j : Nat) (core : Core) :
    (m.setCore i j core).coreIndices = m.coreIndices := by
  have hlengths : (m.setCore i j core).cpus.map (fun cpu => cpu.cores.length) =
      m.cpus.map fun cpu => cpu.cores.length := by
    apply List.ext_getElem?
    intro n
    rw [setCore, List.getElem?_map, List.getElem?_map, List.getElem?_modify]
    cases m.cpus[n]? with
    | none => rfl
    | some cpu =>
        split
        · exact congrArg some List.length_set
        · rfl
  rw [coreIndices_eq, coreIndices_eq, hlengths]

theorem freeSlotsOf_setCore_ne (m : Machine) {i j : Nat} {ij : Nat × Nat} (core : Core)
    (hne : ij ≠ (i, j)) : (m.setCore i j core).freeSlotsOf ij = m.freeSlotsOf ij := by
  rw [freeSlotsOf, freeSlotsOf, core?_setCore_ne m core hne]

/-- What the guard sees, the assignment places: on the first free slot. -/
theorem assignProcessToCore_first {m : Machine} (h : m.Bounded)
    (hcan : canCpuExecuteProcess m = true) (pcbs : PcbHeap) (p : PcbPtr) :
    ∃ i j core, m.core? i j = some core ∧ core.hasSpace = true ∧
      assignProcessToCore m pcbs p = some (m.setCore i j (core.assign p (pcbs.get p))) ∧
      m.freeSlots = (i, j, core.currentPcbCount.toNat) ::
        (m.setCore i j (core.assign p (pcbs.get p))).freeSlots := by
  rcases m.assignProcessToCore_find pcbs p with
    ⟨hno, _⟩ | ⟨i, j, core, hfind, hcore, hspace, hassign⟩
  · rw [hcan] at hno
    cases hno
  · refine ⟨i, j, core, hcore, hspace, hassign, ?_⟩
    have hcount := (h core (mem_cores_of_core? hcore)).1
    rw [freeSlots, freeSlots, coreIndices_setCore]
    refine List.flatMap_eq_cons m.nodup_coreIndices hfind ?_
      (fun c hc => m.freeSlotsOf_setCore_ne _ hc) ?_
    -- a core that is passed over has no free slot
    · intro c _ hfull
      rw [freeSlotsOf]
      cases hc : m.core? c.1 c.2 with
      | none => rfl
      | some passed =>
          have hno : ¬ passed.hasSpace = true := by simpa [hc] using hfull
          rw [Core.hasSpace_freeSlots (h passed (mem_cores_of_core? hc)).1] at hno
          simpa using hno
    · rw [freeSlotsOf_eq hcore, freeSlotsOf_eq (core?_setCore_self _ hcore),
        Core.freeSlots_assign hcount hspace p (pcbs.get p)]
      rfl

theorem thread?_assign_self {m : Machine} {i j : Nat} {core : Core}
    (hcore : m.core? i j = some core) (p : PcbPtr) (pcb : PCB) :
    (m.setCore i j (core.assign p pcb)).thread? (i, j, core.currentPcbCount.toNat) =
      (m.thread? (i, j, core.currentPcbCount.toNat)).map fun hw => hw.load p pcb := by
  simp only [thread?, core?_setCore_self _ hcore, hcore, Option.bind_some]
  exact List.getElem?_modify_eq ..

/-- An assignment writes one hardware thread. -/
theorem thread?_assign_ne {m : Machine} {i j : Nat} {core : Core}
    (hcore : m.core? i j = some core) (p : PcbPtr) (pcb : PCB) {slot : Slot}
    (hne : slot ≠ (i, j, core.currentPcbCount.toNat)) :
    (m.setCore i j (core.assign p pcb)).thread? slot = m.thread? slot := by
  obtain ⟨i', j', k⟩ := slot
  by_cases hij : (i', j') = (i, j)
  · obtain ⟨rfl, rfl⟩ := Prod.mk.inj hij
    have hk : core.currentPcbCount.toNat ≠ k := by
      rintro rfl
      exact hne rfl
    simp only [thread?, core?_setCore_self _ hcore, hcore, Option.bind_some]
    exact List.getElem?_modify_ne _ _ hk
  · simp only [thread?, core?_setCore_ne m _ hij]

theorem Bounded.assign {m : Machine} (h : m.Bounded) {i j : Nat} {core : Core}
    (hcore : m.core? i j = some core) (hspace : core.hasSpace = true) (p : PcbPtr) (pcb : PCB) :
    (m.setCore i j (core.assign p pcb)).Bounded := by
  intro core' hmem
  rcases mem_setCore hcore hmem with rfl | hmem
  · have hcount := (h core (mem_cores_of_core? hcore)).1
    have hlt := Core.hasSpace_iff.mp hspace
    rw [Core.assign_numKernelThreads]
    show 0 ≤ core.currentPcbCount + 1 ∧ core.currentPcbCount + 1 ≤ _
    omega
  · exact h core' hmem

end Machine

end LocOS
