import LocOS.Ownership

/-!
# Admission

One iteration of `main`'s loop over the programs: create a process, enqueue
it, and destroy its PCB when `ready_queue` is full. What a failed admission
leaves behind in the memory: a page table and frames are taken one by one,
and no failure path gives any of them back.
-/

namespace LocOS

/-! ## The load loop -/

/-- What an iteration of the load loop changes. -/
structure Admission where
  loader : Loader
  readyQueue : ProcessQueue
  pcbs : PcbHeap

/-- The body of the loop for a program that was read. `allocated` is the
outcome of `malloc` in `create_pcb`; the PID is used up either way. The flag
says whether the process is in `ready_queue` now. -/
def admitProgram (allocated : Bool) (program : Program) (a : Admission) : Bool × Admission :=
  if allocated then
    match createProcessFromProgram a.loader program with
    | (none, loader) => (false, { a with loader })
    | (some pcb, loader) =>
        let (p, pcbs) := a.pcbs.alloc pcb
        match a.readyQueue.enqueueProcess p with
        | some readyQueue => (true, { loader, readyQueue, pcbs })
        | none => (false, { a with loader, pcbs := pcbs.destroyPcb p })
  else (false, { a with loader := { a.loader with nextPid := a.loader.nextPid + 1 } })

/-- The allocation state of the memory is the same. -/
structure SameAccount (pm pm' : PhysicalMemory) : Prop where
  frameBitmap : pm'.frameBitmap = pm.frameBitmap
  totalAllocatedFrames : pm'.totalAllocatedFrames = pm.totalAllocatedFrames
  nextKernelFrame : pm'.nextKernelFrame = pm.nextKernelFrame

/-! ## Free frames -/

namespace PhysicalMemory

/-- The frames `allocate_frame` can still give. -/
def freeFrames (pm : PhysicalMemory) : Finset Nat :=
  (Finset.range totalFrames).filter fun f => kernelFrames ≤ f ∧ pm.frameBitmap f = false

theorem mem_freeFrames {pm : PhysicalMemory} {f : Nat} :
    f ∈ pm.freeFrames ↔ f < totalFrames ∧ kernelFrames ≤ f ∧ pm.frameBitmap f = false := by
  rw [freeFrames, Finset.mem_filter, Finset.mem_range]

/-- A frame is given as long as one is free. -/
theorem allocateFrame_free (pm : PhysicalMemory) :
    (pm.freeFrames = ∅ ∧ pm.allocateFrame = (0, pm)) ∨
    ∃ frame : Word, frame.toNat ∈ pm.freeFrames ∧ frame ≠ 0 ∧
      pm.allocateFrame = (frame, pm.take frame) := by
  rcases allocateFrame_cases pm with he | ⟨frame, hlo, hhi, hfree, he⟩
  · left
    refine ⟨Finset.eq_empty_of_forall_notMem fun f hf => ?_, he⟩
    obtain ⟨hhi, hlo, hfree⟩ := mem_freeFrames.mp hf
    unfold allocateFrame at he
    split at he
    · rename_i i hfind
      have hi := List.mem_range'_1.mp (List.mem_of_find?_eq_some hfind)
      have hzero := congrArg BitVec.toNat (congrArg Prod.fst he)
      rw [BitVec.toNat_ofNat, Nat.mod_eq_of_lt (Nat.lt_trans hi.2 (by decide))] at hzero
      simp only [kernelFrames] at hi
      simp at hzero
      omega
    · rename_i hnone
      have hbusy := List.find?_eq_none.mp hnone f (List.mem_range'_1.mpr ⟨hlo, by omega⟩)
      rw [hfree] at hbusy
      exact hbusy rfl
  · right
    refine ⟨frame, mem_freeFrames.mpr ⟨hhi, hlo, hfree⟩, ?_, he⟩
    rintro rfl
    exact absurd hlo (by decide)

theorem freeFrames_take {pm : PhysicalMemory} (frame : Word) :
    (pm.take frame).freeFrames = pm.freeFrames.erase frame.toNat := by
  ext f
  simp only [Finset.mem_erase, mem_freeFrames, take, Function.update_apply]
  by_cases hf : f = frame.toNat
  · simp [hf]
  · simp [hf]

end PhysicalMemory

open PhysicalMemory in
/-- The loop over pages succeeds exactly when there are frames for all of
them, and takes as many. -/
theorem loadPages_free (program : Program) (pageTable n : Nat) (pm : PhysicalMemory) :
    ((loadPages program pageTable n pm).1 = true ↔ n ≤ pm.freeFrames.card) ∧
      ((loadPages program pageTable n pm).1 = true →
        (loadPages program pageTable n pm).2.freeFrames.card + n = pm.freeFrames.card) := by
  induction n with
  | zero =>
      have hzero : loadPages program pageTable 0 pm = (true, pm) := rfl
      rw [hzero]
      exact ⟨iff_of_true rfl (Nat.zero_le _), fun _ => Nat.add_zero _⟩
  | succ n ih =>
      obtain ⟨hok, hcard⟩ := ih
      have hsucc : loadPages program pageTable (n + 1) pm =
          (fun (acc : Bool × PhysicalMemory) =>
            if acc.1 then
              if acc.2.allocateFrame.1 = 0 then (false, acc.2.allocateFrame.2)
              else (true, loadPage program pageTable n acc.2.allocateFrame.1 acc.2.allocateFrame.2)
            else acc) (loadPages program pageTable n pm) := rfl
      rw [hsucc]
      generalize loadPages program pageTable n pm = acc at hok hcard
      obtain ⟨ok, pm'⟩ := acc
      dsimp only at hok hcard ⊢
      cases ok with
      | false =>
          have hno : ¬ n ≤ pm.freeFrames.card := fun h => absurd (hok.mpr h) (by decide)
          exact ⟨iff_of_false (by simp) (by omega), fun h => by cases h⟩
      | true =>
          have hle := hok.mp rfl
          have hleft := hcard rfl
          rw [if_pos rfl]
          rcases allocateFrame_free pm' with ⟨hempty, he⟩ | ⟨frame, hmem, hne, he⟩
          · rw [he, if_pos rfl]
            rw [hempty, Finset.card_empty] at hleft
            exact ⟨iff_of_false (by simp) (by omega), fun h => by cases h⟩
          · rw [he, if_neg hne]
            have hhi := (mem_freeFrames.mp hmem).1
            have hpos := Finset.card_pos.mpr ⟨_, hmem⟩
            have hfree : (loadPage program pageTable n frame (pm'.take frame)).freeFrames =
                pm'.freeFrames.erase frame.toNat := by
              rw [loadPage_eq program _ pageTable n hhi, ← freeFrames_take]
              rfl
            rw [hfree, Finset.card_erase_of_mem hmem]
            exact ⟨iff_of_true rfl (by omega), fun _ => by omega⟩

/-! ## Failed admissions -/

/-- The page table finds room in kernel space, by the 32-bit test. -/
def TableFits (pm : PhysicalMemory) (program : Program) : Prop :=
  (pm.nextKernelFrame + program.totalPages).toNat ≤ kernelSpaceWords

instance (pm : PhysicalMemory) (program : Program) : Decidable (TableFits pm program) :=
  inferInstanceAs (Decidable (_ ≤ _))

/-- A page table that fits takes words of the kernel space and no frame. -/
theorem createPageTable_account {pm : PhysicalMemory} {program : Program}
    (h : TableFits pm program) : ∃ pm',
      pm.createPageTable program.totalPages = (some pm.nextKernelFrame.toNat, pm') ∧
      pm'.freeFrames = pm.freeFrames ∧
      pm'.nextKernelFrame = pm.nextKernelFrame + program.totalPages ∧
      (program.totalPages = 0 → SameAccount pm pm') := by
  have htable := createPageTable_eq pm program.totalPages
  rw [if_neg (Nat.not_lt.mpr h)] at htable
  refine ⟨_, htable, rfl, rfl, fun hzero => ⟨rfl, rfl, ?_⟩⟩
  rw [hzero]
  exact BitVec.add_zero _

/-- What a creation leaves: nothing was taken, or the words of the table are
gone and the process exists exactly when there are frames for its pages. -/
theorem createProcessFromProgram_account (loader : Loader) (program : Program) :
    (¬ TableFits loader.physicalMemory program ∧
      (createProcessFromProgram loader program).1 = none ∧
      (createProcessFromProgram loader program).2.physicalMemory = loader.physicalMemory) ∨
    (TableFits loader.physicalMemory program ∧
      ((createProcessFromProgram loader program).1.isSome ↔
        program.totalPages.toNat ≤ loader.physicalMemory.freeFrames.card) ∧
      (createProcessFromProgram loader program).2.physicalMemory.nextKernelFrame =
        loader.physicalMemory.nextKernelFrame + program.totalPages ∧
      (program.totalPages = 0 → SameAccount loader.physicalMemory
        (createProcessFromProgram loader program).2.physicalMemory)) := by
  by_cases hfit : TableFits loader.physicalMemory program
  · right
    obtain ⟨pm, he, hfree, hnext, hsame⟩ := createPageTable_account hfit
    have hload := (loadPages_free program loader.physicalMemory.nextKernelFrame.toNat
      program.totalPages.toNat pm).1
    have hkernel := loadPages_nextKernelFrame program
      loader.physicalMemory.nextKernelFrame.toNat program.totalPages.toNat pm
    have hempty : program.totalPages = 0 →
        loadPages program loader.physicalMemory.nextKernelFrame.toNat
          program.totalPages.toNat pm = (true, pm) := by
      intro hzero
      rw [hzero]
      rfl
    rw [hfree] at hload
    rw [hnext] at hkernel
    refine ⟨hfit, ?_⟩
    cases hpages : loadPages program loader.physicalMemory.nextKernelFrame.toNat
        program.totalPages.toNat pm with
    | mk ok pm' =>
        rw [hpages] at hload hkernel hempty
        cases ok with
        | false =>
            rw [createProcess_noFrames he hpages]
            refine ⟨iff_of_false (by simp) fun h => absurd (hload.mpr h) (by simp), hkernel, ?_⟩
            intro hzero
            cases hempty hzero
        | true =>
            rw [createProcess_ok he hpages]
            refine ⟨iff_of_true rfl (hload.mp rfl), hkernel, ?_⟩
            intro hzero
            obtain rfl : pm' = pm := (Prod.mk.inj (hempty hzero)).2
            exact hsame hzero
  · have htable := createPageTable_eq loader.physicalMemory program.totalPages
    rw [if_pos (Nat.lt_of_not_le hfit)] at htable
    rw [createProcess_noTable htable]
    exact .inl ⟨hfit, rfl, rfl⟩

/-- Words taken from the kernel space show in `next_kernel_frame`. -/
theorem not_sameAccount {pm pm' : PhysicalMemory} {numPages : Word} (hne : numPages ≠ 0)
    (hkernel : pm'.nextKernelFrame = pm.nextKernelFrame + numPages) : ¬ SameAccount pm pm' := by
  intro h
  have heq := hkernel.symm.trans h.nextKernelFrame
  exact hne (by simpa using heq)

theorem enqueueProcess_isSome_iff (pq : ProcessQueue) (p : PcbPtr) :
    (pq.enqueueProcess p).isSome ↔ pq.currentSize < pq.maxCapacity := by
  unfold ProcessQueue.enqueueProcess
  split
  · exact iff_of_false (by simp) (by omega)
  · exact iff_of_true rfl (by omega)

/-- The rest of the iteration leaves the memory alone. -/
theorem admitProgram_loader (program : Program) (a : Admission) :
    (admitProgram true program a).2.loader = (createProcessFromProgram a.loader program).2 := by
  simp only [admitProgram, if_true]
  cases createProcessFromProgram a.loader program with
  | mk created loader =>
      cases created with
      | none => rfl
      | some pcb =>
          dsimp only
          split <;> rfl

/-- Admitted are the processes that could be created and found a place. -/
theorem admitProgram_admits (program : Program) (a : Admission) :
    (admitProgram true program a).1 = true ↔
      (createProcessFromProgram a.loader program).1.isSome ∧
        a.readyQueue.currentSize < a.readyQueue.maxCapacity := by
  simp only [admitProgram, if_true]
  cases createProcessFromProgram a.loader program with
  | mk created loader =>
      cases created with
      | none => exact iff_of_false (by simp) fun h => absurd h.1 (by simp)
      | some pcb =>
          have hroom := enqueueProcess_isSome_iff a.readyQueue (a.pcbs.alloc pcb).1
          dsimp only
          rw [← hroom]
          split
          · rename_i henq
            exact iff_of_true rfl ⟨rfl, by rw [henq]; rfl⟩
          · rename_i henq
            exact iff_of_false (by simp) fun h => absurd h.2 (by simp [henq])

/-- A program that is not admitted leaves the allocation state as it was
exactly when nothing was taken for it: the PCB or the table was refused, or
there are no pages to load. Otherwise it had better be admitted: frames for
all its pages and a place in `ready_queue`. -/
theorem admitProgram_restores_iff (allocated : Bool) (program : Program) (a : Admission) :
    ((admitProgram allocated program a).1 = false →
        SameAccount a.loader.physicalMemory
          (admitProgram allocated program a).2.loader.physicalMemory) ↔
      allocated = false ∨ ¬ TableFits a.loader.physicalMemory program ∨
        program.totalPages = 0 ∨
        (program.totalPages.toNat ≤ a.loader.physicalMemory.freeFrames.card ∧
          a.readyQueue.currentSize < a.readyQueue.maxCapacity) := by
  cases allocated with
  | false => exact iff_of_true (fun _ => ⟨rfl, rfl, rfl⟩) (.inl rfl)
  | true =>
      rw [admitProgram_loader, ← Bool.not_eq_true, admitProgram_admits]
      rcases createProcessFromProgram_account a.loader program with
        ⟨hfit, _, hpm⟩ | ⟨hfit, hsome, hkernel, hempty⟩
      · rw [hpm]
        exact iff_of_true (fun _ => ⟨rfl, rfl, rfl⟩) (.inr (.inl hfit))
      · rw [hsome]
        by_cases hzero : program.totalPages = 0
        · exact iff_of_true (fun _ => hempty hzero) (.inr (.inr (.inl hzero)))
        · have hleak := not_sameAccount hzero hkernel
          constructor
          · intro h
            by_contra hno
            simp only [Bool.true_eq_false, hzero, false_or, not_or, not_not] at hno
            exact hleak (h hno.2)
          · rintro (hno | hno | hno | hadmit)
            · cases hno
            · exact absurd hfit hno
            · exact absurd hno hzero
            · exact fun h => absurd hadmit h

/-- `ready_queue` holds one process and is full; a program of one page
arrives. -/
def fullQueue : Admission where
  loader := createLoader createPhysicalMemory
  readyQueue := ((createProcessQueue 1).enqueueProcess 0).getD (createProcessQueue 1)
  pcbs := ⟨fun _ => none, 1⟩

/-- The process is not admitted, and its table stays in kernel space. -/
theorem fullQueue_leaks : (admitProgram true (oneInstruction 0) fullQueue).1 = false ∧
    ¬ SameAccount fullQueue.loader.physicalMemory
      (admitProgram true (oneInstruction 0) fullQueue).2.loader.physicalMemory := by
  constructor
  · rw [← Bool.not_eq_true, admitProgram_admits]
    exact fun h => absurd h.2 (by decide)
  · rw [admitProgram_loader]
    rcases createProcessFromProgram_account fullQueue.loader (oneInstruction 0) with
      ⟨hfit, _⟩ | ⟨_, _, hkernel, _⟩
    · exact absurd (by decide) hfit
    · exact not_sameAccount (by decide) hkernel

end LocOS
