import LocOS.Coverage

/-!
# Unload

A load followed by `destroy_page_table`, over and over. The frames come back;
the words of the table do not, so the kernel area runs out after as many loads
as it has room for tables.
-/

namespace LocOS

/-- Loads the program and destroys the table of the process. -/
def loadUnload (program : Program) (loader : Loader) : Loader :=
  match createProcessFromProgram loader program with
  | (none, loader) => loader
  | (some pcb, loader) =>
      { loader with
        physicalMemory := loader.physicalMemory.destroyPageTable pcb.mm.pgb program.totalPages }

theorem loadUnload_some {loader : Loader} {program : Program} {pcb : PCB}
    (hcreate : (createProcessFromProgram loader program).1 = some pcb) :
    (loadUnload program loader).physicalMemory =
      (createProcessFromProgram loader program).2.physicalMemory.destroyPageTable
        pcb.mm.pgb program.totalPages := by
  unfold loadUnload
  generalize createProcessFromProgram loader program = c at hcreate ⊢
  obtain ⟨created, loader'⟩ := c
  obtain rfl : created = some pcb := hcreate
  rfl

theorem loadUnload_none {loader : Loader} {program : Program}
    (hcreate : (createProcessFromProgram loader program).1 = none) :
    loadUnload program loader = (createProcessFromProgram loader program).2 := by
  unfold loadUnload
  generalize createProcessFromProgram loader program = c at hcreate ⊢
  obtain ⟨created, loader'⟩ := c
  obtain rfl : created = none := hcreate
  rfl

/-! ## The frames come back -/

theorem freeFrame_marked {pm : PhysicalMemory} {frame : Word} (hlo : kernelFrames ≤ frame.toNat)
    (hhi : frame.toNat < totalFrames) (hmark : pm.frameBitmap frame.toNat = true) :
    pm.freeFrame frame =
      { pm with
        frameBitmap := Function.update pm.frameBitmap frame.toNat false
        totalAllocatedFrames := pm.totalAllocatedFrames - 1 } := by
  unfold PhysicalMemory.freeFrame
  rw [if_neg (by omega), if_pos hmark]

/-- The frames of the first `i` of `n` filled pages are free again. -/
structure Emptied (pm pm' : PhysicalMemory) (base n i : Nat) (q : PhysicalMemory) : Prop where
  memory : q.memory = pm'.memory
  bitmap : ∀ f, q.frameBitmap f = true ↔ pm.frameBitmap f = true ∨
    ∃ j, i ≤ j ∧ j < n ∧ (pm'.entry base j).frameNumber.toNat = f
  total : q.totalAllocatedFrames + BitVec.ofNat 32 i =
    pm.totalAllocatedFrames + BitVec.ofNat 32 n

section
variable {pm pm' q : PhysicalMemory} {base n i : Nat}

theorem Emptied.start (h : Filled pm pm' base n) : Emptied pm pm' base n 0 pm' where
  memory := rfl
  bitmap := fun f => by simpa using h.bitmap f
  total := by rw [h.total, BitVec.add_zero]

/-- The next page names a frame that is still marked. -/
theorem Emptied.next (hq : Emptied pm pm' base n i q) (h : Filled pm pm' base n) (hi : i < n) :
    Emptied pm pm' base n (i + 1)
      (if (q.entry base i).present then
        q.freeFrame ((q.entry base i).frameNumber.setWidth 32) else q) := by
  have hentry : q.entry base i = pm'.entry base i := by
    rw [PhysicalMemory.entry, hq.memory, PhysicalMemory.entry]
  have hframe : ((pm'.entry base i).frameNumber.setWidth 32 : Word).toNat =
      (pm'.entry base i).frameNumber.toNat := BitVec.toNat_setWidth_of_le (by decide)
  have hmark : q.frameBitmap (pm'.entry base i).frameNumber.toNat = true :=
    (hq.bitmap _).mpr (.inr ⟨i, Nat.le_refl i, hi, rfl⟩)
  rw [hentry, if_pos (h.present i hi), freeFrame_marked (by rw [hframe]; exact h.inUser i hi)
    (by rw [hframe]; exact BitVec.isLt _) (by rw [hframe]; exact hmark)]
  refine ⟨hq.memory, fun f => ?_, ?_⟩
  · show Function.update q.frameBitmap _ false f = true ↔ _
    rw [hframe, Function.update_apply]
    by_cases hf : f = (pm'.entry base i).frameNumber.toNat
    · rw [if_pos hf, hf, h.free i hi]
      refine iff_of_false Bool.false_ne_true ?_
      rintro (hmark | ⟨j, hij, hj, he⟩)
      · cases hmark
      · have := h.frames j i hj hi he
        omega
    · rw [if_neg hf, hq.bitmap]
      refine or_congr Iff.rfl (exists_congr fun j => ?_)
      constructor
      · rintro ⟨hij, hj, he⟩
        refine ⟨Nat.lt_of_le_of_ne hij ?_, hj, he⟩
        rintro rfl
        exact hf he.symm
      · rintro ⟨hij, hj, he⟩
        exact ⟨Nat.le_of_succ_le hij, hj, he⟩
  · rw [← hq.total]
    show q.totalAllocatedFrames - 1 + BitVec.ofNat 32 (i + 1) = _
    rw [BitVec.ofNat_add, BitVec.add_comm (BitVec.ofNat 32 i), ← BitVec.add_assoc]
    congr 1
    exact BitVec.sub_add_cancel _ _

end

/-- Destroying the table of filled pages gives their frames back. -/
theorem Filled.destroyPageTable {pm pm' : PhysicalMemory} {base : Nat} {numPages : Word}
    (h : Filled pm pm' base numPages.toNat) :
    (pm'.destroyPageTable (some base) numPages).frameBitmap = pm.frameBitmap ∧
      (pm'.destroyPageTable (some base) numPages).totalAllocatedFrames =
        pm.totalAllocatedFrames := by
  have hall : Emptied pm pm' base numPages.toNat numPages.toNat
      (pm'.destroyPageTable (some base) numPages) :=
    Loop.up_inv (fun i q => Emptied pm pm' base numPages.toNat i q) (.start h)
      fun i q hi hq => hq.next h hi
  constructor
  · funext f
    have hbit := hall.bitmap f
    have hnone : ¬ ∃ j, numPages.toNat ≤ j ∧ j < numPages.toNat ∧
        (pm'.entry base j).frameNumber.toNat = f := by
      rintro ⟨j, hle, hlt, _⟩
      omega
    rw [or_iff_left hnone] at hbit
    exact Bool.eq_iff_iff.mpr hbit
  · exact (BitVec.add_left_inj _).mp hall.total

/-! ## The table does not -/

section
variable {loader : Loader} {program : Program}

/-- A process can be created when its table and its pages find room. -/
theorem createProcess_isSome_iff
    (hnext : loader.physicalMemory.nextKernelFrame.toNat ≤ kernelSpaceWords) :
    (createProcessFromProgram loader program).1.isSome ↔
      loader.physicalMemory.nextKernelFrame.toNat + program.pagesAsked ≤ kernelSpaceWords ∧
        program.pagesAsked ≤ loader.physicalMemory.freeFrames.card := by
  have hpages := program.totalPages_lt
  have hfits : TableFits loader.physicalMemory program ↔
      loader.physicalMemory.nextKernelFrame.toNat + program.pagesAsked ≤ kernelSpaceWords := by
    rw [TableFits, BitVec.toNat_add, ← program.totalPages_toNat,
      Nat.mod_eq_of_lt (by simp only [kernelSpaceWords] at *; omega)]
  rw [← hfits]
  rcases createProcessFromProgram_account loader program with
    ⟨hfit, hnone, _⟩ | ⟨hfit, hsome, _, _⟩
  · rw [hnone]
    exact iff_of_false (by simp) fun h => hfit h.1
  · rw [hsome, program.totalPages_toNat]
    exact ⟨fun h => ⟨hfit, h⟩, fun h => h.2⟩

/-- A load that succeeds and its unload give the frames back and keep the
words of the table. -/
theorem loadUnload_of_isSome
    (hnext : loader.physicalMemory.nextKernelFrame.toNat ≤ kernelSpaceWords)
    (hcreate : (createProcessFromProgram loader program).1.isSome) :
    (loadUnload program loader).physicalMemory.frameBitmap =
        loader.physicalMemory.frameBitmap ∧
      (loadUnload program loader).physicalMemory.totalAllocatedFrames =
        loader.physicalMemory.totalAllocatedFrames ∧
      (loadUnload program loader).physicalMemory.nextKernelFrame.toNat =
        loader.physicalMemory.nextKernelFrame.toNat + program.pagesAsked := by
  have hroom := ((createProcess_isSome_iff hnext).mp hcreate).1
  have hkernel : (createProcessFromProgram loader program).2.physicalMemory.nextKernelFrame =
      loader.physicalMemory.nextKernelFrame + program.totalPages := by
    rcases createProcessFromProgram_account loader program with ⟨_, hnone, _⟩ | ⟨_, _, hkernel, _⟩
    · rw [hnone] at hcreate
      cases hcreate
    · exact hkernel
  obtain ⟨pcb, hpcb⟩ := Option.isSome_iff_exists.mp hcreate
  obtain ⟨hpgb, hfilled⟩ := createProcessFromProgram_filled hnext hpcb
  have hunload : (loadUnload program loader).physicalMemory =
      (createProcessFromProgram loader program).2.physicalMemory.destroyPageTable
        (some loader.physicalMemory.nextKernelFrame.toNat) program.totalPages := by
    rw [← hpgb]
    exact loadUnload_some hpcb
  rw [hunload]
  refine ⟨hfilled.destroyPageTable.1, hfilled.destroyPageTable.2, ?_⟩
  rw [destroyPageTable_nextKernelFrame, hkernel, BitVec.toNat_add, program.totalPages_toNat]
  exact Nat.mod_eq_of_lt (Nat.lt_of_le_of_lt hroom (by decide))

/-- A load that fails for want of kernel words takes nothing. -/
theorem loadUnload_of_noTable
    (hfull : kernelSpaceWords < loader.physicalMemory.nextKernelFrame.toNat + program.pagesAsked)
    (hnext : loader.physicalMemory.nextKernelFrame.toNat ≤ kernelSpaceWords) :
    (loadUnload program loader).physicalMemory = loader.physicalMemory := by
  have hpages := program.totalPages_lt
  rcases createProcessFromProgram_account loader program with ⟨_, hnone, hpm⟩ | ⟨hfit, _⟩
  · rw [loadUnload_none hnone, hpm]
  · rw [TableFits, BitVec.toNat_add, program.totalPages_toNat] at hfit
    rw [program.totalPages_toNat] at hpages
    rw [Nat.mod_eq_of_lt (by simp only [kernelSpaceWords] at *; omega)] at hfit
    omega

/-- After `k` cycles `j` tables were taken: `k` of them, or as many as the
kernel area has room for. -/
theorem loadUnload_iterate
    (hnext : loader.physicalMemory.nextKernelFrame.toNat ≤ kernelSpaceWords)
    (hcreate : (createProcessFromProgram loader program).1.isSome) (k : Nat) :
    ∃ j, j ≤ k ∧
      ((loadUnload program)^[k] loader).physicalMemory.nextKernelFrame.toNat =
        loader.physicalMemory.nextKernelFrame.toNat + j * program.pagesAsked ∧
      loader.physicalMemory.nextKernelFrame.toNat + j * program.pagesAsked ≤ kernelSpaceWords ∧
      ((loadUnload program)^[k] loader).physicalMemory.frameBitmap =
        loader.physicalMemory.frameBitmap ∧
      (j = k ∨ kernelSpaceWords <
        loader.physicalMemory.nextKernelFrame.toNat + (j + 1) * program.pagesAsked) := by
  have hframes := ((createProcess_isSome_iff hnext).mp hcreate).2
  induction k with
  | zero => exact ⟨0, Nat.le_refl 0, by simp, by simpa using hnext, rfl, .inl rfl⟩
  | succ k ih =>
      obtain ⟨j, hjk, hkernel, hlimit, hbitmap, hlast⟩ := ih
      rw [Function.iterate_succ_apply']
      generalize (loadUnload program)^[k] loader = t at hkernel hbitmap
      have hnext' : t.physicalMemory.nextKernelFrame.toNat ≤ kernelSpaceWords := by
        rw [hkernel]
        exact hlimit
      have hfree : t.physicalMemory.freeFrames = loader.physicalMemory.freeFrames := by
        rw [PhysicalMemory.freeFrames, PhysicalMemory.freeFrames, hbitmap]
      by_cases hroom : t.physicalMemory.nextKernelFrame.toNat + program.pagesAsked ≤
          kernelSpaceWords
      · have hcreate' := (createProcess_isSome_iff hnext').mpr ⟨hroom, by rw [hfree]; exact hframes⟩
        obtain ⟨hbitmap', _, hkernel'⟩ := loadUnload_of_isSome hnext' hcreate'
        have hsum : loader.physicalMemory.nextKernelFrame.toNat + (j + 1) * program.pagesAsked =
            t.physicalMemory.nextKernelFrame.toNat + program.pagesAsked := by
          rw [hkernel, Nat.add_one_mul, Nat.add_assoc]
        have hjk' : j = k := by
          rcases hlast with hlast | hlast
          · exact hlast
          · omega
        refine ⟨j + 1, by omega, by rw [hkernel', hsum], by rw [hsum]; exact hroom, ?_, .inl ?_⟩
        · rw [hbitmap', hbitmap]
        · rw [hjk']
      · have hstuck := loadUnload_of_noTable (Nat.lt_of_not_le hroom) hnext'
        refine ⟨j, by omega, by rw [hstuck, hkernel], hlimit, by rw [hstuck, hbitmap], .inr ?_⟩
        rw [Nat.add_one_mul, ← Nat.add_assoc, ← hkernel]
        exact Nat.lt_of_not_le hroom

/-- The program can be loaded once more after `k` cycles when the kernel area
has room for another table behind the `k` it has lost. -/
theorem createProcess_iterate_iff
    (hnext : loader.physicalMemory.nextKernelFrame.toNat ≤ kernelSpaceWords)
    (hcreate : (createProcessFromProgram loader program).1.isSome) (k : Nat) :
    (createProcessFromProgram ((loadUnload program)^[k] loader) program).1.isSome ↔
      loader.physicalMemory.nextKernelFrame.toNat + (k + 1) * program.pagesAsked ≤
        kernelSpaceWords := by
  have hframes := ((createProcess_isSome_iff hnext).mp hcreate).2
  obtain ⟨j, hjk, hkernel, hlimit, hbitmap, hlast⟩ := loadUnload_iterate hnext hcreate k
  generalize (loadUnload program)^[k] loader = t at hkernel hbitmap
  have hnext' : t.physicalMemory.nextKernelFrame.toNat ≤ kernelSpaceWords := by
    rw [hkernel]
    exact hlimit
  have hfree : t.physicalMemory.freeFrames = loader.physicalMemory.freeFrames := by
    rw [PhysicalMemory.freeFrames, PhysicalMemory.freeFrames, hbitmap]
  have hsum : loader.physicalMemory.nextKernelFrame.toNat + (j + 1) * program.pagesAsked =
      t.physicalMemory.nextKernelFrame.toNat + program.pagesAsked := by
    rw [hkernel, Nat.add_one_mul, Nat.add_assoc]
  rw [createProcess_isSome_iff hnext', hfree, ← hsum, and_iff_left hframes]
  rcases hlast with rfl | hfull
  · exact Iff.rfl
  · have hle : (j + 1) * program.pagesAsked ≤ (k + 1) * program.pagesAsked :=
      Nat.mul_le_mul_right _ (Nat.succ_le_succ hjk)
    exact iff_of_false (by omega) (by omega)

/-- A load and its unload always give the frames back. They restore the whole
account, and can be repeated for ever, exactly when the program has no pages;
otherwise every cycle loses the words of a table. -/
theorem loadUnload_restores_iff
    (hnext : loader.physicalMemory.nextKernelFrame.toNat ≤ kernelSpaceWords)
    (hcreate : (createProcessFromProgram loader program).1.isSome) :
    ((SameAccount loader.physicalMemory (loadUnload program loader).physicalMemory ∧
        ∀ k, (createProcessFromProgram ((loadUnload program)^[k] loader) program).1.isSome) ↔
      program.pagesAsked = 0) ∧
      (loadUnload program loader).physicalMemory.frameBitmap =
        loader.physicalMemory.frameBitmap ∧
      (loadUnload program loader).physicalMemory.totalAllocatedFrames =
        loader.physicalMemory.totalAllocatedFrames ∧
      ∀ k, (createProcessFromProgram ((loadUnload program)^[k] loader) program).1.isSome ↔
        loader.physicalMemory.nextKernelFrame.toNat + (k + 1) * program.pagesAsked ≤
          kernelSpaceWords := by
  obtain ⟨hbitmap, htotal, hkernel⟩ := loadUnload_of_isSome hnext hcreate
  have hcycles := createProcess_iterate_iff hnext hcreate
  refine ⟨⟨?_, ?_⟩, hbitmap, htotal, hcycles⟩
  · rintro ⟨hsame, _⟩
    rw [hsame.nextKernelFrame] at hkernel
    omega
  · intro hzero
    refine ⟨⟨hbitmap, htotal, BitVec.eq_of_toNat_eq ?_⟩, fun k => (hcycles k).mpr ?_⟩
    · rw [hkernel, hzero, Nat.add_zero]
    · rw [hzero, Nat.mul_zero]
      exact hnext

end

/-- A program of one page, loaded into a fresh memory and unloaded again: its
table is still in the kernel area. -/
theorem oneInstruction_kept :
    (createProcessFromProgram (createLoader createPhysicalMemory) (oneInstruction 7)).1.isSome ∧
      createPhysicalMemory.nextKernelFrame.toNat = 0 ∧
      (loadUnload (oneInstruction 7)
        (createLoader createPhysicalMemory)).physicalMemory.nextKernelFrame.toNat = 1 := by
  have hkernel := (loadUnload_of_isSome (by decide) oneInstruction_created).2.2
  have hpages : (oneInstruction 7).pagesAsked = 1 := by decide
  rw [hpages] at hkernel
  exact ⟨oneInstruction_created, rfl, hkernel⟩

/-- It can be loaded 262144 times. -/
theorem oneInstruction_cycles :
    (createProcessFromProgram (createLoader createPhysicalMemory) (oneInstruction 7)).1.isSome ∧
      ¬ (SameAccount createPhysicalMemory
          (loadUnload (oneInstruction 7) (createLoader createPhysicalMemory)).physicalMemory ∧
        ∀ k, (createProcessFromProgram ((loadUnload (oneInstruction 7))^[k]
          (createLoader createPhysicalMemory)) (oneInstruction 7)).1.isSome) ∧
      ∀ k, (createProcessFromProgram ((loadUnload (oneInstruction 7))^[k]
          (createLoader createPhysicalMemory)) (oneInstruction 7)).1.isSome ↔ k < 262144 := by
  have hnext : (createLoader createPhysicalMemory).physicalMemory.nextKernelFrame.toNat ≤
      kernelSpaceWords := by decide
  have hpages : (oneInstruction 7).pagesAsked = 1 := by decide
  obtain ⟨hrestores, _, _, hcycles⟩ := loadUnload_restores_iff hnext oneInstruction_created
  rw [hpages] at hrestores hcycles
  refine ⟨oneInstruction_created, fun h => absurd (hrestores.mp h) (by decide), fun k => ?_⟩
  have hzero : (createLoader createPhysicalMemory).physicalMemory.nextKernelFrame.toNat = 0 := rfl
  rw [hcycles k, hzero]
  simp only [kernelSpaceWords]
  omega

end LocOS
