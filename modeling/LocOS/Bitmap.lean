import LocOS.Loaded
import Mathlib.Data.Finset.Card

/-!
# Bitmap

The account of the frames: what `total_allocated_frames` counts, which frames
are never given away, and what each operation of the memory does to both.
-/

namespace LocOS

namespace PhysicalMemory

/-- The frames whose bitmap entry is 1. -/
def markedFrames (pm : PhysicalMemory) : Finset Nat :=
  (Finset.range totalFrames).filter fun f => pm.frameBitmap f = true

theorem mem_markedFrames {pm : PhysicalMemory} {f : Nat} :
    f ∈ pm.markedFrames ↔ f < totalFrames ∧ pm.frameBitmap f = true := by
  simp only [markedFrames, Finset.mem_filter, Finset.mem_range]

theorem card_markedFrames_le (pm : PhysicalMemory) : pm.markedFrames.card ≤ totalFrames := by
  have h := Finset.card_filter_le (Finset.range totalFrames) fun f => pm.frameBitmap f = true
  rwa [Finset.card_range] at h

end PhysicalMemory

/-- A frame goes back, and no other. -/
theorem freeFrame_cases (pm : PhysicalMemory) (frame : Word) :
    pm.freeFrame frame = pm ∨
      kernelFrames ≤ frame.toNat ∧ frame.toNat < totalFrames ∧
        pm.frameBitmap frame.toNat = true ∧
        pm.freeFrame frame =
          { pm with
            frameBitmap := Function.update pm.frameBitmap frame.toNat false
            totalAllocatedFrames := pm.totalAllocatedFrames - 1 } := by
  unfold PhysicalMemory.freeFrame
  by_cases hout : totalFrames ≤ frame.toNat ∨ frame.toNat < kernelFrames
  · rw [if_pos hout]
    exact .inl rfl
  · rw [if_neg hout]
    by_cases hmark : pm.frameBitmap frame.toNat = true
    · rw [if_pos hmark]
      exact .inr ⟨by omega, by omega, hmark, rfl⟩
    · rw [if_neg hmark]
      exact .inl rfl

/-- The counter counts the marked frames, and the kernel keeps its own. -/
structure Counted (pm : PhysicalMemory) : Prop where
  kernel : ∀ f, f < kernelFrames → pm.frameBitmap f = true
  total : pm.totalAllocatedFrames.toNat = pm.markedFrames.card

namespace Counted

variable {pm pm' : PhysicalMemory}

/-- What does not touch the account keeps it. -/
theorem congr (h : Counted pm) (hbitmap : pm'.frameBitmap = pm.frameBitmap)
    (htotal : pm'.totalAllocatedFrames = pm.totalAllocatedFrames) : Counted pm' where
  kernel := by
    rw [hbitmap]
    exact h.kernel
  total := by
    rw [htotal, h.total, PhysicalMemory.markedFrames, PhysicalMemory.markedFrames, hbitmap]

theorem start : Counted createPhysicalMemory where
  kernel := fun _ hf => decide_eq_true hf
  total := by
    have hmarked : createPhysicalMemory.markedFrames = Finset.range kernelFrames := by
      ext f
      rw [PhysicalMemory.mem_markedFrames, Finset.mem_range]
      simp only [createPhysicalMemory, decide_eq_true_eq]
      constructor
      · intro h
        exact h.2
      · intro h
        exact ⟨Nat.lt_trans h (by decide), h⟩
    rw [hmarked, Finset.card_range]
    rfl

/-! ## Frames -/

theorem take (h : Counted pm) {frame : Word} (hhi : frame.toNat < totalFrames)
    (hfree : pm.frameBitmap frame.toNat = false) : Counted (pm.take frame) where
  kernel := by
    intro f hf
    simp only [PhysicalMemory.take, Function.update_apply]
    split
    · rfl
    · exact h.kernel f hf
  total := by
    have hmarked : (pm.take frame).markedFrames = insert frame.toNat pm.markedFrames := by
      ext f
      simp only [Finset.mem_insert, PhysicalMemory.mem_markedFrames, PhysicalMemory.take,
        Function.update_apply]
      by_cases hf : f = frame.toNat
      · simp [hf, hhi]
      · simp [hf]
    have hnew : frame.toNat ∉ pm.markedFrames := by
      rw [PhysicalMemory.mem_markedFrames, hfree]
      simp
    have hle := (pm.take frame).card_markedFrames_le
    rw [hmarked, Finset.card_insert_of_notMem hnew] at hle ⊢
    show (pm.totalAllocatedFrames + 1).toNat = _
    rw [BitVec.toNat_add, h.total]
    exact Nat.mod_eq_of_lt (Nat.lt_of_le_of_lt hle (by decide))

theorem freeFrame (h : Counted pm) (frame : Word) : Counted (pm.freeFrame frame) := by
  rcases freeFrame_cases pm frame with he | ⟨hlo, hhi, hmark, he⟩
  · rwa [he]
  · rw [he]
    refine ⟨fun f hf => ?_, ?_⟩
    · show Function.update pm.frameBitmap frame.toNat false f = true
      rw [Function.update_of_ne (by omega)]
      exact h.kernel f hf
    · have hmem : frame.toNat ∈ pm.markedFrames := PhysicalMemory.mem_markedFrames.mpr ⟨hhi, hmark⟩
      have hmarked : PhysicalMemory.markedFrames
          { pm with
            frameBitmap := Function.update pm.frameBitmap frame.toNat false
            totalAllocatedFrames := pm.totalAllocatedFrames - 1 } =
          pm.markedFrames.erase frame.toNat := by
        ext f
        simp only [Finset.mem_erase, PhysicalMemory.mem_markedFrames, Function.update_apply]
        by_cases hf : f = frame.toNat
        · simp [hf]
        · simp [hf]
      have hpos := Finset.card_pos.mpr ⟨_, hmem⟩
      rw [hmarked, Finset.card_erase_of_mem hmem, ← h.total]
      rw [← h.total] at hpos
      exact BitVec.toNat_sub_of_le (BitVec.le_def.mpr hpos)

/-! ## Tables and pages -/

theorem createPageTable (h : Counted pm) (numPages : Word) :
    Counted (pm.createPageTable numPages).2 := by
  rcases createPageTable_cases pm numPages with he | ⟨_, he⟩
  · rwa [he]
  · rw [he]
    exact h.congr rfl rfl

theorem loadPages (h : Counted pm) (program : Program) (pageTable n : Nat) :
    Counted (loadPages program pageTable n pm).2 := by
  refine Loop.up_inv (fun _ (acc : Bool × PhysicalMemory) => Counted acc.2) h ?_
  rintro i ⟨ok, pm'⟩ - hpm'
  cases ok with
  | false => exact hpm'
  | true =>
      simp only [if_true]
      rcases allocateFrame_cases pm' with he | ⟨frame, hlo, hhi, hfree, he⟩
      · rw [he]
        exact hpm'
      · have hne : frame ≠ 0 := by
          rintro rfl
          exact absurd hlo (by decide)
        rw [he]
        simp only [hne, if_false]
        rw [loadPage_eq program _ pageTable i hhi]
        exact (hpm'.take hhi hfree).congr rfl rfl

theorem createProcessFromProgram {loader : Loader} (h : Counted loader.physicalMemory)
    (program : Program) :
    Counted (createProcessFromProgram loader program).2.physicalMemory := by
  have htable := h.createPageTable program.totalPages
  cases he : loader.physicalMemory.createPageTable program.totalPages with
  | mk pageTable pm =>
      rw [he] at htable
      cases pageTable with
      | none =>
          rw [createProcess_noTable he]
          exact htable
      | some base =>
          have hpages := htable.loadPages program base program.totalPages.toNat
          cases hload : LocOS.loadPages program base program.totalPages.toNat pm with
          | mk ok pm' =>
              rw [hload] at hpages
              cases ok with
              | false =>
                  rw [createProcess_noFrames he hload]
                  exact hpages
              | true =>
                  rw [createProcess_ok he hload]
                  exact hpages

theorem destroyPageTable (h : Counted pm) (pageTable : Option Nat) (numPages : Word) :
    Counted (pm.destroyPageTable pageTable numPages) := by
  cases pageTable with
  | none => exact h
  | some base =>
      refine Loop.up_inv (fun _ => Counted) h fun i pm' _ hpm' => ?_
      show Counted (if _ then _ else _)
      split
      · exact hpm'.freeFrame _
      · exact hpm'

theorem mmuWriteWord (h : Counted pm) (pageTable : Option Nat) (virtualAddress value : Word) :
    Counted (pm.mmuWriteWord pageTable virtualAddress value) := by
  cases pageTable with
  | none => exact h
  | some base =>
      simp only [PhysicalMemory.mmuWriteWord, PhysicalMemory.writeWord]
      split
      · exact h.congr rfl rfl
      · exact h.congr rfl rfl

end Counted

/-! ## What a destroyed table gives back -/

section
variable (pm : PhysicalMemory) (base : Nat) (numPages : Word)

theorem destroyPageTable_memory :
    (pm.destroyPageTable (some base) numPages).memory = pm.memory := by
  refine Loop.up_const PhysicalMemory.memory (fun i pm' => ?_) _ _
  dsimp only
  split
  · rcases freeFrame_cases pm' ((pm'.entry base i).frameNumber.setWidth 32) with he | ⟨_, _, _, he⟩
    · rw [he]
    · rw [he]
  · rfl

theorem destroyPageTable_nextKernelFrame :
    (pm.destroyPageTable (some base) numPages).nextKernelFrame = pm.nextKernelFrame := by
  refine Loop.up_const PhysicalMemory.nextKernelFrame (fun i pm' => ?_) _ _
  dsimp only
  split
  · rcases freeFrame_cases pm' ((pm'.entry base i).frameNumber.setWidth 32) with he | ⟨_, _, _, he⟩
    · rw [he]
    · rw [he]
  · rfl

/-- Only the frames of the table are given back. -/
theorem destroyPageTable_frameBitmap {f : Nat}
    (hne : ∀ i, i < numPages.toNat → (pm.entry base i).frameNumber.toNat ≠ f) :
    (pm.destroyPageTable (some base) numPages).frameBitmap f = pm.frameBitmap f := by
  refine (Loop.up_inv (fun _ (pm' : PhysicalMemory) =>
    pm'.memory = pm.memory ∧ pm'.frameBitmap f = pm.frameBitmap f) ⟨rfl, rfl⟩ ?_).2
  rintro i pm' hi ⟨hmem, hbit⟩
  have hentry : pm'.entry base i = pm.entry base i := by
    rw [PhysicalMemory.entry, hmem, PhysicalMemory.entry]
  have hframe : ((pm.entry base i).frameNumber.setWidth 32).toNat ≠ f := by
    rw [BitVec.toNat_setWidth_of_le (by decide)]
    exact hne i hi
  dsimp only
  rw [hentry]
  split
  · rcases freeFrame_cases pm' ((pm.entry base i).frameNumber.setWidth 32) with he | ⟨_, _, _, he⟩
    · rw [he]
      exact ⟨hmem, hbit⟩
    · rw [he]
      refine ⟨hmem, ?_⟩
      show Function.update pm'.frameBitmap _ false f = _
      rw [Function.update_of_ne (Ne.symm hframe), hbit]
  · exact ⟨hmem, hbit⟩

end

end LocOS
