import LocOS.Image

/-!
# Coverage

The pages a program is given, computed in 32 bits, against the end of its
image, a natural number. They cover the image up to 2^32 - 4096; behind that
the byte count has wrapped, and a table far too short is made without a word.
-/

namespace LocOS

namespace Program

/-- The page count as the 32-bit sums give it: the ends of the segments, the
bytes and the rounding wrap one after another. -/
def pagesAsked (program : Program) : Nat :=
  (4 * max ((program.codeStart + program.codeSize.toNat) % 2 ^ 32)
    ((program.dataStart + program.dataSize.toNat) % 2 ^ 32) + 4095) % 2 ^ 32 / 4096

/-- Word `w` is one of the image. -/
def InImage (program : Program) (w : Nat) : Prop :=
  program.codeStart ≤ w ∧ w < program.codeStart + program.codeSize.toNat ∨
    program.dataStart ≤ w ∧ w < program.dataStart + program.dataSize.toNat

theorem calculatePagesNeeded_toNat (sizeInBytes : Word) :
    (calculatePagesNeeded sizeInBytes).toNat = (sizeInBytes.toNat + 4095) % 2 ^ 32 / 4096 := by
  unfold calculatePagesNeeded
  split
  · rename_i hzero
    rw [hzero]
    rfl
  · have hround : sizeInBytes + BitVec.ofNat 32 pageSize - 1 = sizeInBytes + 4095 := by
      rw [BitVec.sub_eq_add_neg, BitVec.add_assoc]
      rfl
    rw [hround, BitVec.toNat_udiv, BitVec.toNat_add]
    rfl

theorem totalPages_toNat (program : Program) : program.totalPages.toNat = program.pagesAsked := by
  have hcode : program.codeEndWord.toNat =
      (program.codeStart + program.codeSize.toNat) % 2 ^ 32 := by
    rw [codeEndWord, BitVec.toNat_add, codeStartWord_toNat]
  have hdata : program.dataEndWord.toNat =
      (program.dataStart + program.dataSize.toNat) % 2 ^ 32 := by
    rw [dataEndWord, BitVec.toNat_add, dataStartWord_toNat]
  have hend : (if program.codeEndWord < program.dataEndWord then program.dataEndWord
      else program.codeEndWord).toNat =
      max program.codeEndWord.toNat program.dataEndWord.toNat := by
    split
    · rename_i hlt
      rw [BitVec.lt_def] at hlt
      omega
    · rename_i hlt
      rw [BitVec.lt_def] at hlt
      omega
  rw [totalPages, calculatePagesNeeded_toNat, BitVec.toNat_mul, hend, hcode, hdata, pagesAsked]
  have hfour : (BitVec.ofNat 32 wordSize).toNat = 4 := rfl
  rw [hfour]
  omega

/-- The pages cover the image exactly when no sum wraps. -/
theorem covers_iff (program : Program) :
    program.imageEnd ≤ pageSize * program.totalPages.toNat ↔ program.imageEnd ≤ 2 ^ 32 - 4096 := by
  have hpages := program.totalPages_lt
  rw [totalPages_toNat] at hpages ⊢
  unfold imageEnd pagesAsked at *
  simp only [wordSize, pageSize] at *
  omega

/-- The last word of the image lies below its end. -/
theorem InImage.lt {program : Program} {w : Nat} (h : program.InImage w) :
    4 * w < program.imageEnd := by
  unfold InImage at h
  unfold imageEnd
  simp only [wordSize]
  omega

end Program

/-! ## The pages are mapped -/

section
variable {program : Program} {pm pm' : PhysicalMemory} {base n page : Nat} {frame : Word}

/-- Filling a page changes no entry but its own: the table lies in the kernel
area, the frame behind it. -/
theorem loadPage_entry_ne (hlo : kernelFrames ≤ frame.toNat) (hhi : frame.toNat < totalFrames)
    {j : Nat} (hj : base + j < kernelSpaceWords) (hne : j ≠ page) :
    (loadPage program base page frame pm).entry base j = pm.entry base j := by
  rw [loadPage_eq program _ base page hhi, PhysicalMemory.entry, PhysicalMemory.entry]
  simp only [kernelFrames, kernelSpaceWords, wordsPerPage] at *
  show PageTableEntry.ofWord (if _ then _ else if _ then _ else _) = _
  rw [if_neg (by omega), if_neg (by omega)]
  rfl

/-- The first `n` pages were filled: their entries are present and name `n`
frames that were free. Nothing else was taken. -/
structure Filled (pm pm' : PhysicalMemory) (base n : Nat) : Prop where
  present : ∀ j, j < n → (pm'.entry base j).present = true
  inUser : ∀ j, j < n → kernelFrames ≤ (pm'.entry base j).frameNumber.toNat
  free : ∀ j, j < n → pm.frameBitmap (pm'.entry base j).frameNumber.toNat = false
  frames : ∀ j k, j < n → k < n →
    (pm'.entry base j).frameNumber.toNat = (pm'.entry base k).frameNumber.toNat → j = k
  bitmap : ∀ f, pm'.frameBitmap f = true ↔
    pm.frameBitmap f = true ∨ ∃ j, j < n ∧ (pm'.entry base j).frameNumber.toNat = f
  total : pm'.totalAllocatedFrames = pm.totalAllocatedFrames + BitVec.ofNat 32 n

theorem Filled.nil (pm : PhysicalMemory) (base : Nat) : Filled pm pm base 0 where
  present := fun j hj => absurd hj (Nat.not_lt_zero j)
  inUser := fun j hj => absurd hj (Nat.not_lt_zero j)
  free := fun j hj => absurd hj (Nat.not_lt_zero j)
  frames := fun j _ hj => absurd hj (Nat.not_lt_zero j)
  bitmap := fun _ => ⟨.inl, fun h => h.resolve_right fun ⟨j, hj, _⟩ => Nat.not_lt_zero j hj⟩
  total := (BitVec.add_zero _).symm

/-- A frame that is free now was free before, and no page has it. -/
theorem Filled.unused (h : Filled pm pm' base n) {f : Nat} (hfree : pm'.frameBitmap f = false) :
    pm.frameBitmap f = false ∧ ∀ j, j < n → (pm'.entry base j).frameNumber.toNat ≠ f := by
  have hunmarked := mt (h.bitmap f).mpr (Bool.eq_false_iff.mp hfree)
  rw [not_or] at hunmarked
  refine ⟨Bool.eq_false_iff.mpr hunmarked.1, fun j hj he => ?_⟩
  exact hunmarked.2 ⟨j, hj, he⟩

/-- One entry more, which names a frame that was free. -/
theorem Filled.snoc {filled : PhysicalMemory} (h : Filled pm pm' base n)
    (hold : ∀ j, j < n → filled.entry base j = pm'.entry base j)
    (hpresent : (filled.entry base n).present = true)
    (hframe : (filled.entry base n).frameNumber.toNat = frame.toNat)
    (hlo : kernelFrames ≤ frame.toNat) (hfree : pm'.frameBitmap frame.toNat = false)
    (hbit : filled.frameBitmap = Function.update pm'.frameBitmap frame.toNat true)
    (htotal : filled.totalAllocatedFrames = pm'.totalAllocatedFrames + 1) :
    Filled pm filled base (n + 1) where
  present := by
    refine Nat.forall_lt_succ_right.mpr ⟨fun j hj => ?_, hpresent⟩
    rw [hold j hj]
    exact h.present j hj
  inUser := by
    refine Nat.forall_lt_succ_right.mpr ⟨fun j hj => ?_, ?_⟩
    · rw [hold j hj]
      exact h.inUser j hj
    · rw [hframe]
      exact hlo
  free := by
    refine Nat.forall_lt_succ_right.mpr ⟨fun j hj => ?_, ?_⟩
    · rw [hold j hj]
      exact h.free j hj
    · rw [hframe]
      exact (h.unused hfree).1
  frames := by
    have hother := (h.unused hfree).2
    intro j k hj hk he
    rcases Nat.lt_succ_iff_lt_or_eq.mp hj with hj | rfl
    · rcases Nat.lt_succ_iff_lt_or_eq.mp hk with hk | rfl
      · rw [hold j hj, hold k hk] at he
        exact h.frames j k hj hk he
      · rw [hold j hj, hframe] at he
        exact absurd he (hother j hj)
    · rcases Nat.lt_succ_iff_lt_or_eq.mp hk with hk | rfl
      · rw [hold k hk, hframe] at he
        exact absurd he.symm (hother k hk)
      · rfl
  bitmap := by
    intro f
    have hnames : (∃ j, j < n ∧ (filled.entry base j).frameNumber.toNat = f) ↔
        ∃ j, j < n ∧ (pm'.entry base j).frameNumber.toNat = f := by
      refine exists_congr fun j => and_congr_right fun hj => ?_
      rw [hold j hj]
    have hmarked : filled.frameBitmap f = true ↔ pm'.frameBitmap f = true ∨ frame.toNat = f := by
      rw [hbit, Function.update_apply]
      by_cases hf : f = frame.toNat
      · rw [if_pos hf]
        exact iff_of_true rfl (.inr hf.symm)
      · rw [if_neg hf]
        exact (or_iff_left (Ne.symm hf)).symm
    rw [hmarked, h.bitmap, Nat.exists_lt_succ_right, hnames, hframe, or_assoc]
  total := by
    rw [htotal, h.total, BitVec.ofNat_add, BitVec.add_assoc]
    rfl

/-- One page more, with a frame that was free all along. -/
theorem Filled.loadPage (h : Filled pm pm' base n) (hroom : base + n < kernelSpaceWords)
    (hlo : kernelFrames ≤ frame.toNat) (hhi : frame.toNat < totalFrames)
    (hfree : pm'.frameBitmap frame.toNat = false) :
    Filled pm (LocOS.loadPage program base n frame (pm'.take frame)) base (n + 1) := by
  have hentry : (LocOS.loadPage program base n frame (pm'.take frame)).entry base n =
      loadedEntry (pm'.entry base n) frame := loadPage_entryAt hroom hlo hhi
  refine h.snoc (fun j hj => ?_) ?_ ?_ hlo hfree ?_ ?_
  · exact loadPage_entry_ne hlo hhi (by omega) (by omega)
  · rw [hentry]
    rfl
  · rw [hentry, loadedEntry_frame hhi]
  · rw [loadPage_eq program _ base n hhi]
    rfl
  · rw [loadPage_eq program _ base n hhi]
    rfl

/-- What a loop over pages that succeeds has done. -/
theorem loadPages_filled (hroom : base + n ≤ kernelSpaceWords)
    (hok : (loadPages program base n pm).1 = true) :
    Filled pm (loadPages program base n pm).2 base n := by
  refine loadPages_inv (fun i pm' => Filled pm pm' base i) (.nil pm base) ?_ hok
  intro i pm' frame hi h hlo hhi hfree
  exact h.loadPage (by omega) hlo hhi hfree

end

/-- What a process just created was given: the next kernel words for its
table, and frames for its pages. `next_kernel_frame` never passes the kernel
area. -/
theorem createProcessFromProgram_filled {loader : Loader} {program : Program} {pcb : PCB}
    (hnext : loader.physicalMemory.nextKernelFrame.toNat ≤ kernelSpaceWords)
    (hcreate : (createProcessFromProgram loader program).1 = some pcb) :
    pcb.mm.pgb = some loader.physicalMemory.nextKernelFrame.toNat ∧
      Filled loader.physicalMemory (createProcessFromProgram loader program).2.physicalMemory
        loader.physicalMemory.nextKernelFrame.toNat program.totalPages.toNat := by
  obtain ⟨base, pm, pm', htable, hload, rfl, hpm⟩ := createProcess_of_some hcreate
  have hpages := program.totalPages_lt
  rcases createPageTable_cases loader.physicalMemory program.totalPages with hnone | ⟨hfit, hsome⟩
  · rw [htable] at hnone
    cases hnone
  · rw [htable] at hsome
    obtain ⟨hbase, rfl⟩ := Prod.mk.inj hsome
    obtain rfl := Option.some.inj hbase
    rw [BitVec.toNat_add, Nat.mod_eq_of_lt (by simp only [kernelSpaceWords] at *; omega)] at hfit
    have hfilled := loadPages_filled hfit (congrArg Prod.fst hload)
    rw [hload] at hfilled
    rw [hpm]
    -- the table took kernel words, and no frame
    exact ⟨rfl, hfilled.present, hfilled.inUser, hfilled.free, hfilled.frames, hfilled.bitmap,
      hfilled.total⟩

/-- A process that could be created has pages for its image, and every word of
the image in one of them, exactly when the image ends at 2^32 - 4096 or
below. -/
theorem totalPages_cover_iff {loader : Loader} {program : Program} {pcb : PCB}
    (hnext : loader.physicalMemory.nextKernelFrame.toNat ≤ kernelSpaceWords)
    (hcreate : (createProcessFromProgram loader program).1 = some pcb) :
    (program.imageEnd ≤ pageSize * program.totalPages.toNat ∧
        ∀ w, program.InImage w → ∃ base, pcb.mm.pgb = some base ∧
          w / wordsPerPage < program.totalPages.toNat ∧
          ((createProcessFromProgram loader program).2.physicalMemory.entry base
            (w / wordsPerPage)).present = true) ↔
      program.imageEnd ≤ 2 ^ 32 - 4096 := by
  obtain ⟨hpgb, hfilled⟩ := createProcessFromProgram_filled hnext hcreate
  constructor
  · intro hcovers
    exact program.covers_iff.mp hcovers.1
  · intro hend
    have hcovers := program.covers_iff.mpr hend
    refine ⟨hcovers, fun w hw => ⟨_, hpgb, ?_, ?_⟩⟩
    · have hlt := hw.lt
      simp only [wordsPerPage, pageSize] at *
      omega
    · have hlt := hw.lt
      refine hfilled.present _ ?_
      simp only [wordsPerPage, pageSize] at *
      omega

/-- A program of one instruction in the last word a header can name. -/
def farInstruction (instruction : Word) : Program :=
  { oneInstruction instruction with textAddress := 0xFFFFFFFC }

theorem farInstruction_created : ∃ pcb,
    (createProcessFromProgram (createLoader createPhysicalMemory) (farInstruction 7)).1 =
      some pcb := by
  have hpages : (farInstruction 7).totalPages = 0 := by decide
  rcases createProcessFromProgram_account (createLoader createPhysicalMemory) (farInstruction 7)
    with ⟨hfit, _⟩ | ⟨_, hsome, _⟩
  · exact absurd (by decide) hfit
  · refine Option.isSome_iff_exists.mp (hsome.mpr ?_)
    rw [hpages]
    exact Nat.zero_le _

/-- Its image ends at 2^32, and it becomes a process of no pages. -/
theorem farInstruction_uncovered :
    (∃ pcb, (createProcessFromProgram (createLoader createPhysicalMemory)
        (farInstruction 7)).1 = some pcb) ∧
      (farInstruction 7).imageEnd = 2 ^ 32 ∧ (farInstruction 7).totalPages = 0 ∧
      ¬ (farInstruction 7).imageEnd ≤ pageSize * (farInstruction 7).totalPages.toNat :=
  ⟨farInstruction_created, by decide, by decide, by decide⟩

/-- The image is not covered. -/
theorem farInstruction_cover_iff : ∃ pcb,
    (createProcessFromProgram (createLoader createPhysicalMemory) (farInstruction 7)).1 =
        some pcb ∧
      ¬ ((farInstruction 7).imageEnd ≤ pageSize * (farInstruction 7).totalPages.toNat ∧
        ∀ w, (farInstruction 7).InImage w → ∃ base, pcb.mm.pgb = some base ∧
          w / wordsPerPage < (farInstruction 7).totalPages.toNat ∧
          ((createProcessFromProgram (createLoader createPhysicalMemory)
            (farInstruction 7)).2.physicalMemory.entry base (w / wordsPerPage)).present =
              true) := by
  obtain ⟨pcb, hcreate⟩ := farInstruction_created
  have hnext : (createLoader createPhysicalMemory).physicalMemory.nextKernelFrame.toNat ≤
      kernelSpaceWords := by decide
  have hend : ¬ (farInstruction 7).imageEnd ≤ 2 ^ 32 - 4096 := by decide
  refine ⟨pcb, hcreate, fun hcovers => hend ?_⟩
  exact (totalPages_cover_iff hnext hcreate).mp hcovers

end LocOS
