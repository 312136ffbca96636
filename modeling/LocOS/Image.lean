import LocOS.Admission

/-!
# Image

A created process finds its image in its address space, word by word: data,
code below it, and zero in between. The header's addresses and sizes are
natural numbers here; no sum of them wraps while the image ends at 2^24 or
below. Nobody loaded before sees anything of it.
-/

namespace LocOS

namespace Program

/-- The first words of the segments, `address / WORD_SIZE`. -/
def codeStart (program : Program) : Nat := program.textAddress.toNat / wordSize

/-- See `codeStart`. -/
def dataStart (program : Program) : Nat := program.dataAddress.toNat / wordSize

/-- The byte behind the last word of the image, as a natural number. -/
def imageEnd (program : Program) : Nat :=
  max (program.codeStart + program.codeSize.toNat) (program.dataStart + program.dataSize.toNat) *
    wordSize

/-- What word `w` of the address space should hold. -/
def wordAt (program : Program) (w : Nat) : Word :=
  if program.dataStart ≤ w ∧ w < program.dataStart + program.dataSize.toNat then
    program.dataSegment.getD (w - program.dataStart) 0
  else if program.codeStart ≤ w ∧ w < program.codeStart + program.codeSize.toNat then
    program.codeSegment.getD (w - program.codeStart) 0
  else 0

theorem codeStartWord_toNat (program : Program) :
    program.codeStartWord.toNat = program.codeStart := BitVec.toNat_udiv ..

theorem dataStartWord_toNat (program : Program) :
    program.dataStartWord.toNat = program.dataStart := BitVec.toNat_udiv ..

/-- An image that ends at 2^24 or below ends where the 32-bit sums say. -/
theorem endWords_toNat {program : Program} (h : program.imageEnd ≤ 2 ^ 24) :
    program.codeEndWord.toNat = program.codeStart + program.codeSize.toNat ∧
      program.dataEndWord.toNat = program.dataStart + program.dataSize.toNat := by
  unfold imageEnd at h
  simp only [wordSize] at h
  have hcode : program.codeStart + program.codeSize.toNat < 2 ^ 32 := by
    omega
  have hdata : program.dataStart + program.dataSize.toNat < 2 ^ 32 := by
    omega
  constructor
  · rw [codeEndWord, BitVec.toNat_add, codeStartWord_toNat, Nat.mod_eq_of_lt hcode]
  · rw [dataEndWord, BitVec.toNat_add, dataStartWord_toNat, Nat.mod_eq_of_lt hdata]

theorem imageWord_eq {program : Program} (h : program.imageEnd ≤ 2 ^ 24) (w : Nat) :
    program.imageWord w = program.wordAt w := by
  obtain ⟨hcode, hdata⟩ := endWords_toNat h
  rw [imageWord, wordAt, hcode, hdata, codeStartWord_toNat, dataStartWord_toNat]

end Program

/-- The byte address of a word of the address space. -/
theorem virtualWord_ofNat {w : Nat} (h : w < 2 ^ 30) :
    virtualWord (BitVec.ofNat 32 (4 * w)) = w := by
  rw [virtualWord, BitVec.toNat_ofNat, Nat.mod_eq_of_lt (by omega)]
  simp only [wordSize]
  omega

/-- Whatever was loaded, stored and destroyed before, a created process reads
its image through its page table, and neither the tables nor the frames of the
other processes have changed. -/
theorem createProcessFromProgram_image {s : Residents} (h : residentRuns.Reachable s)
    {program : Program} (hend : program.imageEnd ≤ 2 ^ 24) {pcb : PCB}
    (hcreate : (createProcessFromProgram s.loader program).1 = some pcb) :
    (∀ w, w < 1024 * program.totalPages.toNat →
      (createProcessFromProgram s.loader program).2.physicalMemory.mmuReadWord pcb.mm.pgb
          (BitVec.ofNat 32 (4 * w)) = program.wordAt w) ∧
      Undisturbed s.pm (createProcessFromProgram s.loader program).2.physicalMemory s.spaces := by
  obtain ⟨created, loader', he, _, _, hundisturbed, hnew⟩ :=
    createProcessFromProgram_cases (owners_of_reachable h).allocated program
  rw [he] at hcreate ⊢
  obtain ⟨base, rfl, halloc, hread⟩ := hnew pcb hcreate
  refine ⟨fun w hw => ?_, hundisturbed⟩
  have hpages := program.totalPages_lt
  have hword : virtualWord (BitVec.ofNat 32 (4 * w)) = w := virtualWord_ofNat (by omega)
  have hcovers : (Space.mk base program.totalPages.toNat).Covers (BitVec.ofNat 32 (4 * w)) := by
    rw [Space.covers_iff, hword, Space.words]
    simp only [wordsPerPage]
    omega
  have hpresent := halloc.toLayout.covers_present
    (List.mem_append_right _ (List.mem_singleton_self _)) hcovers
  have htranslate := PhysicalMemory.mmuReadWord_present
    (a := ⟨base, program.totalPages.toNat⟩) hpresent
  rw [hword, hread w (by simp only [wordsPerPage]; omega), Program.imageWord_eq hend] at htranslate
  exact htranslate

theorem oneInstruction_created :
    (createProcessFromProgram (createLoader createPhysicalMemory) (oneInstruction 7)).1.isSome := by
  have hpages : (oneInstruction 7).totalPages = 1 := by decide
  have hfree : kernelFrames ∈ createPhysicalMemory.freeFrames :=
    PhysicalMemory.mem_freeFrames.mpr ⟨by decide, Nat.le_refl _, by decide⟩
  rcases createProcessFromProgram_account (createLoader createPhysicalMemory) (oneInstruction 7)
    with ⟨hfit, _⟩ | ⟨_, hsome, _⟩
  · exact absurd (by decide) hfit
  · refine hsome.mpr ?_
    rw [hpages]
    exact Finset.card_pos.mpr ⟨_, hfree⟩

/-- The first process of a fresh memory reads its only instruction at 0. -/
theorem oneInstruction_image : ∃ pcb,
    (createProcessFromProgram (createLoader createPhysicalMemory) (oneInstruction 7)).1 =
        some pcb ∧
      (createProcessFromProgram (createLoader createPhysicalMemory)
        (oneInstruction 7)).2.physicalMemory.mmuReadWord pcb.mm.pgb (BitVec.ofNat 32 (4 * 0)) =
          7 := by
  have hpages : (oneInstruction 7).totalPages = 1 := by decide
  obtain ⟨pcb, hpcb⟩ := Option.isSome_iff_exists.mp oneInstruction_created
  have himage := createProcessFromProgram_image
    (s := ⟨createLoader createPhysicalMemory, [], []⟩) (.init rfl) (by decide) hpcb
  exact ⟨pcb, hpcb, himage.1 0 (by rw [hpages]; decide)⟩

end LocOS
