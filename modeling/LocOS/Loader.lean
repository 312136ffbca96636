import LocOS.Process
import LocOS.Space

/-!
# Loader

Processes made from programs (`sys/loader.c`, second half). Every load, also
one that fails halfway, keeps the page tables apart and leaves the image of
the program in the frames of its table.
-/

namespace LocOS

/-! ## Programs -/

/-- A program read from a file: the header fields process creation reads, and
the two segments. -/
structure Program where
  textAddress : Word
  dataAddress : Word
  codeSize : Word
  dataSize : Word
  priority : Word
  ttl : Word
  codeSegment : List Word
  dataSegment : List Word
  codeLength : codeSegment.length = codeSize.toNat
  dataLength : dataSegment.length = dataSize.toNat

/-- A program of code only. -/
theorem Program.noData : ([] : List Word).length = (0 : Word).toNat := rfl

/-- A program of one instruction: one page. -/
def oneInstruction (instruction : Word) : Program where
  textAddress := 0
  dataAddress := 0
  codeSize := 1
  dataSize := 0
  priority := 0
  ttl := 10
  codeSegment := [instruction]
  dataSegment := []
  codeLength := rfl
  dataLength := Program.noData

/-- Rounded up in 32 bits. -/
def calculatePagesNeeded (sizeInBytes : Word) : Word :=
  if sizeInBytes = 0 then 0
  else (sizeInBytes + BitVec.ofNat 32 pageSize - 1) / BitVec.ofNat 32 pageSize

theorem calculatePagesNeeded_lt (sizeInBytes : Word) :
    (calculatePagesNeeded sizeInBytes).toNat < 2 ^ 20 := by
  unfold calculatePagesNeeded
  split
  · decide
  · have h := (sizeInBytes + BitVec.ofNat 32 pageSize - 1).isLt
    have h4096 : (BitVec.ofNat 32 pageSize).toNat = 4096 := rfl
    rw [BitVec.toNat_udiv, h4096]
    omega

namespace Program

/-- The declared address, a byte address, in words. -/
def codeStartWord (program : Program) : Word := program.textAddress / BitVec.ofNat 32 wordSize

/-- The word behind the code. -/
def codeEndWord (program : Program) : Word := program.codeStartWord + program.codeSize

/-- The declared address of the data in words. -/
def dataStartWord (program : Program) : Word := program.dataAddress / BitVec.ofNat 32 wordSize

/-- The word behind the data. -/
def dataEndWord (program : Program) : Word := program.dataStartWord + program.dataSize

/-- The pages up to the end of both segments, from address 0 on. -/
def totalPages (program : Program) : Word :=
  let totalWords :=
    if program.codeEndWord < program.dataEndWord then program.dataEndWord
    else program.codeEndWord
  calculatePagesNeeded (totalWords * BitVec.ofNat 32 wordSize)

theorem totalPages_lt (program : Program) : program.totalPages.toNat < 2 ^ 20 :=
  calculatePagesNeeded_lt _

/-- Word `w` of the address space: data over code over zero. -/
def imageWord (program : Program) (w : Nat) : Word :=
  if program.dataStartWord.toNat ≤ w ∧ w < program.dataEndWord.toNat then
    program.dataSegment.getD (w - program.dataStartWord.toNat) 0
  else if program.codeStartWord.toNat ≤ w ∧ w < program.codeEndWord.toNat then
    program.codeSegment.getD (w - program.codeStartWord.toNat) 0
  else 0

end Program

/-! ## Filling a frame -/

namespace PhysicalMemory

/-- `write_word(pm, frame_address + j, 0)` over the words of a frame. -/
def clearFrame (pm : PhysicalMemory) (frameAddress : Nat) : PhysicalMemory :=
  Loop.up (fun j pm => pm.writeWord (BitVec.ofNat 32 (frameAddress + j)) 0) wordsPerPage pm

/-- Copies the part of a segment that overlaps the page. Word indices inside
one page and one frame stay far below 32 bits and are plain numbers here; the
bounds of the segment are the 32-bit values of the header. -/
def copySegment (pm : PhysicalMemory) (segment : List Word) (startWord endWord : Word)
    (frameAddress pageStartWord : Nat) : PhysicalMemory :=
  let pageEndWord := pageStartWord + wordsPerPage
  if startWord.toNat < pageEndWord ∧ pageStartWord < endWord.toNat then
    let copyStart := if pageStartWord < startWord.toNat then startWord.toNat else pageStartWord
    let copyEnd := if endWord.toNat < pageEndWord then endWord.toNat else pageEndWord
    Loop.up (fun i pm =>
        let word := copyStart + i
        let codeIdx := word - startWord.toNat
        let offsetInPage := word - pageStartWord
        pm.writeWord (BitVec.ofNat 32 (frameAddress + offsetInPage)) (segment.getD codeIdx 0))
      (copyEnd - copyStart) pm
  else pm

end PhysicalMemory

/-- The body of the loop over pages, once the page has a frame. -/
def loadPage (program : Program) (pageTable page : Nat) (frame : Word) (pm : PhysicalMemory) :
    PhysicalMemory :=
  -- `accessed`, `dirty` and `reserved` stay as they are
  let pm := pm.setEntry pageTable page
    { pm.entry pageTable page with
      frameNumber := frame.setWidth 12
      present := true
      rw := true
      user := true }
  let frameAddress := frame.toNat * wordsPerPage
  let pageStartWord := page * wordsPerPage
  let pm := pm.clearFrame frameAddress
  let pm := pm.copySegment program.codeSegment program.codeStartWord program.codeEndWord
    frameAddress pageStartWord
  pm.copySegment program.dataSegment program.dataStartWord program.dataEndWord
    frameAddress pageStartWord

/-- The loop over pages; the flag turns false, and nothing more is written,
once no frame is free. -/
def loadPages (program : Program) (pageTable totalPages : Nat) (pm : PhysicalMemory) :
    Bool × PhysicalMemory :=
  Loop.up (fun page (ok, pm) =>
      if ok then
        let (frame, pm) := pm.allocateFrame
        if frame = 0 then (false, pm) else (true, loadPage program pageTable page frame pm)
      else (ok, pm))
    totalPages (true, pm)

/-! ## Process creation -/

/-- `ready_queue`, `machine` and `scheduler` are kept for nobody. -/
structure Loader where
  physicalMemory : PhysicalMemory
  nextPid : Int
  totalLoaded : Int

/-- PIDs start at 1. -/
def createLoader (pm : PhysicalMemory) : Loader where
  physicalMemory := pm
  nextPid := 1
  totalLoaded := 0

/-- The PCB of a process just created. -/
def Program.pcb (program : Program) (pid : Int) (pageTable : Nat) : PCB :=
  { ((createPcb pid).setPriority program.priority.toInt).setTtl program.ttl.toInt with
    mm := {
      code := program.codeStartWord * BitVec.ofNat 32 wordSize
      data := program.dataStartWord * BitVec.ofNat 32 wordSize
      pgb := some pageTable } }

/-- A failure after the page table was created gives nothing back: neither
the table nor the frames allocated so far, nor the PID. -/
def createProcessFromProgram (loader : Loader) (program : Program) : Option PCB × Loader :=
  let pid := loader.nextPid
  let loader := { loader with nextPid := loader.nextPid + 1 }
  match loader.physicalMemory.createPageTable program.totalPages with
  | (none, pm) => (none, { loader with physicalMemory := pm })
  | (some pageTable, pm) =>
      match loadPages program pageTable program.totalPages.toNat pm with
      | (false, pm) => (none, { loader with physicalMemory := pm })
      | (true, pm) =>
          (some (program.pcb pid pageTable),
            { loader with physicalMemory := pm, totalLoaded := loader.totalLoaded + 1 })

/-- Loads programs one after another, as `main` does, and keeps the processes
that could be created. -/
def createProcesses (loader : Loader) : List Program → List (Program × PCB) × Loader
  | [] => ([], loader)
  | program :: programs =>
      let created := createProcessFromProgram loader program
      let rest := createProcesses created.2 programs
      ((created.1.map fun pcb => (program, pcb)).toList ++ rest.1, rest.2)

/-- The address space of a created process. -/
def spaceOf (process : Program × PCB) : Space where
  base := process.2.mm.pgb.getD 0
  pages := process.1.totalPages.toNat

/-! ## What filling a frame writes -/

namespace PhysicalMemory

variable {pm : PhysicalMemory}

theorem writeWord_of_lt {x : Nat} (hx : x < totalWords) (value : Word) :
    pm.writeWord (BitVec.ofNat 32 x) value =
      { pm with memory := Function.update pm.memory x value } := by
  have hnat : (BitVec.ofNat 32 x).toNat = x := by
    rw [BitVec.toNat_ofNat]
    exact Nat.mod_eq_of_lt (Nat.lt_trans hx (by decide))
  rw [writeWord, hnat, if_neg (Nat.not_le.mpr hx)]

/-- A loop of stores at consecutive addresses. -/
theorem store_run (f : Nat → Word) {a n : Nat} (h : a + n ≤ totalWords) :
    Loop.up (fun i pm => pm.writeWord (BitVec.ofNat 32 (a + i)) (f i)) n pm =
      { pm with memory := fun x => if a ≤ x ∧ x < a + n then f (x - a) else pm.memory x } := by
  have hup : Loop.up (fun i pm => pm.writeWord (BitVec.ofNat 32 (a + i)) (f i)) n pm =
      { pm with memory := Loop.up (fun i t => Function.update t (a + i) (f i)) n pm.memory } := by
    induction n with
    | zero => rfl
    | succ n ih =>
        rw [Loop.up_succ, ih (by omega), writeWord_of_lt (by omega)]
        rfl
  rw [hup]
  congr 1
  funext x
  exact Loop.up_update f a n pm.memory x

theorem clearFrame_eq {frameAddress : Nat} (h : frameAddress + wordsPerPage ≤ totalWords) :
    pm.clearFrame frameAddress =
      { pm with memory := fun x =>
          if frameAddress ≤ x ∧ x < frameAddress + wordsPerPage then 0 else pm.memory x } :=
  store_run (fun _ => 0) h

theorem memory_same {m : Nat → Word} (h : ∀ x, m x = pm.memory x) :
    { pm with memory := m } = pm := by
  rw [show m = pm.memory from funext h]

/-- The copying loop, between two words of the page. -/
theorem copy_run (segment : List Word)
    {startWord frameAddress pageStartWord copyStart copyEnd : Nat}
    (h : frameAddress + wordsPerPage ≤ totalWords) (hstart : pageStartWord ≤ copyStart)
    (hend : copyEnd ≤ pageStartWord + wordsPerPage) :
    Loop.up (fun i pm =>
        pm.writeWord (BitVec.ofNat 32 (frameAddress + (copyStart + i - pageStartWord)))
          (segment.getD (copyStart + i - startWord) 0)) (copyEnd - copyStart) pm =
      { pm with memory := fun x =>
          if (frameAddress ≤ x ∧ x < frameAddress + wordsPerPage) ∧
              copyStart ≤ pageStartWord + (x - frameAddress) ∧
              pageStartWord + (x - frameAddress) < copyEnd then
            segment.getD (pageStartWord + (x - frameAddress) - startWord) 0
          else pm.memory x } := by
  have haddr : ∀ i, frameAddress + (copyStart + i - pageStartWord) =
      frameAddress + (copyStart - pageStartWord) + i := fun i => by omega
  simp only [haddr]
  by_cases hempty : copyEnd ≤ copyStart
  · rw [show copyEnd - copyStart = 0 by omega, Loop.up_zero]
    exact (memory_same fun x => if_neg (by omega)).symm
  · rw [store_run (fun i => segment.getD (copyStart + i - startWord) 0) (by omega)]
    congr 1
    funext x
    by_cases hx : frameAddress + (copyStart - pageStartWord) ≤ x ∧
        x < frameAddress + (copyStart - pageStartWord) + (copyEnd - copyStart)
    · rw [if_pos hx, if_pos (by omega)]
      congr 1
      omega
    · rw [if_neg hx, if_neg (by omega)]

theorem copySegment_eq (segment : List Word) (startWord endWord : Word)
    {frameAddress pageStartWord : Nat} (h : frameAddress + wordsPerPage ≤ totalWords) :
    pm.copySegment segment startWord endWord frameAddress pageStartWord =
      { pm with memory := fun x =>
          if (frameAddress ≤ x ∧ x < frameAddress + wordsPerPage) ∧
              startWord.toNat ≤ pageStartWord + (x - frameAddress) ∧
              pageStartWord + (x - frameAddress) < endWord.toNat then
            segment.getD (pageStartWord + (x - frameAddress) - startWord.toNat) 0
          else pm.memory x } := by
  by_cases hoverlap : startWord.toNat < pageStartWord + wordsPerPage ∧
      pageStartWord < endWord.toNat
  · simp only [copySegment, if_pos hoverlap]
    rw [copy_run segment h (by split <;> omega) (by split <;> omega)]
    congr 1
    funext x
    refine if_congr ?_ rfl rfl
    split <;> split <;> omega
  · simp only [copySegment, if_neg hoverlap]
    exact (memory_same fun x => if_neg (by omega)).symm

end PhysicalMemory

/-- The loop that writes the fresh entries of a table. -/
theorem fillTable_eq (pm : PhysicalMemory) (pageTable n : Nat) :
    Loop.up (fun i pm => pm.setEntry pageTable i PhysicalMemory.freshEntry) n pm =
      { pm with memory := fun x =>
          if pageTable ≤ x ∧ x < pageTable + n then PhysicalMemory.freshEntry.toWord
          else pm.memory x } := by
  have hup : Loop.up (fun i pm => pm.setEntry pageTable i PhysicalMemory.freshEntry) n pm =
      { pm with memory := Loop.up (fun i t => Function.update t (pageTable + i)
          PhysicalMemory.freshEntry.toWord) n pm.memory } := by
    induction n with
    | zero => rfl
    | succ n ih => rw [Loop.up_succ, ih, PhysicalMemory.setEntry, Loop.up_succ]
  rw [hup]
  congr 1
  funext x
  exact Loop.up_update (fun _ => PhysicalMemory.freshEntry.toWord) pageTable n pm.memory x

/-- The entry of a loaded page. -/
def loadedEntry (old : PageTableEntry) (frame : Word) : PageTableEntry :=
  { old with frameNumber := frame.setWidth 12, present := true, rw := true, user := true }

/-- Loading a page writes its entry and the image into its frame. -/
theorem loadPage_eq (program : Program) (pm : PhysicalMemory) (pageTable page : Nat)
    {frame : Word} (hframe : frame.toNat < totalFrames) :
    loadPage program pageTable page frame pm =
      { pm with memory := fun x =>
          if frame.toNat * wordsPerPage ≤ x ∧ x < frame.toNat * wordsPerPage + wordsPerPage then
            program.imageWord (page * wordsPerPage + (x - frame.toNat * wordsPerPage))
          else if x = pageTable + page then
            (loadedEntry (pm.entry pageTable page) frame).toWord
          else pm.memory x } := by
  have hroom : frame.toNat * wordsPerPage + wordsPerPage ≤ totalWords := by
    simp only [totalFrames, wordsPerPage, totalWords] at *
    omega
  simp only [loadPage, PhysicalMemory.copySegment_eq _ _ _ hroom,
    PhysicalMemory.clearFrame_eq hroom, PhysicalMemory.setEntry, loadedEntry,
    Function.update_apply, Program.imageWord]
  congr 1
  funext x
  by_cases hx : frame.toNat * wordsPerPage ≤ x ∧ x < frame.toNat * wordsPerPage + wordsPerPage
  · simp only [hx, true_and, and_self, if_true]
  · simp only [hx, false_and, if_false]

end LocOS
