import LocOS.Lib.Loop
import Mathlib.Tactic.Common

/-!
# Memory

Physical memory, frame allocation, page tables and the MMU
(`sys/memory.c`). Physical memory is an array of 32-bit words; a page table
is a run of words in its kernel area, each word holding one bit-field
entry. `malloc` and `calloc` are taken to succeed and the messages on
`stderr` are left out: no function reads them.
-/

namespace LocOS

/-- `uint32_t`. -/
abbrev Word := BitVec 32

/-! ## Configuration (`sys/memory.h`) -/

/-- Bytes in a word. -/
abbrev wordSize : Nat := 4

/-- Words of physical memory: a 24-bit bus of bytes. -/
abbrev totalWords : Nat := 4194304

/-- Words of the kernel area, where the page tables live. -/
abbrev kernelSpaceWords : Nat := 262144

/-- Bytes in a page or frame. -/
abbrev pageSize : Nat := 4096

/-- `PAGE_OFFSET_BITS`, of a byte address. -/
abbrev pageOffsetBits : Nat := 12

/-- Frames of physical memory. -/
abbrev totalFrames : Nat := 4096

/-- Frames of the kernel area, which come first. -/
abbrev kernelFrames : Nat := 256

/-- Words in a page or frame. -/
abbrev wordsPerPage : Nat := 1024

example : totalWords = 2 ^ 24 / wordSize ∧ totalFrames = 2 ^ 24 / pageSize ∧
    kernelFrames = kernelSpaceWords * wordSize / pageSize ∧
    wordsPerPage = pageSize / wordSize := by decide

/-! ## Page table entries -/

/-- The bit-fields of a page table entry. -/
structure PageTableEntry where
  frameNumber : BitVec 12
  present : Bool
  rw : Bool
  user : Bool
  accessed : Bool
  dirty : Bool
  reserved : BitVec 15
  deriving DecidableEq, Repr

namespace PageTableEntry

/-- The entry a memory word holds, first field in the low bits. -/
def ofWord (w : Word) : PageTableEntry where
  frameNumber := w.extractLsb' 0 12
  present := w.getLsbD 12
  rw := w.getLsbD 13
  user := w.getLsbD 14
  accessed := w.getLsbD 15
  dirty := w.getLsbD 16
  reserved := w.extractLsb' 17 15

/-- The memory word that holds an entry. -/
def toWord (e : PageTableEntry) : Word :=
  e.frameNumber.setWidth 32 |||
    (BitVec.ofBool e.present).setWidth 32 <<< 12 |||
    (BitVec.ofBool e.rw).setWidth 32 <<< 13 |||
    (BitVec.ofBool e.user).setWidth 32 <<< 14 |||
    (BitVec.ofBool e.accessed).setWidth 32 <<< 15 |||
    (BitVec.ofBool e.dirty).setWidth 32 <<< 16 |||
    e.reserved.setWidth 32 <<< 17

@[simp] theorem ofWord_toWord (e : PageTableEntry) : ofWord e.toWord = e := by
  obtain ⟨f, p, r, u, a, d, v⟩ := e
  simp only [ofWord, toWord, mk.injEq]
  refine ⟨?_, ?_, ?_, ?_, ?_, ?_, ?_⟩
  · ext i hi
    simp [hi, show i < 32 by omega, show i < 13 by omega, show i < 14 by omega,
      show i < 15 by omega, show i < 16 by omega, show i < 17 by omega]
  · simp
  · simp
  · simp
  · simp
  · simp
  · ext i hi
    have hf : f.getLsbD (17 + i) = false := BitVec.getLsbD_of_ge f _ (by omega)
    simp [hi, hf, show 17 + i < 32 by omega, show 17 + i - 12 ≠ 0 by omega,
      show 17 + i - 13 ≠ 0 by omega, show 17 + i - 14 ≠ 0 by omega,
      show 17 + i - 15 ≠ 0 by omega, show 17 + i - 16 ≠ 0 by omega]

/-- No bit of a word is lost in an entry. -/
@[simp] theorem toWord_ofWord (w : Word) : (ofWord w).toWord = w := by
  simp only [toWord, ofWord]
  ext i hi
  rcases (by omega : i < 12 ∨ i = 12 ∨ i = 13 ∨ i = 14 ∨ i = 15 ∨ i = 16 ∨ 17 ≤ i) with
    h | rfl | rfl | rfl | rfl | rfl | h
  · simp [h, show i < 13 by omega, show i < 14 by omega, show i < 15 by omega,
      show i < 16 by omega, show i < 17 by omega, BitVec.getLsbD_eq_getElem hi]
  · simp
  · simp
  · simp
  · simp
  · simp
  · simp [hi, show ¬ i < 12 by omega, show i - 12 ≠ 0 by omega, show i - 13 ≠ 0 by omega,
      show i - 14 ≠ 0 by omega, show i - 15 ≠ 0 by omega, show i - 16 ≠ 0 by omega,
      show ¬ i < 17 by omega, show i - 17 < 15 by omega, show 17 + (i - 17) = i by omega]

end PageTableEntry

/-! ## Physical memory -/

/-- `frame_bitmap` only ever stores 0 and 1; `kernel_space_end` and
`user_space_start` are written once and never read. -/
structure PhysicalMemory where
  memory : Nat → Word
  frameBitmap : Nat → Bool
  nextKernelFrame : Word
  totalAllocatedFrames : Word

/-- Memory is cleared, and the frames of the kernel are taken. -/
def createPhysicalMemory : PhysicalMemory where
  memory := fun _ => 0
  frameBitmap := fun i => decide (i < kernelFrames)
  nextKernelFrame := 0
  totalAllocatedFrames := BitVec.ofNat 32 kernelFrames

namespace PhysicalMemory

/-- First fit over the user frames; frame 0 means that none is free. -/
def allocateFrame (pm : PhysicalMemory) : Word × PhysicalMemory :=
  match (List.range' kernelFrames (totalFrames - kernelFrames)).find?
      (fun i => !pm.frameBitmap i) with
  | some i =>
      (BitVec.ofNat 32 i,
        { pm with
          frameBitmap := Function.update pm.frameBitmap i true
          totalAllocatedFrames := pm.totalAllocatedFrames + 1 })
  | none => (0, pm)

/-- Frames of the kernel, frames out of range and free frames are left alone. -/
def freeFrame (pm : PhysicalMemory) (frameNumber : Word) : PhysicalMemory :=
  if totalFrames ≤ frameNumber.toNat ∨ frameNumber.toNat < kernelFrames then pm
  else if pm.frameBitmap frameNumber.toNat then
    { pm with
      frameBitmap := Function.update pm.frameBitmap frameNumber.toNat false
      totalAllocatedFrames := pm.totalAllocatedFrames - 1 }
  else pm

/-- A frame out of range counts as free. -/
def isFrameAllocated (pm : PhysicalMemory) (frameNumber : Word) : Bool :=
  if totalFrames ≤ frameNumber.toNat then false
  else pm.frameBitmap frameNumber.toNat

/-- A bump allocator over the kernel area. The result is the index of the
first word handed out, `none` the null pointer; the limit test adds in 32 bits. -/
def allocateKernelSpace (pm : PhysicalMemory) (sizeInWords : Word) :
    Option Nat × PhysicalMemory :=
  if kernelSpaceWords < (pm.nextKernelFrame + sizeInWords).toNat then (none, pm)
  else
    (some pm.nextKernelFrame.toNat,
      { pm with nextKernelFrame := pm.nextKernelFrame + sizeInWords })

/-- 0 beyond the end of memory. -/
def readWord (pm : PhysicalMemory) (address : Word) : Word :=
  if totalWords ≤ address.toNat then 0 else pm.memory address.toNat

/-- Nothing happens beyond the end of memory. -/
def writeWord (pm : PhysicalMemory) (address value : Word) : PhysicalMemory :=
  if totalWords ≤ address.toNat then pm
  else { pm with memory := Function.update pm.memory address.toNat value }

/-! ## Page tables -/

/-- `page_table[i]`: an unchecked array access into the word array. -/
def entry (pm : PhysicalMemory) (pageTable i : Nat) : PageTableEntry :=
  .ofWord (pm.memory (pageTable + i))

/-- A write to `page_table[i]`, as unchecked as the access. -/
def setEntry (pm : PhysicalMemory) (pageTable i : Nat) (e : PageTableEntry) :
    PhysicalMemory :=
  { pm with memory := Function.update pm.memory (pageTable + i) e.toWord }

/-- The entry `create_page_table` writes: nothing mapped yet. -/
def freshEntry : PageTableEntry where
  frameNumber := 0
  present := false
  rw := true
  user := true
  accessed := false
  dirty := false
  reserved := 0

/-- `sizeof(PageTableEntry)` is one word, and the product with it is a
64-bit `size_t`. -/
def createPageTable (pm : PhysicalMemory) (numPages : Word) :
    Option Nat × PhysicalMemory :=
  let bytes := numPages.toNat * wordSize
  let sizeNeeded : Word :=
    BitVec.ofNat 32 (bytes / wordSize) + (if bytes % wordSize ≠ 0 then 1 else 0)
  match pm.allocateKernelSpace sizeNeeded with
  | (none, pm) => (none, pm)
  | (some pageTable, pm) =>
      (some pageTable,
        Loop.up (fun i pm => pm.setEntry pageTable i freshEntry) numPages.toNat pm)

/-- Frees the frames of the present entries; the table's own words stay
allocated. -/
def destroyPageTable (pm : PhysicalMemory) (pageTable : Option Nat)
    (numPages : Word) : PhysicalMemory :=
  match pageTable with
  | none => pm
  | some pageTable =>
      Loop.up (fun i pm =>
          let e := pm.entry pageTable i
          if e.present then pm.freeFrame (e.frameNumber.setWidth 32) else pm)
        numPages.toNat pm

/-! ## MMU -/

/-- The index of the page a virtual address lies in. -/
def virtualPage (virtualAddress : Word) : Nat :=
  (virtualAddress >>> pageOffsetBits).toNat

/-- The physical word address, or the in-band 0 on a page fault. The page
index is not checked against the length of the table. -/
def translateVirtualToPhysical (pm : PhysicalMemory) (pageTable : Option Nat)
    (virtualAddress : Word) : Word :=
  match pageTable with
  | none => 0
  | some pageTable =>
      let offset : Word := virtualAddress &&& ((1 <<< pageOffsetBits) - 1)
      let e := pm.entry pageTable (virtualPage virtualAddress)
      if e.present then
        (e.frameNumber.setWidth 32 <<< pageOffsetBits ||| offset) / BitVec.ofNat 32 wordSize
      else 0

/-- A fault reads the word at physical address 0. -/
def mmuReadWord (pm : PhysicalMemory) (pageTable : Option Nat)
    (virtualAddress : Word) : Word :=
  match pageTable with
  | none => 0
  | some _ => pm.readWord (pm.translateVirtualToPhysical pageTable virtualAddress)

/-- The entry is marked and the word stored whether or not the translation
faulted. -/
def mmuWriteWord (pm : PhysicalMemory) (pageTable : Option Nat)
    (virtualAddress value : Word) : PhysicalMemory :=
  match pageTable with
  | none => pm
  | some base =>
      let physicalAddress := pm.translateVirtualToPhysical pageTable virtualAddress
      let page := virtualPage virtualAddress
      -- the entry first: a word stored over the entry replaces it
      let pm := pm.setEntry base page
        { pm.entry base page with dirty := true, accessed := true }
      pm.writeWord physicalAddress value

end PhysicalMemory
end LocOS
