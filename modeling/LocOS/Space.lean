import LocOS.Memory
import Mathlib.Data.Fintype.Card
import Mathlib.Data.Nat.ModEq

/-!
# Space

The address space a page table describes, and the layout of all of them in
one memory: the tables lie behind one another in the kernel area and no two
entries of any tables name the same frame. Inside its own pages a virtual
access is an access to one word of one space; the words behind the pages are
nobody's business here.
-/

namespace LocOS

/-- A page table: its first word and the number of its entries. -/
structure Space where
  base : Nat
  pages : Nat
  deriving DecidableEq, Repr

namespace Space

/-- The frame entry `i` names. -/
def frame (a : Space) (pm : PhysicalMemory) (i : Nat) : Nat := (pm.entry a.base i).frameNumber.toNat

/-- The physical word behind virtual word `w`. -/
def index (a : Space) (pm : PhysicalMemory) (w : Nat) : Nat :=
  a.frame pm (w / wordsPerPage) * wordsPerPage + w % wordsPerPage

/-- The contents of virtual word `w`. -/
def read (a : Space) (pm : PhysicalMemory) (w : Nat) : Word := pm.memory (a.index pm w)

/-- The virtual words of the space. -/
def words (a : Space) : Nat := a.pages * wordsPerPage

theorem index_lt (a : Space) (pm : PhysicalMemory) (w : Nat) : a.index pm w < totalWords := by
  have hf : a.frame pm (w / wordsPerPage) < 4096 := (pm.entry a.base _).frameNumber.isLt
  have hw : w % wordsPerPage < 1024 := Nat.mod_lt _ (by decide)
  simp only [index, totalWords, wordsPerPage] at *
  omega

theorem page_lt {a : Space} {w : Nat} (hw : w < a.words) : w / wordsPerPage < a.pages := by
  rw [Nat.div_lt_iff_lt_mul (by decide)]
  exact hw

/-- Two words of one frame, or of different frames. -/
theorem index_eq_iff {a b : Space} {pm : PhysicalMemory} {w x : Nat} :
    a.index pm w = b.index pm x ↔
      a.frame pm (w / wordsPerPage) = b.frame pm (x / wordsPerPage) ∧
        w % wordsPerPage = x % wordsPerPage := by
  have hw : w % wordsPerPage < 1024 := Nat.mod_lt _ (by decide)
  have hx : x % wordsPerPage < 1024 := Nat.mod_lt _ (by decide)
  simp only [index, wordsPerPage] at *
  omega

end Space

/-! ## The layout of a memory -/

/-- The entry in word `x`. -/
def PhysicalMemory.entryAt (pm : PhysicalMemory) (x : Nat) : PageTableEntry :=
  .ofWord (pm.memory x)

theorem PhysicalMemory.entry_eq (pm : PhysicalMemory) (base i : Nat) :
    pm.entry base i = pm.entryAt (base + i) := rfl

/-- The word is an entry of one of the tables. -/
def Owned (spaces : List Space) (x : Nat) : Prop :=
  ∃ a ∈ spaces, a.base ≤ x ∧ x < a.base + a.pages

theorem owned_entry {spaces : List Space} {a : Space} (ha : a ∈ spaces) {i : Nat}
    (hi : i < a.pages) : Owned spaces (a.base + i) :=
  ⟨a, ha, Nat.le_add_right _ _, Nat.add_lt_add_left hi _⟩

/-- The page tables of the loaded processes, in load order. -/
structure Layout (pm : PhysicalMemory) (spaces : List Space) : Prop where
  ordered : spaces.Pairwise fun a b => a.base + a.pages ≤ b.base
  inKernel : ∀ x, Owned spaces x → x < kernelSpaceWords
  present : ∀ x, Owned spaces x → (pm.entryAt x).present = true
  inUser : ∀ x, Owned spaces x → kernelFrames ≤ (pm.entryAt x).frameNumber.toNat
  frames : ∀ x y, Owned spaces x → Owned spaces y →
    (pm.entryAt x).frameNumber = (pm.entryAt y).frameNumber → x = y

namespace Layout

variable {pm : PhysicalMemory} {spaces : List Space}

/-- No two tables share an entry. -/
theorem tables (h : Layout pm spaces) {p q : Nat} {a b : Space} {i j : Nat}
    (hp : spaces[p]? = some a) (hq : spaces[q]? = some b) (hi : i < a.pages) (hj : j < b.pages)
    (he : a.base + i = b.base + j) : p = q ∧ i = j := by
  obtain ⟨hpl, rfl⟩ := List.getElem?_eq_some_iff.mp hp
  obtain ⟨hql, rfl⟩ := List.getElem?_eq_some_iff.mp hq
  have hpair := List.pairwise_iff_getElem.mp h.ordered
  rcases Nat.lt_trichotomy p q with hlt | rfl | hgt
  · have := hpair p q hpl hql hlt
    omega
  · exact ⟨rfl, by omega⟩
  · have := hpair q p hql hpl hgt
    omega

/-- A space has a frame for each of its pages. -/
theorem pages_le (h : Layout pm spaces) {a : Space} (ha : a ∈ spaces) : a.pages ≤ totalFrames := by
  have hinj : Function.Injective fun i : Fin a.pages =>
      (pm.entryAt (a.base + i.val)).frameNumber.toFin := by
    intro i j he
    have hsame := h.frames _ _ (owned_entry ha i.isLt) (owned_entry ha j.isLt)
      (BitVec.eq_of_toFin_eq he)
    exact Fin.ext (Nat.add_left_cancel hsame)
  have hcard := Fintype.card_le_of_injective _ hinj
  rwa [Fintype.card_fin, Fintype.card_fin] at hcard

/-- Frames lie above every table. -/
theorem kernel_le_index (h : Layout pm spaces) {a : Space} (ha : a ∈ spaces) {w : Nat}
    (hw : w < a.words) : kernelSpaceWords ≤ a.index pm w := by
  have hf : kernelFrames ≤ a.frame pm (w / wordsPerPage) :=
    h.inUser _ (owned_entry ha (Space.page_lt hw))
  simp only [Space.index, kernelFrames, kernelSpaceWords, wordsPerPage] at *
  omega

/-- Two spaces never share a word. -/
theorem index_inj (h : Layout pm spaces) {p q : Nat} {a b : Space} {w x : Nat}
    (hp : spaces[p]? = some a) (hq : spaces[q]? = some b) (hw : w < a.words) (hx : x < b.words)
    (he : a.index pm w = b.index pm x) : p = q ∧ w = x := by
  obtain ⟨hframe, hoff⟩ := Space.index_eq_iff.mp he
  have hentry := h.frames _ _ (owned_entry (List.mem_of_getElem? hp) (Space.page_lt hw))
    (owned_entry (List.mem_of_getElem? hq) (Space.page_lt hx)) (BitVec.eq_of_toNat_eq hframe)
  obtain ⟨hpq, hpage⟩ := h.tables hp hq (Space.page_lt hw) (Space.page_lt hx) hentry
  refine ⟨hpq, ?_⟩
  rw [← Nat.div_add_mod w wordsPerPage, ← Nat.div_add_mod x wordsPerPage, hpage, hoff]

end Layout

/-! ## Virtual addresses -/

/-- The virtual word a virtual byte address lies in. -/
def virtualWord (va : Word) : Nat := va.toNat / wordSize

theorem virtualPage_eq (va : Word) :
    PhysicalMemory.virtualPage va = virtualWord va / wordsPerPage := by
  simp only [PhysicalMemory.virtualPage, virtualWord, pageOffsetBits, wordSize, wordsPerPage,
    BitVec.toNat_ushiftRight, Nat.shiftRight_eq_div_pow]
  omega

/-- The access lies in the pages of the table. -/
def Space.Covers (a : Space) (va : Word) : Prop := PhysicalMemory.virtualPage va < a.pages

instance (a : Space) (va : Word) : Decidable (a.Covers va) := by
  unfold Space.Covers
  infer_instance

theorem Space.covers_iff (a : Space) {va : Word} : a.Covers va ↔ virtualWord va < a.words := by
  rw [Covers, virtualPage_eq, Nat.div_lt_iff_lt_mul (by decide), words]

theorem Space.Covers.lt {a : Space} {va : Word} (h : a.Covers va) : virtualWord va < a.words :=
  a.covers_iff.mp h

theorem translate_toNat (f : BitVec 12) (va : Word) :
    ((f.setWidth 32 <<< pageOffsetBits ||| va &&& ((1 <<< pageOffsetBits) - 1)) /
      BitVec.ofNat 32 wordSize).toNat = f.toNat * wordsPerPage + virtualWord va % wordsPerPage := by
  have hf := f.isLt
  have hmask : (va &&& ((1 <<< pageOffsetBits) - 1)).toNat = va.toNat % 2 ^ 12 := by
    rw [BitVec.toNat_and]
    exact Nat.and_two_pow_sub_one_eq_mod va.toNat 12
  have hshift : (f.setWidth 32 <<< pageOffsetBits).toNat = 2 ^ 12 * f.toNat := by
    rw [BitVec.toNat_shiftLeft, BitVec.toNat_setWidth, Nat.shiftLeft_eq]
    simp only [pageOffsetBits]
    omega
  have hlt : va.toNat % 2 ^ 12 < 2 ^ 12 := Nat.mod_lt _ (by decide)
  rw [BitVec.toNat_udiv, BitVec.toNat_or, hmask, hshift, ← Nat.two_pow_add_eq_or_of_lt hlt]
  have hfour : (BitVec.ofNat 32 wordSize).toNat = 4 := rfl
  simp only [virtualWord, wordSize, wordsPerPage, hfour] at *
  omega

namespace PhysicalMemory

/-- A translation through a present entry. -/
theorem translate_present {pm : PhysicalMemory} {a : Space} {va : Word}
    (h : (pm.entry a.base (virtualPage va)).present = true) :
    (pm.translateVirtualToPhysical (some a.base) va).toNat = a.index pm (virtualWord va) := by
  simp only [translateVirtualToPhysical, h, if_true]
  rw [translate_toNat, Space.index, Space.frame, virtualPage_eq]

theorem mmuReadWord_present {pm : PhysicalMemory} {a : Space} {va : Word}
    (h : (pm.entry a.base (virtualPage va)).present = true) :
    pm.mmuReadWord (some a.base) va = a.read pm (virtualWord va) := by
  have hlt := a.index_lt pm (virtualWord va)
  simp only [mmuReadWord, readWord, translate_present h, if_neg (Nat.not_le.mpr hlt)]
  rfl

/-- The entry an access through page `i` leaves behind. -/
def touched (e : PageTableEntry) : PageTableEntry := { e with dirty := true, accessed := true }

/-- What a store through a present entry writes: the word, and the accessed
and dirty bits of the entry. -/
theorem mmuWriteWord_memory {pm : PhysicalMemory} {a : Space} {va : Word} (value : Word)
    (h : (pm.entry a.base (virtualPage va)).present = true) (x : Nat) :
    (pm.mmuWriteWord (some a.base) va value).memory x =
      if x = a.index pm (virtualWord va) then value
      else if x = a.base + virtualPage va then
        (touched (pm.entry a.base (virtualPage va))).toWord
      else pm.memory x := by
  have hlt := a.index_lt pm (virtualWord va)
  simp only [mmuWriteWord, writeWord, translate_present h, if_neg (Nat.not_le.mpr hlt), setEntry,
    Function.update_apply, touched]

theorem mmuWriteWord_entry {pm : PhysicalMemory} {a : Space} {va : Word} (value : Word)
    (h : (pm.entry a.base (virtualPage va)).present = true) {b i : Nat}
    (hne : b + i ≠ a.index pm (virtualWord va)) :
    (pm.mmuWriteWord (some a.base) va value).entry b i =
      if b + i = a.base + virtualPage va then touched (pm.entry b i) else pm.entry b i := by
  simp only [entry]
  rw [mmuWriteWord_memory value h, if_neg hne]
  split
  · rename_i he
    rw [PageTableEntry.ofWord_toWord, entry, he]
  · rfl

end PhysicalMemory

/-! ## Stores and the layout -/

section
variable {pm : PhysicalMemory} {spaces : List Space} {p : Nat} {a : Space} {va : Word}

theorem Layout.covers_present (h : Layout pm spaces) (ha : a ∈ spaces) (hva : a.Covers va) :
    (pm.entry a.base (PhysicalMemory.virtualPage va)).present = true :=
  h.present _ (owned_entry ha hva)

/-- A covered store changes no frame number and no present bit. -/
theorem Layout.store_entryAt (h : Layout pm spaces) (ha : a ∈ spaces) (hva : a.Covers va)
    (value : Word) {x : Nat} (hx : x < kernelSpaceWords) :
    (pm.mmuWriteWord (some a.base) va value).entryAt x =
      if x = a.base + PhysicalMemory.virtualPage va then
        PhysicalMemory.touched (pm.entryAt x)
      else pm.entryAt x := by
  have hindex := h.kernel_le_index ha hva.lt
  exact PhysicalMemory.mmuWriteWord_entry value (h.covers_present ha hva) (b := x) (i := 0)
    (by omega)

theorem Layout.store_frameNumber (h : Layout pm spaces) (ha : a ∈ spaces) (hva : a.Covers va)
    (value : Word) {x : Nat} (hx : x < kernelSpaceWords) :
    ((pm.mmuWriteWord (some a.base) va value).entryAt x).present = (pm.entryAt x).present ∧
      ((pm.mmuWriteWord (some a.base) va value).entryAt x).frameNumber =
        (pm.entryAt x).frameNumber := by
  rw [h.store_entryAt ha hva value hx]
  split <;> exact ⟨rfl, rfl⟩

theorem Layout.store_index (h : Layout pm spaces) (ha : a ∈ spaces) (hva : a.Covers va)
    (value : Word) {b : Space} (hb : b ∈ spaces) {w : Nat} (hw : w < b.words) :
    b.index (pm.mmuWriteWord (some a.base) va value) w = b.index pm w := by
  have hx := h.inKernel _ (owned_entry hb (Space.page_lt hw))
  have hframe := (h.store_frameNumber ha hva value hx).2
  simp only [Space.index, Space.frame, PhysicalMemory.entry_eq, hframe]

/-- A covered store keeps the layout. -/
theorem Layout.store (h : Layout pm spaces) (ha : a ∈ spaces) (hva : a.Covers va)
    (value : Word) : Layout (pm.mmuWriteWord (some a.base) va value) spaces where
  ordered := h.ordered
  inKernel := h.inKernel
  present := by
    intro x hx
    rw [(h.store_frameNumber ha hva value (h.inKernel x hx)).1]
    exact h.present x hx
  inUser := by
    intro x hx
    rw [(h.store_frameNumber ha hva value (h.inKernel x hx)).2]
    exact h.inUser x hx
  frames := by
    intro x y hx hy
    rw [(h.store_frameNumber ha hva value (h.inKernel x hx)).2,
      (h.store_frameNumber ha hva value (h.inKernel y hy)).2]
    exact h.frames x y hx hy

/-- A covered store changes one word of one space. -/
theorem Layout.store_read (h : Layout pm spaces) (hp : spaces[p]? = some a) (hva : a.Covers va)
    (value : Word) {q : Nat} {b : Space} (hq : spaces[q]? = some b) {w : Nat} (hw : w < b.words) :
    b.read (pm.mmuWriteWord (some a.base) va value) w =
      if q = p ∧ w = virtualWord va then value else b.read pm w := by
  have ha := List.mem_of_getElem? hp
  have hb := List.mem_of_getElem? hq
  have hne : b.index pm w ≠ a.base + PhysicalMemory.virtualPage va := by
    have h1 := h.kernel_le_index hb hw
    have h2 := h.inKernel _ (owned_entry ha hva)
    omega
  rw [Space.read, h.store_index ha hva value hb hw,
    PhysicalMemory.mmuWriteWord_memory value (h.covers_present ha hva), if_neg hne]
  by_cases hsame : b.index pm w = a.index pm (virtualWord va)
  · rw [if_pos hsame, if_pos (h.index_inj hq hp hw hva.lt hsame)]
  · rw [if_neg hsame, if_neg]
    · rfl
    · rintro ⟨rfl, rfl⟩
      obtain rfl := Option.some.inj (hp.symm.trans hq)
      exact hsame rfl

end

end LocOS
