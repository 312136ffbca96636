import LocOS.Space

/-!
# Fault

A store through an entry that is not present. The translation reports the
fault by the word address 0, which is also a valid one: the entry is marked
all the same, and the value goes to word 0 of physical memory, the first word
of the kernel area.
-/

namespace LocOS

namespace PhysicalMemory

variable {pm : PhysicalMemory} {base : Nat} {va value : Word}

theorem touched_eq_iff (e : PageTableEntry) :
    touched e = e ↔ e.dirty = true ∧ e.accessed = true := by
  obtain ⟨_, _, _, _, _, _, _⟩ := e
  simp [touched, and_comm, eq_comm]

/-- What a faulting store writes: word 0, and the accessed and dirty bits of
the entry. -/
theorem mmuWriteWord_fault (value : Word)
    (hfault : (pm.entry base (virtualPage va)).present = false) (x : Nat) :
    (pm.mmuWriteWord (some base) va value).memory x =
      if x = 0 then value
      else if x = base + virtualPage va then (touched (pm.entry base (virtualPage va))).toWord
      else pm.memory x := by
  have hzero : pm.translateVirtualToPhysical (some base) va = 0 := by
    simp [translateVirtualToPhysical, hfault]
  simp [mmuWriteWord, writeWord, hzero, setEntry, Function.update_apply, touched]

/-- A faulting store changes nothing exactly when word 0 holds the value
already and the entry is marked already, or is word 0 itself. -/
theorem mmuWriteWord_fault_iff (hfault : (pm.entry base (virtualPage va)).present = false) :
    (pm.mmuWriteWord (some base) va value).memory = pm.memory ↔
      value = pm.memory 0 ∧ (base + virtualPage va = 0 ∨
        (pm.entry base (virtualPage va)).dirty = true ∧
          (pm.entry base (virtualPage va)).accessed = true) := by
  constructor
  · intro hsame
    have hword : ∀ x, (pm.mmuWriteWord (some base) va value).memory x = pm.memory x :=
      fun x => congrFun hsame x
    have hzero := hword 0
    rw [mmuWriteWord_fault value hfault, if_pos rfl] at hzero
    refine ⟨hzero, ?_⟩
    by_cases hentry : base + virtualPage va = 0
    · exact .inl hentry
    · right
      have hmarked := hword (base + virtualPage va)
      rw [mmuWriteWord_fault value hfault, if_neg hentry, if_pos rfl] at hmarked
      refine (touched_eq_iff _).mp ?_
      rw [← PageTableEntry.ofWord_toWord (touched _), hmarked]
      rfl
  · rintro ⟨rfl, hentry⟩
    funext x
    rw [mmuWriteWord_fault _ hfault]
    split
    · rename_i hx
      rw [hx]
    · rename_i hx
      split
      · rename_i hx'
        rcases hentry with hentry | hmarked
        · omega
        · rw [(touched_eq_iff _).mpr hmarked, hx']
          exact PageTableEntry.toWord_ofWord _
      · rfl

end PhysicalMemory

/-- A table of two pages in a fresh memory. -/
def twoPageTable : Option Nat × PhysicalMemory := createPhysicalMemory.createPageTable 2

/-- A store to its second page, which is not present, replaces the entry of
the first page and marks the one of the second. -/
theorem faultingStore_changes :
    twoPageTable.1 = some 0 ∧ PhysicalMemory.virtualPage 4096 = 1 ∧
      (twoPageTable.2.entry 0 1).present = false ∧
      (twoPageTable.2.mmuWriteWord (some 0) 4096 7).memory 0 = 7 ∧
      twoPageTable.2.memory 0 ≠ 7 ∧
      ((twoPageTable.2.mmuWriteWord (some 0) 4096 7).entry 0 1).dirty = true ∧
      (twoPageTable.2.entry 0 1).dirty = false := by
  decide +kernel

/-- So it does not leave the memory as it was. -/
theorem faultingStore_fault_iff :
    (twoPageTable.2.entry 0 (PhysicalMemory.virtualPage 4096)).present = false ∧
      ¬ (twoPageTable.2.mmuWriteWord (some 0) 4096 7).memory = twoPageTable.2.memory := by
  have hfault : (twoPageTable.2.entry 0 (PhysicalMemory.virtualPage 4096)).present = false := by
    decide +kernel
  refine ⟨hfault, ?_⟩
  rw [PhysicalMemory.mmuWriteWord_fault_iff hfault]
  intro hkept
  have hword : (7 : Word) ≠ twoPageTable.2.memory 0 := by decide +kernel
  exact hword hkept.1

end LocOS
