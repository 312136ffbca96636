import LocOS.Isolation

/-!
# Locality

What one hardware thread does in a tick, seen from the outside. Inside the
pages of its process a cycle reads its own thread, its own PCB and its own
words, and from these alone it decides what it writes: its thread, its PCB,
one store through its own table and what it prints.
-/

namespace LocOS

/-! ## The effect of a cycle -/

/-- What a cycle writes. -/
structure CycleEffect where
  hw : HardwareThread
  store : Option (Word × Word)
  pcb : PCB
  events : List Event

/-- A store through a table, if there is one. -/
def PhysicalMemory.storeThrough (pm : PhysicalMemory) (pageTable : Option Nat) :
    Option (Word × Word) → PhysicalMemory
  | none => pm
  | some store => pm.mmuWriteWord pageTable store.1 store.2

/-- The state after an effect. -/
def CycleEffect.apply (effect : CycleEffect) (pageTable : Option Nat) (pm : PhysicalMemory)
    (h : PcbHeap) (p : PcbPtr) (log : List Event) : ExecState where
  hw := effect.hw
  pm := pm.storeThrough pageTable effect.store
  pcbs := h.set p effect.pcb
  log := log ++ effect.events

/-- The store lies in the pages of process `p`, if there is one. -/
def StoresIn (spaces : List Space) (p : PcbPtr) (pageTable : Option Nat)
    (store : Option (Word × Word)) : Prop :=
  ∀ w, store = some w → ∃ a, spaces[p]? = some a ∧ pageTable = some a.base ∧ a.Covers w.1

/-- The words and entries of a space are the same in two memories. -/
structure SameSpace (a : Space) (pm pm' : PhysicalMemory) : Prop where
  entries : ∀ i, i < a.pages → pm'.entry a.base i = pm.entry a.base i
  frames : ∀ w, w < a.words → pm'.memory (a.index pm w) = pm.memory (a.index pm w)

theorem SameSpace.index {a : Space} {pm pm' : PhysicalMemory} (h : SameSpace a pm pm') {w : Nat}
    (hw : w < a.words) : a.index pm' w = a.index pm w := by
  simp only [Space.index, Space.frame, h.entries _ (Space.page_lt hw)]

theorem SameSpace.read {a : Space} {pm pm' : PhysicalMemory} (h : SameSpace a pm pm') {w : Nat}
    (hw : w < a.words) : a.read pm' w = a.read pm w := by
  rw [Space.read, h.index hw, h.frames w hw, Space.read]

namespace PcbHeap

variable (h : PcbHeap)

theorem set_set (p : PcbPtr) (pcb pcb' : PCB) : (h.set p pcb).set p pcb' = h.set p pcb' := by
  simp only [set]
  congr 1
  funext q
  by_cases hq : q = p
  · cases h.cells p <;> simp [hq]
  · simp [hq]

theorem set_comm {p q : PcbPtr} (hne : p ≠ q) (pcb pcb' : PCB) :
    (h.set p pcb).set q pcb' = (h.set q pcb').set p pcb := by
  simp only [set]
  congr 1
  funext r
  by_cases hrp : r = p
  · simp [hrp, hne]
  · by_cases hrq : r = q
    · simp [hrq, Ne.symm hne]
    · simp [hrp, hrq]

/-- A dead object is not written. -/
theorem set_dead {p : PcbPtr} (hp : ¬ h.Live p) (pcb : PCB) : h.set p pcb = h := by
  have hcell : h.cells p = none := by simpa [Live] using hp
  simp only [set]
  congr 1
  funext q
  by_cases hq : q = p
  · simp [hq, hcell]
  · simp [hq]

/-- A write to an object and a second one made from it. -/
theorem set_get_set (p : PcbPtr) (pcb : PCB) (f : PCB → PCB) :
    (h.set p pcb).set p (f ((h.set p pcb).get p)) = h.set p (f pcb) := by
  by_cases hp : h.Live p
  · rw [get_set_self hp, set_set]
  · rw [set_dead h hp, set_dead h hp, set_dead h hp]

end PcbHeap

/-! ## One cycle -/

section
variable {spaces : List Space} {p : PcbPtr} {pm pm' : PhysicalMemory} {h : PcbHeap}
  {hw : HardwareThread} {log : List Event}

/-- What the executed instruction writes, given the word it loads. -/
def instructionEffect (hw : HardwareThread) (pcb : PCB) (p : PcbPtr) (instruction loaded : Word) :
    CycleEffect where
  hw := { hw with
    ir := instruction
    pc := if Halts instruction then hw.pc else hw.pc + 4
    registers :=
      if extractOpcode instruction = opLd then
        Function.update hw.registers (extractReg instruction) loaded
      else if extractOpcode instruction = opAdd then
        Function.update hw.registers (extractReg instruction)
          (hw.registers (extractRegSrc1 instruction) + hw.registers (extractRegSrc2 instruction))
      else hw.registers }
  store :=
    if extractOpcode instruction = opSt then
      some (extractAddress instruction, hw.registers (extractReg instruction))
    else none
  pcb := if Halts instruction then pcb.decrementTtl.halt instruction else pcb.decrementTtl
  events := [Event.exec p pcb.pid instruction]

/-- What a cycle that executes nothing writes: the clock has aged the process. -/
def idleEffect (hw : HardwareThread) (pcb : PCB) : CycleEffect where
  hw := hw
  store := none
  pcb := pcb.decrementTtl
  events := []

theorem executeInstruction_hw (e : ExecState) (p : PcbPtr) (instruction : Word) :
    (executeInstruction e p instruction).hw =
      { e.hw with
        pc := (executeInstruction e p instruction).hw.pc
        registers := (executeInstruction e p instruction).hw.registers } := by
  unfold executeInstruction
  split_ifs <;> rfl

theorem executeInstructionCycle_effect (hrun : Executes ⟨hw, pm, h.age p, log⟩ p) :
    executeInstructionCycle ⟨hw, pm, h.age p, log⟩ =
      (instructionEffect hw (h.get p) p (pm.mmuReadWord hw.ptbr hw.pc)
        (pm.mmuReadWord hw.ptbr (extractAddress (pm.mmuReadWord hw.ptbr hw.pc)))).apply
          hw.ptbr pm h p log := by
  rw [executeInstructionCycle_executes hrun]
  set e : ExecState := ⟨hw, pm, h.age p, log⟩
  have hfetch : fetch e = pm.mmuReadWord hw.ptbr hw.pc := rfl
  set instruction := pm.mmuReadWord hw.ptbr hw.pc
  rw [hfetch]
  have hhw := executeInstruction_hw (fetched e p) p instruction
  have hpc := executeInstruction_pc (fetched e p) p instruction
  have hregisters := executeInstruction_registers (fetched e p) p instruction
  have hpm := executeInstruction_pm (fetched e p) p instruction
  have hpcbs := executeInstruction_pcbs (fetched e p) p instruction
  have hlog := executeInstruction_log (fetched e p) p instruction
  generalize executeInstruction (fetched e p) p instruction = t at *
  obtain ⟨thw, tpm, tpcbs, tlog⟩ := t
  simp only [CycleEffect.apply, instructionEffect, ExecState.mk.injEq]
  refine ⟨?_, ?_, ?_, ?_⟩
  · calc thw = { (fetched e p).hw with pc := thw.pc, registers := thw.registers } := hhw
      _ = _ := by
          rw [show thw.pc = _ from hpc, show thw.registers = _ from hregisters]
          rfl
  · rw [show tpm = _ from hpm]
    split <;> rfl
  · rw [show tpcbs = _ from hpcbs]
    split
    · exact h.set_get_set p (h.get p).decrementTtl fun pcb => pcb.halt instruction
    · rfl
  · rw [show tlog = _ from hlog]
    show log ++ [Event.exec p ((h.age p).get p).pid instruction] = _
    rw [PcbHeap.age, PcbHeap.get_set_congr PCB.pid h (PCB.decrementTtl_pid _)]

/-- What the cycle of a thread writes. -/
def cycleEffect (hw : HardwareThread) (pm : PhysicalMemory) (pcb : PCB) (p : PcbPtr) :
    CycleEffect :=
  if pcb.state = .terminated ∨ hw.ptbr = none then idleEffect hw pcb
  else
    let instruction := pm.mmuReadWord hw.ptbr hw.pc
    instructionEffect hw pcb p instruction
      (pm.mmuReadWord hw.ptbr (extractAddress instruction))

theorem executes_exec (hpcb : hw.pcb = some p) :
    Executes ⟨hw, pm, h.age p, log⟩ p ↔ ¬ ((h.get p).state = .terminated ∨ hw.ptbr = none) := by
  have hstate : ((h.age p).get p).state = (h.get p).state :=
    PcbHeap.get_set_congr PCB.state h (PCB.decrementTtl_state _) p
  constructor
  · rintro ⟨_, hlive, hptbr⟩ (hst | hnone)
    · exact hlive (hstate.trans hst)
    · exact hptbr hnone
  · intro hnot
    exact ⟨hpcb, fun hst => hnot (.inl (hstate.symm.trans hst)), fun hnone => hnot (.inr hnone)⟩

theorem executeInstructionCycle_apply (hpcb : hw.pcb = some p) :
    executeInstructionCycle ⟨hw, pm, h.age p, log⟩ =
      (cycleEffect hw pm (h.get p) p).apply hw.ptbr pm h p log := by
  by_cases hidle : (h.get p).state = .terminated ∨ hw.ptbr = none
  · rw [cycleEffect, if_pos hidle, executeInstructionCycle_skips]
    · simp [CycleEffect.apply, idleEffect, PhysicalMemory.storeThrough, PcbHeap.age]
    · intro q hq
      obtain rfl := Option.some.inj (hpcb.symm.trans hq.pcb)
      exact (executes_exec hpcb).mp hq hidle
  · rw [cycleEffect, if_neg hidle]
    exact executeInstructionCycle_effect ((executes_exec hpcb).mpr hidle)

/-- A process that stays in its pages stores in them. -/
theorem cycleEffect_store (hn : Names spaces p hw.ptbr) (hpcb : hw.pcb = some p)
    (hstay : StaysInPages spaces p ⟨hw, pm, h.age p, log⟩) :
    StoresIn spaces p hw.ptbr (cycleEffect hw pm (h.get p) p).store := by
  intro store hstore
  unfold cycleEffect at hstore
  split at hstore
  · cases hstore
  · rename_i hlive
    have hrun : Executes ⟨hw, pm, h.age p, log⟩ p := (executes_exec hpcb).mpr hlive
    obtain ⟨a, ha, hptbr⟩ := hn.resolve_left hrun.ptbr
    refine ⟨a, ha, hptbr, ?_⟩
    simp only [instructionEffect] at hstore
    split at hstore
    · rename_i hst
      obtain rfl := Option.some.inj hstore
      exact (hstay a ha hrun).address (.inr hst)
    · cases hstore

/-- The loaded word matters to a load only. -/
theorem instructionEffect_congr {pcb : PCB} {instruction loaded loaded' : Word}
    (hloaded : extractOpcode instruction = opLd → loaded' = loaded) :
    instructionEffect hw pcb p instruction loaded' =
      instructionEffect hw pcb p instruction loaded := by
  by_cases hld : extractOpcode instruction = opLd
  · rw [hloaded hld]
  · simp only [instructionEffect, if_neg hld]

/-- Inside the pages of its process a cycle decides what it writes from its
thread, its PCB and its own words. -/
theorem cycleEffect_congr (hL : Layout pm spaces) (hn : Names spaces p hw.ptbr)
    (hpcb : hw.pcb = some p) (hstay : StaysInPages spaces p ⟨hw, pm, h.age p, log⟩)
    (hsame : ∀ a, spaces[p]? = some a → SameSpace a pm pm') :
    cycleEffect hw pm' (h.get p) p = cycleEffect hw pm (h.get p) p := by
  by_cases hidle : (h.get p).state = .terminated ∨ hw.ptbr = none
  · rw [cycleEffect, cycleEffect, if_pos hidle, if_pos hidle]
  · have hrun : Executes ⟨hw, pm, h.age p, log⟩ p := (executes_exec hpcb).mpr hidle
    obtain ⟨a, ha, hptbr⟩ := hn.resolve_left hrun.ptbr
    have hin := hstay a ha hrun
    have hspace := hsame a ha
    have hpresent : a.Present pm := fun i hi =>
      hL.present _ (owned_entry (List.mem_of_getElem? ha) hi)
    -- a covered read finds the same word in both memories
    have hread : ∀ va, a.Covers va → pm'.mmuReadWord hw.ptbr va = pm.mmuReadWord hw.ptbr va := by
      intro va hva
      have hentry := hspace.entries _ hva
      rw [hptbr, PhysicalMemory.mmuReadWord_present (hpresent _ hva),
        PhysicalMemory.mmuReadWord_present (hentry ▸ hpresent _ hva)]
      exact hspace.read hva.lt
    have hfetch := hread hw.pc hin.pc
    rw [cycleEffect, cycleEffect, if_neg hidle, if_neg hidle]
    dsimp only
    rw [hfetch]
    apply instructionEffect_congr
    intro hld
    exact hread _ (hin.address (.inl hld))

end

section
variable {spaces : List Space} {p : PcbPtr} {pm pm' : PhysicalMemory} {h h' : PcbHeap}
  {hw : HardwareThread} {log log' : List Event}

/-- Nor can the process tell the two states apart. -/
theorem SameSpace.process {a : Space} (hs : SameSpace a pm pm') (hget : h'.get p = h.get p) :
    SameProcess a p ⟨hw, pm, h.age p, log⟩ ⟨hw, pm', h'.age p, log'⟩ where
  pcb := rfl
  ptbr := rfl
  pc := rfl
  registers := rfl
  state := by
    show ((h'.age p).get p).state = ((h.age p).get p).state
    rw [PcbHeap.age, PcbHeap.age, PcbHeap.get_set_congr PCB.state h' (PCB.decrementTtl_state _),
      PcbHeap.get_set_congr PCB.state h (PCB.decrementTtl_state _), hget]
  entries := hs.entries
  frames := hs.frames

theorem StaysInPages.congr (hL : Layout pm spaces) (hn : Names spaces p hw.ptbr)
    (hsame : ∀ a, spaces[p]? = some a → SameSpace a pm pm') (hget : h'.get p = h.get p)
    (hstay : StaysInPages spaces p ⟨hw, pm, h.age p, log⟩) :
    StaysInPages spaces p ⟨hw, pm', h'.age p, log'⟩ := by
  intro a ha hrun
  have hproc : SameProcess a p ⟨hw, pm, h.age p, log⟩ ⟨hw, pm', h'.age p, log'⟩ :=
    (hsame a ha).process hget
  have hrun' := hproc.executes.mp hrun
  obtain ⟨b, hb, hptbr⟩ := hn.resolve_left hrun'.ptbr
  obtain rfl := Option.some.inj (ha.symm.trans hb)
  exact hproc.inPages (hL.present_of (List.mem_of_getElem? ha)) hptbr (hstay a ha hrun')

end

/-! ## Two stores -/

namespace PhysicalMemory

/-- A store writes words only. -/
theorem mmuWriteWord_rest (pm : PhysicalMemory) (pageTable : Option Nat) (va value : Word)
    (memory : Nat → Word) :
    { pm.mmuWriteWord pageTable va value with memory } = { pm with memory } := by
  unfold mmuWriteWord
  cases pageTable with
  | none => rfl
  | some base =>
      simp only [writeWord, setEntry]
      split <;> rfl

end PhysicalMemory

section
variable {spaces : List Space} {p q : PcbPtr} {pm : PhysicalMemory} {t u : Option Nat}
  {store store' : Option (Word × Word)}

theorem Layout.storeThrough (hL : Layout pm spaces) (hs : StoresIn spaces p t store) :
    Layout (pm.storeThrough t store) spaces := by
  cases store with
  | none => exact hL
  | some w =>
      obtain ⟨a, ha, rfl, hva⟩ := hs w rfl
      exact hL.store (List.mem_of_getElem? ha) hva w.2

/-- A store in one space leaves every other space as it is. -/
theorem Layout.storeThrough_same (hL : Layout pm spaces) (hs : StoresIn spaces p t store)
    (hne : q ≠ p) {b : Space} (hb : spaces[q]? = some b) :
    SameSpace b pm (pm.storeThrough t store) := by
  cases store with
  | none => exact ⟨fun _ _ => rfl, fun _ _ => rfl⟩
  | some w =>
      obtain ⟨a, ha, rfl, hva⟩ := hs w rfl
      have ham := List.mem_of_getElem? ha
      have hbm := List.mem_of_getElem? hb
      refine ⟨fun i hi => ?_, fun x hx => ?_⟩
      · show (pm.mmuWriteWord _ _ _).entryAt (b.base + i) = pm.entryAt (b.base + i)
        rw [hL.store_entryAt ham hva _ (hL.inKernel _ (owned_entry hbm hi)), if_neg]
        intro he
        exact hne (hL.tables hb ha hi hva he).1
      · show (pm.mmuWriteWord _ _ _).memory _ = _
        rw [PhysicalMemory.mmuWriteWord_memory _ (hL.covers_present ham hva), if_neg, if_neg]
        · have hkernel := hL.kernel_le_index hbm hx
          have hentry := hL.inKernel _ (owned_entry ham hva)
          omega
        · intro he
          exact hne (hL.index_inj hb ha hx hva.lt he).1

/-- Stores in two spaces: each finds the entry and the frame it would have
found alone, and no word is written by both. -/
theorem Layout.store_comm (hL : Layout pm spaces) (hne : p ≠ q) {a b : Space}
    (ha : spaces[p]? = some a) (hb : spaces[q]? = some b) {va vb : Word} (hva : a.Covers va)
    (hvb : b.Covers vb) (v w : Word) (x : Nat) :
    ((pm.mmuWriteWord (some a.base) va v).mmuWriteWord (some b.base) vb w).memory x =
      ((pm.mmuWriteWord (some b.base) vb w).mmuWriteWord (some a.base) va v).memory x := by
  have ham := List.mem_of_getElem? ha
  have hbm := List.mem_of_getElem? hb
  have hsa : StoresIn spaces p (some a.base) (some (va, v)) := by
    intro _ he
    obtain rfl := Option.some.inj he
    exact ⟨a, ha, rfl, hva⟩
  have hsb : StoresIn spaces q (some b.base) (some (vb, w)) := by
    intro _ he
    obtain rfl := Option.some.inj he
    exact ⟨b, hb, rfl, hvb⟩
  have hsame := hL.storeThrough_same hsa (Ne.symm hne) hb
  have hsame' := hL.storeThrough_same hsb hne ha
  have hLa := hL.storeThrough hsa
  have hLb := hL.storeThrough hsb
  simp only [PhysicalMemory.storeThrough] at hsame hsame' hLa hLb
  rw [PhysicalMemory.mmuWriteWord_memory w (hLa.covers_present hbm hvb),
    PhysicalMemory.mmuWriteWord_memory v (hLb.covers_present ham hva),
    hsame.index hvb.lt, hsame'.index hva.lt, hsame.entries _ hvb, hsame'.entries _ hva,
    PhysicalMemory.mmuWriteWord_memory v (hL.covers_present ham hva),
    PhysicalMemory.mmuWriteWord_memory w (hL.covers_present hbm hvb)]
  have hwords : a.index pm (virtualWord va) ≠ b.index pm (virtualWord vb) := fun he =>
    hne (hL.index_inj ha hb hva.lt hvb.lt he).1
  have hentries : a.base + PhysicalMemory.virtualPage va ≠
      b.base + PhysicalMemory.virtualPage vb := fun he => hne (hL.tables ha hb hva hvb he).1
  -- the words lie above all entries
  have hka := hL.kernel_le_index ham hva.lt
  have hkb := hL.kernel_le_index hbm hvb.lt
  have hea := hL.inKernel _ (owned_entry ham hva)
  have heb := hL.inKernel _ (owned_entry hbm hvb)
  split_ifs <;> first | rfl | omega

theorem Layout.storeThrough_comm (hL : Layout pm spaces) (hne : p ≠ q)
    (hs : StoresIn spaces p t store) (hs' : StoresIn spaces q u store') :
    (pm.storeThrough t store).storeThrough u store' =
      (pm.storeThrough u store').storeThrough t store := by
  cases store with
  | none => rfl
  | some v =>
      cases store' with
      | none => rfl
      | some w =>
          obtain ⟨a, ha, rfl, hva⟩ := hs v rfl
          obtain ⟨b, hb, rfl, hvb⟩ := hs' w rfl
          have hmem := funext (hL.store_comm hne ha hb hva hvb v.2 w.2)
          calc (pm.mmuWriteWord (some a.base) v.1 v.2).mmuWriteWord (some b.base) w.1 w.2
            _ = { pm with memory := ((pm.mmuWriteWord (some a.base) v.1 v.2).mmuWriteWord
                    (some b.base) w.1 w.2).memory } := by
                rw [← PhysicalMemory.mmuWriteWord_rest pm, ← PhysicalMemory.mmuWriteWord_rest]
            _ = { pm with memory := ((pm.mmuWriteWord (some b.base) w.1 w.2).mmuWriteWord
                    (some a.base) v.1 v.2).memory } := by rw [hmem]
            _ = (pm.mmuWriteWord (some b.base) w.1 w.2).mmuWriteWord (some a.base) v.1 v.2 := by
                rw [← PhysicalMemory.mmuWriteWord_rest pm, ← PhysicalMemory.mmuWriteWord_rest]

end

end LocOS
