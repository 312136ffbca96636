import LocOS.Cycle
import LocOS.Space

/-!
# Virtual

What a process is, without the machine that runs it: a program counter, the
sixteen registers and a memory of virtual words. Inside its own pages an
instruction cycle on a hardware thread is one step of this process, whatever
else is in memory, and it disturbs no other space.
-/

namespace LocOS

/-! ## A process on its own -/

/-- A process with a memory of its own, indexed by virtual word. -/
structure VirtualProcess where
  pc : Word
  registers : Fin 16 → Word
  memory : Nat → Word
  halted : Bool

namespace VirtualProcess

/-- The word at the program counter. -/
def instruction (v : VirtualProcess) : Word := v.memory (virtualWord v.pc)

/-- One instruction. -/
def step (v : VirtualProcess) : VirtualProcess :=
  if v.halted then v
  else if extractOpcode v.instruction = opLd then
    { v with
      pc := v.pc + 4
      registers := Function.update v.registers (extractReg v.instruction)
        (v.memory (virtualWord (extractAddress v.instruction))) }
  else if extractOpcode v.instruction = opSt then
    { v with
      pc := v.pc + 4
      memory := Function.update v.memory (virtualWord (extractAddress v.instruction))
        (v.registers (extractReg v.instruction)) }
  else if extractOpcode v.instruction = opAdd then
    { v with
      pc := v.pc + 4
      registers := Function.update v.registers (extractReg v.instruction)
        (v.registers (extractRegSrc1 v.instruction) +
          v.registers (extractRegSrc2 v.instruction)) }
  else { v with halted := true }

/-- The next instruction and the word it loads or stores lie in the first
`words` words. -/
structure InWords (words : Nat) (v : VirtualProcess) : Prop where
  pc : virtualWord v.pc < words
  address : extractOpcode v.instruction = opLd ∨ extractOpcode v.instruction = opSt →
    virtualWord (extractAddress v.instruction) < words

/-- The same process, as far as it can tell from its own words. -/
structure Agrees (words : Nat) (v v' : VirtualProcess) : Prop where
  pc : v'.pc = v.pc
  registers : v'.registers = v.registers
  memory : ∀ w, w < words → v'.memory w = v.memory w
  halted : v'.halted = v.halted

namespace Agrees

variable {words : Nat} {v v' v'' : VirtualProcess}

theorem refl (words : Nat) (v : VirtualProcess) : Agrees words v v :=
  ⟨rfl, rfl, fun _ _ => rfl, rfl⟩

theorem symm (h : Agrees words v v') : Agrees words v' v :=
  ⟨h.pc.symm, h.registers.symm, fun w hw => (h.memory w hw).symm, h.halted.symm⟩

theorem trans (h : Agrees words v v') (h' : Agrees words v' v'') : Agrees words v v'' :=
  ⟨h'.pc.trans h.pc, h'.registers.trans h.registers,
    fun w hw => (h'.memory w hw).trans (h.memory w hw), h'.halted.trans h.halted⟩

theorem instruction (h : Agrees words v v') (hpc : virtualWord v.pc < words) :
    v'.instruction = v.instruction := by
  rw [VirtualProcess.instruction, h.pc, h.memory _ hpc, VirtualProcess.instruction]

theorem inWords (h : Agrees words v v') (hin : InWords words v) : InWords words v' := by
  refine ⟨h.pc.symm ▸ hin.pc, ?_⟩
  rw [h.instruction hin.pc]
  exact hin.address

/-- Inside its words a process does the same everywhere. -/
theorem step (h : Agrees words v v') (hin : v.halted = false → InWords words v) :
    Agrees words v.step v'.step := by
  unfold VirtualProcess.step
  rw [h.halted]
  by_cases hhalt : v.halted = true
  · rw [if_pos hhalt, if_pos hhalt]
    exact h
  · have hin := hin (by simpa using hhalt)
    rw [if_neg hhalt, if_neg hhalt, h.instruction hin.pc]
    by_cases hld : extractOpcode v.instruction = opLd
    · rw [if_pos hld, if_pos hld]
      refine ⟨by rw [h.pc], ?_, h.memory, rfl⟩
      rw [h.registers, h.memory _ (hin.address (.inl hld))]
    · rw [if_neg hld, if_neg hld]
      by_cases hst : extractOpcode v.instruction = opSt
      · rw [if_pos hst, if_pos hst]
        refine ⟨by rw [h.pc], h.registers, fun w hw => ?_, rfl⟩
        simp only [Function.update_apply, h.registers, h.memory w hw]
      · rw [if_neg hst, if_neg hst]
        by_cases hadd : extractOpcode v.instruction = opAdd
        · rw [if_pos hadd, if_pos hadd]
          exact ⟨by rw [h.pc], by rw [h.registers], h.memory, rfl⟩
        · rw [if_neg hadd, if_neg hadd]
          exact ⟨h.pc, h.registers, h.memory, rfl⟩

end Agrees

theorem step_halted {v : VirtualProcess} (h : v.halted = true) : v.step = v := if_pos h

/-- What a step does to the program counter. -/
theorem step_pc {v : VirtualProcess} (h : v.halted = false) :
    v.step.pc = if Halts v.instruction then v.pc else v.pc + 4 := by
  unfold step Halts
  rw [if_neg (by simp [h])]
  split_ifs <;> simp_all

theorem step_registers {v : VirtualProcess} (h : v.halted = false) :
    v.step.registers =
      if extractOpcode v.instruction = opLd then
        Function.update v.registers (extractReg v.instruction)
          (v.memory (virtualWord (extractAddress v.instruction)))
      else if extractOpcode v.instruction = opAdd then
        Function.update v.registers (extractReg v.instruction)
          (v.registers (extractRegSrc1 v.instruction) +
            v.registers (extractRegSrc2 v.instruction))
      else v.registers := by
  unfold step
  rw [if_neg (by simp [h])]
  split_ifs <;> simp_all [opSt, opAdd]

theorem step_memory {v : VirtualProcess} (h : v.halted = false) :
    v.step.memory =
      if extractOpcode v.instruction = opSt then
        Function.update v.memory (virtualWord (extractAddress v.instruction))
          (v.registers (extractReg v.instruction))
      else v.memory := by
  unfold step
  rw [if_neg (by simp [h])]
  split_ifs <;> simp_all

theorem step_isHalted {v : VirtualProcess} (h : v.halted = false) :
    v.step.halted = decide (Halts v.instruction) := by
  unfold step Halts
  rw [if_neg (by simp [h])]
  split_ifs <;> simp_all

end VirtualProcess

/-! ## The process a hardware thread runs -/

/-- The process `p` in space `a`, with the registers of the hardware thread. -/
def ExecState.view (e : ExecState) (a : Space) (p : PcbPtr) : VirtualProcess where
  pc := e.hw.pc
  registers := e.hw.registers
  memory := a.read e.pm
  halted := decide ((e.pcbs.get p).state = .terminated)

/-- The fetch and the memory access of the next instruction stay in the pages
of the table. -/
structure InPages (a : Space) (e : ExecState) : Prop where
  pc : a.Covers e.hw.pc
  address : extractOpcode (fetch e) = opLd ∨ extractOpcode (fetch e) = opSt →
    a.Covers (extractAddress (fetch e))

/-- The thread would execute an instruction for `p`. -/
structure Executes (e : ExecState) (p : PcbPtr) : Prop where
  pcb : e.hw.pcb = some p
  live : (e.pcbs.get p).state ≠ .terminated
  ptbr : e.hw.ptbr ≠ none

section
variable {e : ExecState} {a : Space} {p : PcbPtr}

theorem executeInstructionCycle_executes (h : Executes e p) :
    executeInstructionCycle e = executeInstruction (fetched e p) p (fetch e) := by
  rcases executeInstructionCycle_cases e with ⟨_, hskip⟩ | ⟨q, base, hq, _, _, he⟩
  · rcases hskip p h.pcb with hst | hnone
    · exact absurd hst h.live
    · exact absurd hnone h.ptbr
  · obtain rfl := Option.some.inj (h.pcb.symm.trans hq)
    exact he

theorem executeInstructionCycle_skips (h : ∀ p, ¬ Executes e p) :
    executeInstructionCycle e = e := by
  rcases executeInstructionCycle_cases e with ⟨he, _⟩ | ⟨p, base, hp, hst, hbase, _⟩
  · exact he
  · exact absurd ⟨hp, hst, by rw [hbase]; exact Option.some_ne_none _⟩ (h p)

/-- The pages of the table are present. -/
def Space.Present (a : Space) (pm : PhysicalMemory) : Prop :=
  ∀ i, i < a.pages → (pm.entry a.base i).present = true

theorem fetch_eq (hpresent : a.Present e.pm) (hptbr : e.hw.ptbr = some a.base)
    (hpc : a.Covers e.hw.pc) : fetch e = (e.view a p).instruction := by
  rw [fetch, hptbr, PhysicalMemory.mmuReadWord_present (hpresent _ hpc)]
  rfl

theorem inPages_iff (hpresent : a.Present e.pm) (hptbr : e.hw.ptbr = some a.base) :
    InPages a e ↔ (e.view a p).InWords a.words := by
  constructor
  · intro h
    refine ⟨a.covers_iff.mp h.pc, fun hop => ?_⟩
    rw [← fetch_eq (p := p) hpresent hptbr h.pc] at hop ⊢
    exact a.covers_iff.mp (h.address hop)
  · intro h
    have hpc := a.covers_iff.mpr h.pc
    refine ⟨hpc, fun hop => ?_⟩
    rw [fetch_eq (p := p) hpresent hptbr hpc] at hop ⊢
    exact a.covers_iff.mpr (h.address hop)

/-- Inside the pages, the thread moves as the process alone would. -/
theorem executeInstructionCycle_hw (hrun : Executes e p) (hin : InPages a e)
    (hpresent : a.Present e.pm) (hptbr : e.hw.ptbr = some a.base) :
    (executeInstructionCycle e).hw.pc = (e.view a p).step.pc ∧
      (executeInstructionCycle e).hw.registers = (e.view a p).step.registers := by
  have hlive : (e.view a p).halted = false := decide_eq_false hrun.live
  rw [executeInstructionCycle_executes hrun, executeInstruction_pc, executeInstruction_registers,
    VirtualProcess.step_pc hlive, VirtualProcess.step_registers hlive,
    ← fetch_eq hpresent hptbr hin.pc]
  refine ⟨rfl, ?_⟩
  by_cases hld : extractOpcode (fetch e) = opLd
  · rw [if_pos hld, if_pos hld]
    have hread : (fetched e p).pm.mmuReadWord (fetched e p).hw.ptbr (extractAddress (fetch e)) =
        a.read e.pm (virtualWord (extractAddress (fetch e))) := by
      show e.pm.mmuReadWord e.hw.ptbr _ = _
      rw [hptbr, PhysicalMemory.mmuReadWord_present (hpresent _ (hin.address (.inl hld)))]
    rw [hread]
    rfl
  · rw [if_neg hld, if_neg hld]
    rfl

theorem executeInstructionCycle_pm (hrun : Executes e p) :
    (executeInstructionCycle e).pm =
      if extractOpcode (fetch e) = opSt then
        e.pm.mmuWriteWord e.hw.ptbr (extractAddress (fetch e))
          (e.hw.registers (extractReg (fetch e)))
      else e.pm := by
  rw [executeInstructionCycle_executes hrun, executeInstruction_pm]
  rfl

end

/-! ## One cycle in a laid out memory -/

section
variable {e : ExecState} {spaces : List Space} {a : Space} {p : PcbPtr}

theorem Layout.present_of (h : Layout e.pm spaces) (ha : a ∈ spaces) : a.Present e.pm :=
  fun _ hi => h.present _ (owned_entry ha hi)

/-- A cycle inside the pages of its space keeps the layout. -/
theorem Layout.cycle (h : Layout e.pm spaces) (ha : a ∈ spaces) (hrun : Executes e p)
    (hin : InPages a e) (hptbr : e.hw.ptbr = some a.base) :
    Layout (executeInstructionCycle e).pm spaces := by
  rw [executeInstructionCycle_pm hrun]
  split
  · rename_i hst
    rw [hptbr]
    exact h.store ha (hin.address (.inr hst)) _
  · exact h

/-- It changes the words of its own space as the process alone would, and no
word of another space. -/
theorem Layout.cycle_read (h : Layout e.pm spaces) {i : Nat} (hp : spaces[i]? = some a)
    (hrun : Executes e p) (hin : InPages a e) (hptbr : e.hw.ptbr = some a.base) {q : Nat}
    {b : Space} (hq : spaces[q]? = some b) {w : Nat} (hw : w < b.words) :
    b.read (executeInstructionCycle e).pm w =
      if q = i then (e.view a p).step.memory w else b.read e.pm w := by
  have ha := List.mem_of_getElem? hp
  have hlive : (e.view a p).halted = false := decide_eq_false hrun.live
  have hfetch := fetch_eq (p := p) (h.present_of ha) hptbr hin.pc
  rw [executeInstructionCycle_pm hrun, VirtualProcess.step_memory hlive, ← hfetch]
  have hself : q = i → b.read e.pm w = a.read e.pm w := by
    rintro rfl
    rw [Option.some.inj (hq.symm.trans hp)]
  by_cases hst : extractOpcode (fetch e) = opSt
  · rw [if_pos hst, if_pos hst, hptbr, h.store_read hp (hin.address (.inr hst)) _ hq hw]
    by_cases hqp : q = i
    · rw [if_pos hqp, Function.update_apply, hself hqp]
      simp only [hqp, true_and]
      rfl
    · rw [if_neg hqp, if_neg fun hand => hqp hand.1]
  · rw [if_neg hst, if_neg hst]
    by_cases hqp : q = i
    · rw [if_pos hqp, hself hqp]
      rfl
    · rw [if_neg hqp]

/-- The cycle refines the step of the process alone. -/
theorem Layout.cycle_refines (h : Layout e.pm spaces) {i : Nat} (hp : spaces[i]? = some a)
    (hrun : Executes e p) (hin : InPages a e) (hptbr : e.hw.ptbr = some a.base)
    (hlive : e.pcbs.Live p) :
    (e.view a p).step.Agrees a.words ((executeInstructionCycle e).view a p) := by
  have ha := List.mem_of_getElem? hp
  have hhw := executeInstructionCycle_hw hrun hin (h.present_of ha) hptbr
  refine ⟨hhw.1, hhw.2, fun w hw => ?_, ?_⟩
  · have := h.cycle_read hp hrun hin hptbr hp hw
    rwa [if_pos rfl] at this
  · rw [VirtualProcess.step_isHalted (decide_eq_false hrun.live),
      ← fetch_eq (p := p) (h.present_of ha) hptbr hin.pc]
    show decide (((executeInstructionCycle e).pcbs.get p).state = .terminated) = _
    rw [executeInstructionCycle_executes hrun, executeInstruction_pcbs]
    split
    · rename_i hhalt
      have : (fetched e p).pcbs.Live p := hlive
      rw [PcbHeap.get_set_self this]
      simp [PCB.halt, hhalt]
    · rename_i hhalt
      have : (e.pcbs.get p).state ≠ .terminated := hrun.live
      simp [hhalt, fetched, this]

end

end LocOS
