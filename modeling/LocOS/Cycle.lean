import LocOS.Slots

/-!
# Cycle

What one instruction cycle and one body of the clock's loop can do, said
once: every invariant of a run is derived from these cases. The thread keeps
its process and its table, the log gains at most the executed instruction,
and the PCB changes only when the instruction halts it.
-/

namespace LocOS

/-! ## The instruction cycle -/

/-- The PCB after a halting instruction. -/
def PCB.halt (pcb : PCB) (instruction : Word) : PCB :=
  { pcb with
    state := .terminated
    ttl := if extractOpcode instruction = opExit then 0 else pcb.ttl }

section
variable (s : ExecState) (p : PcbPtr) (instruction : Word)

@[simp] theorem executeInstruction_hw_pcb :
    (executeInstruction s p instruction).hw.pcb = s.hw.pcb := by
  unfold executeInstruction
  split_ifs <;> rfl

@[simp] theorem executeInstruction_hw_ptbr :
    (executeInstruction s p instruction).hw.ptbr = s.hw.ptbr := by
  unfold executeInstruction
  split_ifs <;> rfl

@[simp] theorem executeInstruction_hw_ir :
    (executeInstruction s p instruction).hw.ir = s.hw.ir := by
  unfold executeInstruction
  split_ifs <;> rfl

@[simp] theorem executeInstruction_log :
    (executeInstruction s p instruction).log = s.log := by
  unfold executeInstruction
  split_ifs <;> rfl

theorem executeInstruction_pm :
    (executeInstruction s p instruction).pm =
      if extractOpcode instruction = opSt then
        s.pm.mmuWriteWord s.hw.ptbr (extractAddress instruction)
          (s.hw.registers (extractReg instruction))
      else s.pm := by
  unfold executeInstruction
  split_ifs with hld hst hadd hexit
  all_goals first | rfl | simp_all

theorem executeInstruction_registers :
    (executeInstruction s p instruction).hw.registers =
      if extractOpcode instruction = opLd then
        Function.update s.hw.registers (extractReg instruction)
          (s.pm.mmuReadWord s.hw.ptbr (extractAddress instruction))
      else if extractOpcode instruction = opAdd then
        Function.update s.hw.registers (extractReg instruction)
          (s.hw.registers (extractRegSrc1 instruction) +
            s.hw.registers (extractRegSrc2 instruction))
      else s.hw.registers := by
  unfold executeInstruction
  split_ifs with hld hst hadd hexit
  all_goals first | rfl | simp_all [opSt, opAdd]

theorem executeInstruction_pc :
    (executeInstruction s p instruction).hw.pc =
      if Halts instruction then s.hw.pc else s.hw.pc + 4 := by
  unfold executeInstruction Halts
  split_ifs with hld hst hadd hexit
  all_goals simp_all [ExecState.advance, ExecState.setReg, executeLd, executeSt, executeAdd,
    executeExit, executeUnknown]

theorem executeInstruction_pcbs :
    (executeInstruction s p instruction).pcbs =
      if Halts instruction then s.pcbs.set p ((s.pcbs.get p).halt instruction) else s.pcbs := by
  unfold executeInstruction Halts PCB.halt
  split_ifs with hld hst hadd hexit
  all_goals simp_all [ExecState.advance, ExecState.setReg, executeLd, executeSt, executeAdd,
    executeExit, executeUnknown]

end

/-- The state in which a fetched instruction is executed. -/
def fetched (s : ExecState) (p : PcbPtr) : ExecState :=
  { s with
    hw := { s.hw with ir := fetch s }
    log := s.log ++ [Event.exec p (s.pcbs.get p).pid (fetch s)] }

/-- A cycle is skipped, or it executes the fetched instruction. -/
theorem executeInstructionCycle_cases (s : ExecState) :
    (executeInstructionCycle s = s ∧
      ∀ p, s.hw.pcb = some p → (s.pcbs.get p).state = .terminated ∨ s.hw.ptbr = none) ∨
    ∃ p base, s.hw.pcb = some p ∧ (s.pcbs.get p).state ≠ .terminated ∧ s.hw.ptbr = some base ∧
      executeInstructionCycle s = executeInstruction (fetched s p) p (fetch s) := by
  unfold executeInstructionCycle
  cases hpcb : s.hw.pcb with
  | none => exact .inl ⟨rfl, fun p hp => by simp at hp⟩
  | some p =>
      by_cases hst : (s.pcbs.get p).state = .terminated
      · refine .inl ⟨by simp [hst], fun q hq => .inl ?_⟩
        obtain rfl : p = q := by simpa using hq
        exact hst
      · cases hptbr : s.hw.ptbr with
        | none => exact .inl ⟨by simp [hst], fun _ _ => .inr rfl⟩
        | some base =>
            refine .inr ⟨p, base, rfl, hst, rfl, ?_⟩
            simp only [hst, if_false, reduceCtorEq]
            rfl

@[simp] theorem executeInstructionCycle_hw_pcb (s : ExecState) :
    (executeInstructionCycle s).hw.pcb = s.hw.pcb := by
  rcases executeInstructionCycle_cases s with ⟨h, _⟩ | ⟨p, base, _, _, _, h⟩ <;> rw [h]
  rw [executeInstruction_hw_pcb]
  rfl

@[simp] theorem executeInstructionCycle_hw_ptbr (s : ExecState) :
    (executeInstructionCycle s).hw.ptbr = s.hw.ptbr := by
  rcases executeInstructionCycle_cases s with ⟨h, _⟩ | ⟨p, base, _, _, _, h⟩ <;> rw [h]
  rw [executeInstruction_hw_ptbr]
  rfl

/-! ## Writing one thread of a core -/

/-- `core->hw_threads[k] = hw`. -/
def Core.setThread (core : Core) (k : Nat) (hw : HardwareThread) : Core :=
  { core with hwThreads := core.hwThreads.set k hw }

@[simp] theorem Core.setThread_numKernelThreads (core : Core) (k : Nat) (hw : HardwareThread) :
    (core.setThread k hw).numKernelThreads = core.numKernelThreads :=
  List.length_set ..

theorem Core.Holds.setThread {core : Core} {ps : List PcbPtr} (h : core.Holds ps) {k : Nat}
    {hw : HardwareThread} (hk : core.hwThreads[k]? = some hw) (hw' : HardwareThread)
    (hp : hw'.pcb = hw.pcb) :
    (core.setThread k hw').Holds ps where
  count := h.count
  le := by
    rw [setThread_numKernelThreads]
    exact h.le
  slot := by
    intro k' hw'' hk'
    rw [Core.setThread, List.getElem?_set] at hk'
    by_cases hkk : k = k'
    · subst hkk
      have hlt := (List.getElem?_eq_some_iff.mp hk).1
      obtain rfl : hw' = hw'' := by simpa [hlt] using hk'
      rw [hp]
      exact h.slot k hw hk
    · rw [if_neg hkk] at hk'
      exact h.slot k' hw'' hk'

theorem Core.setThread_self {core : Core} {k : Nat} {hw : HardwareThread}
    (hk : core.hwThreads[k]? = some hw) : core.setThread k hw = core := by
  obtain ⟨hlt, rfl⟩ := List.getElem?_eq_some_iff.mp hk
  simp [setThread]

theorem Machine.setCore_self {m : Machine} {i j : Nat} {core : Core}
    (h : m.core? i j = some core) : m.setCore i j core = m := by
  obtain ⟨cpu, hcpu, hcore⟩ := Option.bind_eq_some_iff.mp h
  obtain ⟨hlt, rfl⟩ := List.getElem?_eq_some_iff.mp hcore
  obtain ⟨A, B, hA, hmod⟩ := List.split_modify hcpu
  rw [setCore, hmod]
  simp [← hA]

/-! ## The body of the clock's loop -/

/-- The PCB heap after the clock's TTL decrement of one process. -/
def PcbHeap.age (h : PcbHeap) (p : PcbPtr) : PcbHeap := h.set p (h.get p).decrementTtl

/-- The execution state the clock hands to the instruction cycle. -/
def Sys.exec (s : Sys) (hw : HardwareThread) (pm : PhysicalMemory) (p : PcbPtr) : ExecState where
  hw := hw
  pm := pm
  pcbs := s.pcbs.age p
  log := s.log

/-- The system after a hardware thread ran to state `e`. -/
def Sys.absorb (s : Sys) (i j k : Nat) (core : Core) (e : ExecState) : Sys :=
  { s with
    machine := s.machine.setCore i j (core.setThread k e.hw)
    clockPmRef := some e.pm
    pcbs := e.pcbs
    log := e.log }

theorem tickThread_busy {i j k : Nat} {s : Sys} {core : Core} {hw : HardwareThread}
    {p : PcbPtr} (hslot : s.machine.slot? i j k = some (core, hw, p)) :
    tickThread i j k s =
      match s.clockPmRef with
      | none => { s with pcbs := s.pcbs.age p }
      | some pm =>
          if ((s.pcbs.age p).get p).state = .terminated then { s with pcbs := s.pcbs.age p }
          else s.absorb i j k core (executeInstructionCycle (s.exec hw pm p)) := by
  unfold tickThread
  rw [hslot]
  rfl

/-- The three things a tick does at a slot: nothing at an idle one, only the
TTL where no instruction is executed, and one instruction. -/
theorem tickThread_cases (i j k : Nat) (s : Sys) :
    (s.machine.slot? i j k = none ∧ tickThread i j k s = s) ∨
    (∃ core hw p, s.machine.slot? i j k = some (core, hw, p) ∧
      (s.clockPmRef = none ∨ ((s.pcbs.age p).get p).state = .terminated ∨ hw.ptbr = none) ∧
      tickThread i j k s = { s with pcbs := s.pcbs.age p }) ∨
    ∃ core hw p pm base, s.machine.slot? i j k = some (core, hw, p) ∧
      s.clockPmRef = some pm ∧ ((s.pcbs.age p).get p).state ≠ .terminated ∧
      hw.ptbr = some base ∧
      tickThread i j k s = s.absorb i j k core
        (executeInstruction (fetched (s.exec hw pm p) p) p (fetch (s.exec hw pm p))) := by
  cases hslot : s.machine.slot? i j k with
  | none =>
      left
      refine ⟨rfl, ?_⟩
      unfold tickThread
      rw [hslot]
  | some slot =>
      obtain ⟨core, hw, p⟩ := slot
      obtain ⟨hcore, hk, hp⟩ := Machine.slot?_eq_some.mp hslot
      right
      rw [tickThread_busy hslot]
      cases hpm : s.clockPmRef with
      | none => exact .inl ⟨core, hw, p, rfl, .inl rfl, rfl⟩
      | some pm =>
          by_cases hst : ((s.pcbs.age p).get p).state = .terminated
          · exact .inl ⟨core, hw, p, rfl, .inr (.inl hst), if_pos hst⟩
          · simp only [hst, if_false]
            rcases executeInstructionCycle_cases (s.exec hw pm p) with
              ⟨hskip, hwhy⟩ | ⟨q, base, hq, _, hbase, hdo⟩
            · left
              refine ⟨core, hw, p, rfl, .inr (hwhy p hp), ?_⟩
              rw [hskip]
              simp only [Sys.absorb, Sys.exec, Core.setThread_self hk,
                Machine.setCore_self hcore, ← hpm]
            · right
              obtain rfl : p = q := Option.some.inj (hp.symm.trans hq)
              exact ⟨core, hw, p, pm, base, rfl, rfl, hst, hbase, by rw [hdo]⟩

/-- A tick writes only what `decrement_ttl` and a halting instruction write. -/
theorem tickThread_field {α : Type*} (f : PCB → α) (hage : ∀ pcb, f (PCB.decrementTtl pcb) = f pcb)
    (hhalt : ∀ pcb instruction, f (PCB.halt pcb instruction) = f pcb) (i j k : Nat) (s : Sys)
    (q : PcbPtr) : f ((tickThread i j k s).pcbs.get q) = f (s.pcbs.get q) := by
  have haged : ∀ p, f ((s.pcbs.age p).get q) = f (s.pcbs.get q) := fun p =>
    PcbHeap.get_set_congr f s.pcbs (hage _) q
  rcases tickThread_cases i j k s with
    ⟨_, he⟩ | ⟨core, hw, p, _, _, he⟩ | ⟨core, hw, p, pm, base, _, _, _, _, he⟩
  · rw [he]
  · rw [he]
    exact haged p
  · rw [he]
    show f ((executeInstruction _ _ _).pcbs.get q) = _
    rw [executeInstruction_pcbs]
    split
    · exact (PcbHeap.get_set_congr f _ (hhalt _ _) q).trans (haged p)
    · exact haged p

end LocOS
