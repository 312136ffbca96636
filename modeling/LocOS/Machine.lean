import LocOS.Process
import Mathlib.Data.List.Basic
import Mathlib.Algebra.GroupWithZero.Nat

/-!
# Machine

The simulated hardware and its instruction cycle (`sys/machine.c`): CPUs of
cores of hardware threads. An array is a list that carries its length, so
`num_CPUs`, `num_cores` and `num_kernel_threads` are list lengths. The TLB is
cleared on assignment and read nowhere; it is left out.
-/

namespace LocOS

/-! ## Events

What the simulator prints, as far as properties of whole runs speak of it. -/

inductive Event where
  /-- `Clock tick %d`. -/
  | tick (counter : Int)
  /-- An instruction fetched and executed for a process. -/
  | exec (pcb : PcbPtr) (pid : Int) (instruction : Word)
  /-- `Process PID=%d COMPLETED`. -/
  | completed (pcb : PcbPtr) (pid : Int)
  /-- `quantum expired`, with the outcome of the enqueue that is not checked. -/
  | expired (pcb : PcbPtr) (pid : Int) (enqueued : Bool)
  /-- `PREEMPTION`, with the saved copy and the outcome of its enqueue. -/
  | preempted (pcb : PcbPtr) (pid : Int) (saved : PcbPtr) (enqueued : Bool)
  /-- `assigned to execution`. -/
  | assigned (pcb : PcbPtr) (pid : Int)
  /-- A failed assignment, with the outcome of the enqueue that follows it. -/
  | putBack (pcb : PcbPtr) (pid : Int) (enqueued : Bool)
  deriving DecidableEq, Repr

/-! ## Hardware -/

/-- `MMU`: the copy of `PTBR`, and a flag nobody reads. -/
structure MMU where
  pageTableBase : Option Nat
  enabled : Bool
  deriving DecidableEq, Repr

/-- `HardwareThread`; an idle one has neither `ptbr` nor `pcb`. -/
structure HardwareThread where
  pc : Word
  ir : Word
  ptbr : Option Nat
  registers : Fin 16 → Word
  mmu : MMU
  pcb : Option PcbPtr

/-- A hardware thread as `create_core` leaves it. -/
def idleThread : HardwareThread where
  pc := 0
  ir := 0
  ptbr := none
  registers := fun _ => 0
  mmu := { pageTableBase := none, enabled := false }
  pcb := none

/-- `pcbs` is the legacy array of copies; `create_core` leaves its contents
uninitialised. -/
structure Core where
  currentPcbCount : Int
  pcbs : List PCB
  hwThreads : List HardwareThread

/-- `num_kernel_threads`, the length of both arrays. -/
def Core.numKernelThreads (core : Core) : Nat := core.hwThreads.length

/-- `create_core`: every thread is idle. -/
def createCore (numKernelThreads : Nat) : Core where
  currentPcbCount := 0
  pcbs := List.replicate numKernelThreads default
  hwThreads := List.replicate numKernelThreads idleThread

/-- `CPU`; `num_cores` is a length. -/
structure CPU where
  cores : List Core

/-- `Machine`; `num_CPUs` is a length. -/
structure Machine where
  cpus : List CPU

/-- `create_machine`, once all its memory is granted. -/
def createMachine (numCpus numCores numKernelThreads : Nat) : Machine where
  cpus := List.replicate numCpus
    { cores := List.replicate numCores (createCore numKernelThreads) }

namespace Machine

/-- `machine->cpus[i].cores[j]`. -/
def core? (m : Machine) (i j : Nat) : Option Core :=
  (m.cpus[i]?).bind fun cpu => cpu.cores[j]?

/-- A write to `machine->cpus[i].cores[j]`. -/
def setCore (m : Machine) (i j : Nat) (core : Core) : Machine :=
  { cpus := m.cpus.modify i fun cpu => { cores := cpu.cores.set j core } }

/-- Every core, in CPU and core order. -/
def cores (m : Machine) : List Core := m.cpus.flatMap CPU.cores

/-- The indices `(i, j)` the loops over CPUs and cores visit, in order. -/
def coreIndices (m : Machine) : List (Nat × Nat) :=
  (m.cpus.zipIdx).flatMap fun (cpu, i) => (List.range cpu.cores.length).map (i, ·)

end Machine

/-! ## Assignment -/

namespace HardwareThread

/-- The context switch of `assign_process_to_core`. -/
def load (hw : HardwareThread) (p : PcbPtr) (pcb : PCB) : HardwareThread :=
  { hw with
    pcb := some p
    ptbr := pcb.mm.pgb
    -- either way the saved program counter, as `load_pc` says
    pc := if pcb.context.pc = 0 ∧ pcb.state ≠ .running then 0 else pcb.context.pc
    ir := pcb.context.instruction
    registers := pcb.context.registers
    mmu := { pageTableBase := pcb.mm.pgb, enabled := true } }

theorem load_pc (hw : HardwareThread) (p : PcbPtr) (pcb : PCB) :
    (hw.load p pcb).pc = pcb.context.pc := by
  simp only [load]
  split
  · rename_i h
    exact h.1.symm
  · rfl

/-- What the scheduler resets when it takes a process off a thread; the
registers keep their values. -/
def clear (hw : HardwareThread) : HardwareThread :=
  { hw with
    pcb := none
    ptbr := none
    pc := 0
    ir := 0
    mmu := { pageTableBase := none, enabled := false } }

end HardwareThread

namespace Core

/-- `core->current_pcb_count < core->num_kernel_threads`. -/
def hasSpace (core : Core) : Bool :=
  decide (core.currentPcbCount < (core.numKernelThreads : Int))

/-- Puts the process on the first slot `current_pcb_count` counts as free. -/
def assign (core : Core) (p : PcbPtr) (pcb : PCB) : Core :=
  let hwIdx := core.currentPcbCount.toNat
  { pcbs := core.pcbs.set hwIdx pcb
    hwThreads := core.hwThreads.modify hwIdx fun hw => hw.load p pcb
    currentPcbCount := core.currentPcbCount + 1 }

end Core

/-- Some core of the machine has space. -/
def canCpuExecuteProcess (m : Machine) : Bool :=
  m.cpus.any fun cpu => cpu.cores.any Core.hasSpace

/-- The first core with space takes the process; `none` if there is none. -/
def assignProcessToCore (m : Machine) (pcbs : PcbHeap) (p : PcbPtr) : Option Machine :=
  (m.coreIndices.find? fun (i, j) => (m.core? i j).any Core.hasSpace).bind fun (i, j) =>
    (m.core? i j).map fun core => m.setCore i j (core.assign p (pcbs.get p))

/-! ## Instruction decoding -/

/-- `w & 0xF`, as an index into the sixteen registers. -/
def nibble (w : Word) : Fin 16 :=
  ⟨(w &&& 0xF#32).toNat, by
    rw [BitVec.toNat_and]
    exact Nat.lt_of_le_of_lt Nat.and_le_right (by decide)⟩

/-- Bits 31 to 28. -/
def extractOpcode (instruction : Word) : Fin 16 := nibble (instruction >>> 28)

/-- Bits 27 to 24: the register an instruction loads, stores or adds into. -/
def extractReg (instruction : Word) : Fin 16 := nibble (instruction >>> 24)

/-- Bits 23 to 0. -/
def extractAddress (instruction : Word) : Word := instruction &&& 0xFFFFFF#32

/-- Bits 23 to 20: the first operand of ADD. -/
def extractRegSrc1 (instruction : Word) : Fin 16 := nibble (instruction >>> 20)

/-- Bits 19 to 16: the second operand of ADD. -/
def extractRegSrc2 (instruction : Word) : Fin 16 := nibble (instruction >>> 16)

theorem nibble_shift (w : Word) (k : Nat) : (nibble (w >>> k)).val = w.toNat / 2 ^ k % 16 := by
  show ((w >>> k) &&& 0xF#32).toNat = _
  rw [BitVec.toNat_and, BitVec.toNat_ushiftRight, Nat.shiftRight_eq_div_pow]
  exact Nat.and_two_pow_sub_one_eq_mod _ 4

theorem extractAddress_toNat (w : Word) : (extractAddress w).toNat = w.toNat % 2 ^ 24 := by
  rw [extractAddress, BitVec.toNat_and]
  exact Nat.and_two_pow_sub_one_eq_mod _ 24

abbrev opLd : Fin 16 := 0x0

abbrev opSt : Fin 16 := 0x1

abbrev opAdd : Fin 16 := 0x2

abbrev opExit : Fin 16 := 0xF

/-- EXIT and the unknown opcodes: what stops a process for good. -/
def Halts (instruction : Word) : Prop :=
  extractOpcode instruction ≠ opLd ∧ extractOpcode instruction ≠ opSt ∧
    extractOpcode instruction ≠ opAdd

instance (instruction : Word) : Decidable (Halts instruction) := by
  unfold Halts
  infer_instance

/-! ## The instruction cycle -/

/-- What an instruction cycle reads and writes: its hardware thread, the
memory, the PCB the thread points to, and the printed log. -/
structure ExecState where
  hw : HardwareThread
  pm : PhysicalMemory
  pcbs : PcbHeap
  log : List Event

namespace ExecState

/-- A write to `hw_thread->registers[r]`. -/
def setReg (s : ExecState) (r : Fin 16) (value : Word) : ExecState :=
  { s with hw := { s.hw with registers := Function.update s.hw.registers r value } }

/-- `hw_thread->PC += 4`. -/
def advance (s : ExecState) : ExecState := { s with hw := { s.hw with pc := s.hw.pc + 4 } }

end ExecState

/-- LD: the word at the address goes to the register. -/
def executeLd (s : ExecState) (instruction : Word) : ExecState :=
  s.setReg (extractReg instruction)
    (s.pm.mmuReadWord s.hw.ptbr (extractAddress instruction))

/-- ST: the register goes to the word at the address. -/
def executeSt (s : ExecState) (instruction : Word) : ExecState :=
  { s with
    pm := s.pm.mmuWriteWord s.hw.ptbr (extractAddress instruction)
      (s.hw.registers (extractReg instruction)) }

/-- Signed 32-bit addition, wrapping on overflow. -/
def executeAdd (s : ExecState) (instruction : Word) : ExecState :=
  s.setReg (extractReg instruction)
    (s.hw.registers (extractRegSrc1 instruction) +
      s.hw.registers (extractRegSrc2 instruction))

/-- EXIT: the process is terminated, its TTL cleared and its program counter
kept. -/
def executeExit (s : ExecState) (p : PcbPtr) : ExecState :=
  { s with pcbs := s.pcbs.set p { s.pcbs.get p with state := .terminated, ttl := 0 } }

/-- The `default` case of the decoder: the process stops, its TTL stays. -/
def executeUnknown (s : ExecState) (p : PcbPtr) : ExecState :=
  { s with pcbs := s.pcbs.set p { s.pcbs.get p with state := .terminated } }

/-- The `switch` on the opcode of the fetched instruction. -/
def executeInstruction (s : ExecState) (p : PcbPtr) (instruction : Word) : ExecState :=
  if extractOpcode instruction = opLd then (executeLd s instruction).advance
  else if extractOpcode instruction = opSt then (executeSt s instruction).advance
  else if extractOpcode instruction = opAdd then (executeAdd s instruction).advance
  else if extractOpcode instruction = opExit then executeExit s p
  else executeUnknown s p

/-- The instruction the thread would fetch. -/
def fetch (s : ExecState) : Word := s.pm.mmuReadWord s.hw.ptbr s.hw.pc

/-- Fetch, decode and execute. Without a process or a page table, and for a
terminated process, nothing is fetched. -/
def executeInstructionCycle (s : ExecState) : ExecState :=
  match s.hw.pcb with
  | none => s
  | some p =>
      if (s.pcbs.get p).state = .terminated then s
      else if s.hw.ptbr = none then s
      else
        let instruction := fetch s
        executeInstruction
          { s with
            hw := { s.hw with ir := instruction }
            log := s.log ++ [.exec p (s.pcbs.get p).pid instruction] }
          p instruction

end LocOS
