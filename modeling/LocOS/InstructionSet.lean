import LocOS.Ownership
import LocOS.Run
import LocOS.Virtual
import Mathlib.Logic.Function.Iterate
import Mathlib.Algebra.GroupWithZero.Nat

/-!
# InstructionSet

The instruction set, written down once without masks, shifts or page tables,
and an interpreter for it over a flat memory of words. The hardware thread of
a loaded process does what the interpreter does, instruction for instruction.
-/

namespace LocOS

/-! ## Instructions -/

/-- The instruction set, and whatever has no meaning in it. -/
inductive Instruction where
  | ld (r : Fin 16) (address : Nat)
  | st (r : Fin 16) (address : Nat)
  | add (r x y : Fin 16)
  | exit
  | unknown
  deriving DecidableEq, Repr

/-- The hexadecimal digit of weight `16 ^ i`. -/
def hexDigit (w : Word) (i : Nat) : Fin 16 := ⟨w.toNat / 16 ^ i % 16, Nat.mod_lt _ (by decide)⟩

/-- Opcode, register and 24-bit address, or opcode and three registers. -/
def decode (w : Word) : Instruction :=
  if (hexDigit w 7).val = 0x0 then .ld (hexDigit w 6) (w.toNat % 2 ^ 24)
  else if (hexDigit w 7).val = 0x1 then .st (hexDigit w 6) (w.toNat % 2 ^ 24)
  else if (hexDigit w 7).val = 0x2 then .add (hexDigit w 6) (hexDigit w 5) (hexDigit w 4)
  else if (hexDigit w 7).val = 0xF then .exit
  else .unknown

example : decode 0x2F102345#32 = .add 0xF 0x1 0x0 := by decide

/-! ## The interpreter -/

/-- `memory` is indexed by address divided by four. -/
structure Interpreter where
  pc : Word
  registers : Fin 16 → Word
  memory : Nat → Word
  halted : Bool
  ttl : Int

namespace Interpreter

/-- The word at the program counter. -/
def instruction (v : Interpreter) : Word := v.memory (v.pc.toNat / 4)

/-- One instruction; a halted interpreter stays as it is. -/
def step (v : Interpreter) : Interpreter :=
  if v.halted then v
  else
    match decode v.instruction with
    | .ld r address =>
        { v with
          pc := v.pc + 4
          registers := Function.update v.registers r (v.memory (address / 4)) }
    | .st r address =>
        { v with
          pc := v.pc + 4
          memory := Function.update v.memory (address / 4) (v.registers r) }
    | .add r x y =>
        { v with
          pc := v.pc + 4
          registers := Function.update v.registers r (v.registers x + v.registers y) }
    | .exit => { v with halted := true, ttl := 0 }
    | .unknown => { v with halted := true }

theorem step_halted {v : Interpreter} (h : v.halted = true) : v.step = v := if_pos h

/-- The interpreter without its TTL. -/
def process (v : Interpreter) : VirtualProcess where
  pc := v.pc
  registers := v.registers
  memory := v.memory
  halted := v.halted

end Interpreter

/-! ## Decoding -/

theorem nibble_digit (w : Word) (i : Nat) : nibble (w >>> (4 * i)) = hexDigit w i := by
  have hbase : 2 ^ (4 * i) = 16 ^ i := Nat.pow_mul 2 4 i
  refine Fin.ext ?_
  rw [nibble_shift, hbase]
  rfl

theorem extractOpcode_eq (w : Word) : extractOpcode w = hexDigit w 7 := nibble_digit w 7

theorem extractReg_eq (w : Word) : extractReg w = hexDigit w 6 := nibble_digit w 6

theorem extractRegSrc1_eq (w : Word) : extractRegSrc1 w = hexDigit w 5 := nibble_digit w 5

theorem extractRegSrc2_eq (w : Word) : extractRegSrc2 w = hexDigit w 4 := nibble_digit w 4

/-- The fields the hardware extracts are those of the instruction. -/
theorem decode_eq (w : Word) :
    decode w =
      if extractOpcode w = opLd then .ld (extractReg w) (extractAddress w).toNat
      else if extractOpcode w = opSt then .st (extractReg w) (extractAddress w).toNat
      else if extractOpcode w = opAdd then
        .add (extractReg w) (extractRegSrc1 w) (extractRegSrc2 w)
      else if extractOpcode w = opExit then .exit
      else .unknown := by
  rw [extractOpcode_eq, extractReg_eq, extractRegSrc1_eq, extractRegSrc2_eq, extractAddress_toNat]
  simp only [Fin.ext_iff]
  rfl

namespace Interpreter

/-- The interpreter moves like the process of the hardware thread. -/
theorem process_step (v : Interpreter) : v.step.process = v.process.step := by
  cases hhalt : v.halted with
  | true => rw [step_halted hhalt, VirtualProcess.step_halted (v := v.process) hhalt]
  | false =>
      have hinstruction : v.process.instruction = v.instruction := rfl
      have hrun : ¬ v.process.halted = true := by
        show ¬ v.halted = true
        rw [hhalt]
        exact Bool.false_ne_true
      rw [step, if_neg (by rw [hhalt]; exact Bool.false_ne_true), decode_eq,
        VirtualProcess.step, if_neg hrun, hinstruction]
      by_cases hld : extractOpcode v.instruction = opLd
      · rw [if_pos hld, if_pos hld]
        rfl
      · rw [if_neg hld, if_neg hld]
        by_cases hst : extractOpcode v.instruction = opSt
        · rw [if_pos hst, if_pos hst]
          rfl
        · rw [if_neg hst, if_neg hst]
          by_cases hadd : extractOpcode v.instruction = opAdd
          · rw [if_pos hadd, if_pos hadd]
            rfl
          · rw [if_neg hadd, if_neg hadd]
            by_cases hexit : extractOpcode v.instruction = opExit
            · rw [if_pos hexit]
              rfl
            · rw [if_neg hexit]
              rfl

/-- Only EXIT touches the TTL. -/
theorem step_ttl {v : Interpreter} (h : v.halted = false) :
    v.step.ttl = if extractOpcode v.instruction = opExit then 0 else v.ttl := by
  rw [step, if_neg (by rw [h]; exact Bool.false_ne_true), decode_eq]
  by_cases hld : extractOpcode v.instruction = opLd
  · rw [if_pos hld, hld, if_neg (by decide)]
  · rw [if_neg hld]
    by_cases hst : extractOpcode v.instruction = opSt
    · rw [if_pos hst, hst, if_neg (by decide)]
    · rw [if_neg hst]
      by_cases hadd : extractOpcode v.instruction = opAdd
      · rw [if_pos hadd, hadd, if_neg (by decide)]
      · rw [if_neg hadd]
        by_cases hexit : extractOpcode v.instruction = opExit
        · rw [if_pos hexit, if_pos hexit]
        · rw [if_neg hexit, if_neg hexit]

end Interpreter

/-! ## The hardware thread -/

/-- A hardware thread that runs the process, whatever its registers, its
program counter and the rest of its PCB. -/
structure OnThread (process : Program × PCB) (p : PcbPtr) (e : ExecState) : Prop where
  pcb : e.hw.pcb = some p
  ptbr : e.hw.ptbr = process.2.mm.pgb
  live : e.pcbs.Live p

/-- The interpreter in the place of the thread: what the process reads
through its page table is its flat memory. -/
def Interpreter.of (process : Program × PCB) (p : PcbPtr) (e : ExecState) : Interpreter where
  pc := e.hw.pc
  registers := e.hw.registers
  memory := fun w => e.pm.mmuReadWord process.2.mm.pgb (BitVec.ofNat 32 (w * wordSize))
  halted := decide ((e.pcbs.get p).state = .terminated)
  ttl := (e.pcbs.get p).ttl

/-- What relates a thread to the interpreter in the same step. -/
structure Interprets (spaces : List Space) (a : Space) (p : PcbPtr) (v : Interpreter)
    (e : ExecState) : Prop where
  layout : Layout e.pm spaces
  pcb : e.hw.pcb = some p
  ptbr : e.hw.ptbr = some a.base
  live : e.pcbs.Live p
  agrees : v.process.Agrees a.words (e.view a p)
  ttl : v.ttl = (e.pcbs.get p).ttl

section
variable {spaces : List Space} {a : Space} {i : Nat} {p : PcbPtr} {v : Interpreter}
  {e : ExecState}

theorem Interprets.halted (h : Interprets spaces a p v e) :
    v.halted = decide ((e.pcbs.get p).state = .terminated) := h.agrees.halted.symm

/-- A stopped thread skips its cycles. -/
theorem Interprets.skips (h : Interprets spaces a p v e) (hhalt : v.halted = true) :
    executeInstructionCycle e = e := by
  refine executeInstructionCycle_skips fun q hq => ?_
  obtain rfl := Option.some.inj (h.pcb.symm.trans hq.pcb)
  rw [h.halted] at hhalt
  exact hq.live (of_decide_eq_true hhalt)

theorem Interprets.executes (h : Interprets spaces a p v e) (hrun : v.halted = false) :
    Executes e p := by
  rw [h.halted] at hrun
  exact ⟨h.pcb, of_decide_eq_false hrun, by rw [h.ptbr]; exact Option.some_ne_none _⟩

theorem executeInstructionCycle_ttl (hrun : Executes e p) (hlive : e.pcbs.Live p) :
    ((executeInstructionCycle e).pcbs.get p).ttl =
      if extractOpcode (fetch e) = opExit then 0 else (e.pcbs.get p).ttl := by
  rw [executeInstructionCycle_executes hrun, executeInstruction_pcbs]
  by_cases hhalts : Halts (fetch e)
  · rw [if_pos hhalts, PcbHeap.get_set_self (h := (fetched e p).pcbs) hlive]
    rfl
  · rw [if_neg hhalts, if_neg]
    · rfl
    · intro hexit
      refine hhalts ⟨?_, ?_, ?_⟩ <;> rw [hexit] <;> decide

/-- One cycle is one step. -/
theorem Interprets.step (h : Interprets spaces a p v e) (ha : spaces[i]? = some a)
    (hin : Executes e p → InPages a e) :
    Interprets spaces a p v.step (executeInstructionCycle e) := by
  cases hhalt : v.halted with
  | true =>
      rw [Interpreter.step_halted hhalt, h.skips hhalt]
      exact h
  | false =>
      have hrun := h.executes hhalt
      have hmem := List.mem_of_getElem? ha
      have hpages := hin hrun
      have hpresent := h.layout.present_of hmem
      have hwords := h.agrees.symm.inWords ((inPages_iff (p := p) hpresent h.ptbr).mp hpages)
      have hfetch : fetch e = v.instruction := by
        rw [fetch_eq (p := p) hpresent h.ptbr hpages.pc, h.agrees.instruction hwords.pc]
        rfl
      refine ⟨h.layout.cycle hmem hrun hpages h.ptbr, ?_, ?_, ?_, ?_, ?_⟩
      · rw [executeInstructionCycle_hw_pcb]
        exact h.pcb
      · rw [executeInstructionCycle_hw_ptbr]
        exact h.ptbr
      · rw [executeInstructionCycle_executes hrun, executeInstruction_pcbs]
        split
        · exact (PcbHeap.live_set ..).mpr h.live
        · exact h.live
      · rw [Interpreter.process_step]
        exact (h.agrees.step fun _ => hwords).trans
          (h.layout.cycle_refines ha hrun hpages h.ptbr h.live)
      · rw [Interpreter.step_ttl hhalt, executeInstructionCycle_ttl hrun h.live, hfetch, h.ttl]

/-- `n` cycles are `n` steps. -/
theorem Interprets.run (h : Interprets spaces a p v e) (ha : spaces[i]? = some a) {n : Nat}
    (hin : ∀ k, k < n → Executes (executeInstructionCycle^[k] e) p →
      InPages a (executeInstructionCycle^[k] e)) :
    Interprets spaces a p (Interpreter.step^[n] v) (executeInstructionCycle^[n] e) := by
  induction n with
  | zero => exact h
  | succ n ih =>
      have hprev := ih fun k hk => hin k (Nat.lt_succ_of_lt hk)
      rw [Function.iterate_succ_apply', Function.iterate_succ_apply']
      exact hprev.step ha (hin n (Nat.lt_succ_self n))

end

/-! ## Loaded processes -/

section
variable {s : Residents} {i : Nat} {process : Program × PCB} {p : PcbPtr} {e : ExecState}

theorem virtualWord_of_word {w : Nat} (hw : w < 2 ^ 30) :
    virtualWord (BitVec.ofNat 32 (w * wordSize)) = w := by
  simp only [virtualWord, wordSize, BitVec.toNat_ofNat]
  omega

/-- A loaded process on a hardware thread and the interpreter start alike. -/
theorem Residents.Owners.interprets (h : s.Owners) (hi : s.live[i]? = some process)
    (hpm : e.pm = s.pm) (hthread : OnThread process p e) :
    Interprets s.spaces (spaceOf process) p (.of process p e) e := by
  have hpgb := h.pgb_of hi
  have hL : Layout e.pm s.spaces := hpm ▸ h.allocated.toLayout
  have hmem := List.mem_of_getElem? (Residents.getElem?_spaces hi)
  refine ⟨hL, hthread.pcb, hthread.ptbr.trans hpgb, hthread.live, ⟨rfl, rfl, fun w hw => ?_, rfl⟩,
    rfl⟩
  have hpages : (spaceOf process).words ≤ 2 ^ 30 := by
    have := process.1.totalPages_lt
    simp only [Space.words, spaceOf, wordsPerPage] at *
    omega
  have hword := virtualWord_of_word (Nat.lt_of_lt_of_le hw hpages)
  show (spaceOf process).read e.pm w =
    e.pm.mmuReadWord process.2.mm.pgb (BitVec.ofNat 32 (w * wordSize))
  rw [hpgb, PhysicalMemory.mmuReadWord_present, hword]
  exact hL.covers_present hmem ((spaceOf process).covers_iff.mpr (by rwa [hword]))

end

/-- The CPU refines the instruction set: any number of cycles of a loaded
process whose fetches, loads and stores stay in its pages are as many steps
of the interpreter, whatever the registers it starts with. -/
theorem cycles_refine_interpreter {s : Residents} (h : residentRuns.Reachable s) {i : Nat}
    {process : Program × PCB} (hi : s.live[i]? = some process) {p : PcbPtr} {e : ExecState}
    (hpm : e.pm = s.pm) (hthread : OnThread process p e) {n : Nat}
    (hin : ∀ k, k < n → Executes (executeInstructionCycle^[k] e) p →
      InPages (spaceOf process) (executeInstructionCycle^[k] e)) :
    let e' := executeInstructionCycle^[n] e
    let v := Interpreter.step^[n] (.of process p e)
    e'.hw.pc = v.pc ∧ e'.hw.registers = v.registers ∧
      (∀ va, (spaceOf process).Covers va →
        e'.pm.mmuReadWord process.2.mm.pgb va = v.memory (va.toNat / 4)) ∧
      decide ((e'.pcbs.get p).state = .terminated) = v.halted ∧
      (e'.pcbs.get p).ttl = v.ttl ∧
      (v.halted = true → executeInstructionCycle e' = e' ∧ v.step = v) := by
  intro e' v
  have howners := owners_of_reachable h
  have hspace := Residents.getElem?_spaces hi
  have hrun := (howners.interprets hi hpm hthread).run hspace hin
  refine ⟨hrun.agrees.pc, hrun.agrees.registers, fun va hva => ?_, hrun.agrees.halted,
    hrun.ttl.symm, fun hhalt => ⟨hrun.skips hhalt, Interpreter.step_halted hhalt⟩⟩
  have hpresent := hrun.layout.covers_present (List.mem_of_getElem? hspace) hva
  rw [howners.pgb_of hi, PhysicalMemory.mmuReadWord_present hpresent]
  exact hrun.agrees.memory _ hva.lt

/-- A process that doubles register 0 and then loads its own first word into
it: the word behind its instruction is zero. -/
def doubles : Residents :=
  Residents.next ⟨createLoader createPhysicalMemory, [], []⟩
    (.create (oneInstruction 0x20000000#32))

/-- A hardware thread that runs it, with a one in every register. -/
def doublesThread (process : Program × PCB) : ExecState where
  hw := { idleThread.load 0 process.2 with registers := fun _ => 1 }
  pm := doubles.pm
  pcbs := bootHeap [process.2]
  log := []

theorem cycles_refine_interpreter_doubles : ∃ process, doubles.live[0]? = some process ∧
    (executeInstructionCycle (doublesThread process)).hw.registers 0 = 2 ∧
    (Interpreter.step^[2] (.of process 0 (doublesThread process))).registers 0 = 0x20000000#32 := by
  have hlive : (doubles.live[0]?.any fun process =>
      decide ((executeInstructionCycle (doublesThread process)).hw.registers 0 = 2) &&
      (decide ((executeInstructionCycle^[2] (doublesThread process)).hw.registers 0 =
        0x20000000#32) &&
      decide (∀ k : Fin 2, (spaceOf process).Covers
            (executeInstructionCycle^[k] (doublesThread process)).hw.pc ∧
          (spaceOf process).Covers
            (extractAddress (fetch (executeInstructionCycle^[k] (doublesThread process))))))) =
      true := by
    decide +kernel
  obtain ⟨process, hprocess, hcheck⟩ := (Option.any_eq_true ..).mp hlive
  obtain ⟨htwo, hcheck⟩ := Bool.and_eq_true_iff.mp hcheck
  obtain ⟨hload, hin⟩ := Bool.and_eq_true_iff.mp hcheck
  have hin := of_decide_eq_true hin
  have hreach : residentRuns.Reachable doubles :=
    Residents.reachable (.init rfl) (.create _) trivial
  have hthread : OnThread process 0 (doublesThread process) :=
    ⟨rfl, rfl, live_bootHeap.mpr Nat.one_pos⟩
  have hrefine := cycles_refine_interpreter hreach hprocess rfl hthread (n := 2)
    fun k hk _ => ⟨(hin ⟨k, hk⟩).1, fun _ => (hin ⟨k, hk⟩).2⟩
  exact ⟨process, hprocess, of_decide_eq_true htwo, hrefine.2.1 ▸ of_decide_eq_true hload⟩

end LocOS
