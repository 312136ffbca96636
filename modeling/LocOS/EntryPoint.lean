import LocOS.Coverage
import LocOS.Estimate

/-!
# EntryPoint

Where a loaded process starts. The loader places the code at the address of
`.text`; the program counter is 0 from `create_pcb` on, and nobody sets it to
that address. The first fetch is the first word of the code when `.text` is 0.
-/

namespace LocOS

/-! ## The first word -/

section
variable {file : List Char} {draw : Nat} {program : Program}

/-- With the code at address 0 the data lies behind it, or has no words. -/
theorem loaded_data_behind (hload : loadProgramFromElf file draw = some program)
    (htext : program.textAddress = 0) :
    program.dataStartWord = program.codeSize ∨ program.dataEndWord = program.dataStartWord := by
  rw [loadProgramFromElf_passes] at hload
  split at hload
  · obtain rfl := Option.some.inj hload
    generalize firstPass (Text.lines lineCapacity file) = first at htext ⊢
    have htext : first.textAddr = 0 := htext
    by_cases hsplit : first.foundData = true ∧ first.textAddr < first.dataAddr
    · left
      show first.dataAddr / BitVec.ofNat 32 wordSize = first.codeSize
      rw [FirstPass.codeSize, if_pos hsplit, htext]
      exact congrArg (· / _) (BitVec.sub_zero _).symm
    · right
      show first.dataAddr / BitVec.ofNat 32 wordSize + first.dataSize = _
      rw [FirstPass.dataSize, if_neg hsplit]
      exact BitVec.add_zero _
  · cases hload

/-- Code at address 0 keeps its first word. -/
theorem loaded_imageWord_zero (hload : loadProgramFromElf file draw = some program)
    (hcode : 0 < program.codeSize.toNat) (htext : program.textAddress = 0) :
    program.imageWord 0 = program.codeSegment.getD 0 0 := by
  have hstart : program.codeStartWord = 0 := by
    rw [Program.codeStartWord, htext]
    rfl
  have hend : program.codeEndWord = program.codeSize := by
    rw [Program.codeEndWord, hstart]
    exact BitVec.zero_add _
  have hdata : ¬ (program.dataStartWord.toNat ≤ 0 ∧ 0 < program.dataEndWord.toNat) := by
    rintro ⟨hlo, hhi⟩
    rcases loaded_data_behind hload htext with hbehind | hempty
    · rw [hbehind] at hlo
      omega
    · rw [hempty] at hhi
      omega
  rw [Program.imageWord, if_neg hdata, hstart, hend, if_pos ⟨Nat.le_refl _, hcode⟩]
  rfl

end

/-! ## The first fetch -/

/-- The first page of a created process still reads its image, as long as
nobody stores into it. -/
theorem created_fetch_zero {s : Residents} (hs : residentRuns.Reachable s) {program : Program}
    {pcb : PCB} (hcreate : (createProcessFromProgram s.loader program).1 = some pcb)
    {pm : PhysicalMemory}
    (hpm : Undisturbed (createProcessFromProgram s.loader program).2.physicalMemory pm
      [spaceOf (program, pcb)]) (hpages : program.pagesAsked ≠ 0) :
    pm.mmuReadWord pcb.mm.pgb 0 = program.imageWord 0 := by
  obtain ⟨created, loader', he, _, _, _, hnew⟩ :=
    createProcessFromProgram_cases (owners_of_reachable hs).allocated program
  rw [he] at hcreate hpm
  obtain ⟨base, rfl, halloc, hread⟩ := hnew pcb hcreate
  have hpos : 0 < program.totalPages.toNat := by
    rw [program.totalPages_toNat]
    omega
  have hlayout := halloc.toLayout.sublist (List.sublist_append_right s.spaces
    [⟨base, program.totalPages.toNat⟩])
  have hcovers : (Space.mk base program.totalPages.toNat).Covers 0 := hpos
  have hwords := hcovers.lt
  have hmem := List.mem_singleton_self (Space.mk base program.totalPages.toNat)
  have hpresent := (hlayout.undisturbed hpm).covers_present hmem hcovers
  have hfetch := PhysicalMemory.mmuReadWord_present hpresent
  rw [hpm.read hmem hwords] at hfetch
  exact hfetch.trans (hread 0 (Nat.mul_pos hpos (by decide)))

/-- A process that is assigned for the first time: nobody has touched its
context or its table, and it was not stopped. -/
structure Unstarted (pcb pcb' : PCB) : Prop where
  mm : pcb'.mm = pcb.mm
  context : pcb'.context = pcb.context
  live : pcb'.state ≠ .terminated

/-- An unstarted process executes whatever the word at address 0 is. -/
theorem Unstarted.firstCycle {pcb : PCB} {pcbs : PcbHeap} {p : PcbPtr}
    (h : Unstarted pcb (pcbs.get p)) (hpc : pcb.context.pc = 0) {base : Nat}
    (hpgb : pcb.mm.pgb = some base) (hw : HardwareThread) (pm : PhysicalMemory)
    (log : List Event) :
    (hw.load p (pcbs.get p)).pc = 0 ∧
      (executeInstructionCycle ⟨hw.load p (pcbs.get p), pm, pcbs, log⟩).log =
        log ++ [.exec p (pcbs.get p).pid (pm.mmuReadWord (some base) 0)] := by
  have hptbr : (hw.load p (pcbs.get p)).ptbr = some base := by
    show (pcbs.get p).mm.pgb = _
    rw [h.mm, hpgb]
  have hstart : (hw.load p (pcbs.get p)).pc = 0 := by
    rw [HardwareThread.load_pc, h.context, hpc]
  have hrun : Executes ⟨hw.load p (pcbs.get p), pm, pcbs, log⟩ p :=
    ⟨rfl, h.live, by rw [hptbr]; exact Option.some_ne_none _⟩
  refine ⟨hstart, ?_⟩
  rw [executeInstructionCycle_executes hrun, executeInstruction_log, fetched, fetch, hptbr, hstart]

/-- The thread a new process is loaded on starts at the address of `.text` and
executes the first word of the code exactly when that address is 0. A program
without pages has to find the word by chance, behind an empty table. -/
theorem firstFetch_iff {s : Residents} (hs : residentRuns.Reachable s) {file : List Char}
    {draw : Nat} {program : Program} (hload : loadProgramFromElf file draw = some program)
    (hcode : 0 < program.codeSize.toNat) {pcb : PCB}
    (hcreate : (createProcessFromProgram s.loader program).1 = some pcb) {pm : PhysicalMemory}
    (hpm : Undisturbed (createProcessFromProgram s.loader program).2.physicalMemory pm
      [spaceOf (program, pcb)])
    {m m' : Machine} (hbounded : m.Bounded) {pcbs : PcbHeap} {p : PcbPtr}
    (hnew : Unstarted pcb (pcbs.get p)) (hassign : assignProcessToCore m pcbs p = some m')
    (log : List Event) :
    ∃ i j core core' hw, m.core? i j = some core ∧
      m'.slot? i j core.currentPcbCount.toNat = some (core', hw, p) ∧
      ((hw.pc = program.textAddress ∧
          (executeInstructionCycle ⟨hw, pm, pcbs, log⟩).log =
            log ++ [.exec p (pcbs.get p).pid (program.codeSegment.getD 0 0)]) ↔
        program.textAddress = 0 ∧ (program.pagesAsked = 0 →
          pm.mmuReadWord (some s.pm.nextKernelFrame.toNat) 0 =
            program.codeSegment.getD 0 0)) := by
  have hpgb := (createProcessFromProgram_filled
    (owners_of_reachable hs).allocated.limit hcreate).1
  have hpc : pcb.context.pc = 0 := by
    obtain ⟨base, _, _, _, _, rfl, _⟩ := createProcess_of_some hcreate
    rfl
  rcases Machine.assignProcessToCore_cases m pcbs p with
    ⟨_, hnone⟩ | ⟨i, j, core, hcore, hspace, he⟩
  · rw [hnone] at hassign
    cases hassign
  · rw [he] at hassign
    obtain rfl := Option.some.inj hassign
    obtain ⟨hw, hslot⟩ := Machine.slot?_assign hbounded hcore hspace p (pcbs.get p)
    obtain ⟨hstart, hfirst⟩ := hnew.firstCycle hpc hpgb hw pm log
    refine ⟨i, j, core, _, _, hcore, hslot, ?_⟩
    rw [hstart, hfirst, List.append_cancel_left_eq, List.cons_eq_cons, Event.exec.injEq]
    constructor
    · rintro ⟨htext, ⟨_, _, hword⟩, _⟩
      exact ⟨htext.symm, fun _ => hword⟩
    · rintro ⟨htext, hempty⟩
      refine ⟨htext.symm, ⟨rfl, rfl, ?_⟩, rfl⟩
      by_cases hpages : program.pagesAsked = 0
      · exact hempty hpages
      · rw [← hpgb, created_fetch_zero hs hcreate hpm hpages]
        exact loaded_imageWord_zero hload hcode htext

/-- `.text 1000` and the word 7. -/
def farText : List Char := textDirective ++ [' ', '1', '0', '0', '0', '\n', '7', '\n']

/-- What a process of the file would execute first, on an idle machine. -/
def firstStep (file : List Char) : Option (Word × Word × Word × List Word) :=
  (loadProgramFromElf file 0).bind fun program =>
    (createProcessFromProgram (createLoader createPhysicalMemory) program).1.bind fun pcb =>
      let loader := (createProcessFromProgram (createLoader createPhysicalMemory) program).2
      let (p, pcbs) := (⟨fun _ => none, 0⟩ : PcbHeap).alloc pcb
      (assignProcessToCore (createMachine 1 1 1) pcbs p).bind fun m =>
        (m.slot? 0 0 0).map fun (_, hw, _) =>
          (hw.pc, fetch ⟨hw, loader.physicalMemory, pcbs, []⟩, program.textAddress,
            program.codeSegment)

theorem farText_start : firstStep farText = some (0, 0, 0x1000, [7]) := by
  decide +kernel

/-- The process does not start at its code. -/
theorem farText_firstFetch : ∃ program pcb m' i j core core' hw,
    loadProgramFromElf farText 0 = some program ∧
      (createProcessFromProgram (createLoader createPhysicalMemory) program).1 = some pcb ∧
      assignProcessToCore (createMachine 1 1 1) ((⟨fun _ => none, 0⟩ : PcbHeap).alloc pcb).2 0 =
        some m' ∧
      (createMachine 1 1 1).core? i j = some core ∧
      m'.slot? i j core.currentPcbCount.toNat = some (core', hw, 0) ∧
      ¬ (hw.pc = program.textAddress ∧
        (executeInstructionCycle ⟨hw,
            (createProcessFromProgram (createLoader createPhysicalMemory)
              program).2.physicalMemory,
            ((⟨fun _ => none, 0⟩ : PcbHeap).alloc pcb).2, []⟩).log =
          [] ++ [.exec 0 (((⟨fun _ => none, 0⟩ : PcbHeap).alloc pcb).2.get 0).pid
            (program.codeSegment.getD 0 0)]) := by
  have hfile : (loadProgramFromElf farText 0).any (fun program =>
      decide (program.codeSize = 1 ∧ program.textAddress = 0x1000) &&
        (createProcessFromProgram (createLoader createPhysicalMemory) program).1.isSome) =
          true := by
    decide +kernel
  obtain ⟨program, hload, hcheck⟩ := (Option.any_eq_true ..).mp hfile
  obtain ⟨hheader, hcreate⟩ := Bool.and_eq_true_iff.mp hcheck
  obtain ⟨hcode, htext⟩ := of_decide_eq_true hheader
  obtain ⟨pcb, hcreate⟩ := Option.isSome_iff_exists.mp hcreate
  have hbounded := (Machine.createMachine_idle 1 1 1).compact.bounded
  have hnew : Unstarted pcb (((⟨fun _ => none, 0⟩ : PcbHeap).alloc pcb).2.get 0) := by
    refine ⟨rfl, rfl, ?_⟩
    obtain ⟨base, _, _, _, _, rfl, _⟩ := createProcess_of_some hcreate
    exact fun hstate => by cases hstate
  obtain ⟨m', hassign⟩ : ∃ m', assignProcessToCore (createMachine 1 1 1)
      ((⟨fun _ => none, 0⟩ : PcbHeap).alloc pcb).2 0 = some m' := by
    rcases Machine.assignProcessToCore_cases (createMachine 1 1 1)
      ((⟨fun _ => none, 0⟩ : PcbHeap).alloc pcb).2 0 with ⟨hfull, _⟩ | ⟨_, _, _, _, _, he⟩
    · exact absurd hfull (by decide)
    · exact ⟨_, he⟩
  obtain ⟨i, j, core, core', hw, hcore, hslot, hiff⟩ :=
    firstFetch_iff (s := ⟨createLoader createPhysicalMemory, [], []⟩) (.init rfl) hload
      (by rw [hcode]; decide) hcreate (.refl _ _) hbounded hnew hassign []
  dsimp only at hiff
  refine ⟨program, pcb, m', i, j, core, core', hw, hload, hcreate, hassign, hcore, hslot, ?_⟩
  intro hstarts
  have hzero := (hiff.mp hstarts).1
  rw [htext] at hzero
  exact absurd hzero (by decide)

end LocOS
