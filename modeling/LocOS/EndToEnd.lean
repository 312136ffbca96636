import LocOS.Execution

/-!
# EndToEnd

From the generator to the exit: the generated file is loaded, made into a
process, and run alone. Generator, loader, page placement and decoder agree on
one layout, code from word zero and data right behind it.
-/

namespace LocOS

/-! ## The image -/

/-- Code from word zero, `c` words, and `d` words of data right behind it. -/
structure Program.LaidOut (program : Program) (c d : Nat) : Prop where
  textAddress : program.textAddress = 0
  dataAddress : program.dataAddress.toNat = 4 * c
  codeSize : program.codeSize.toNat = c
  dataSize : program.dataSize.toNat = d

namespace Program.LaidOut

variable {program : Program} {c d : Nat}

theorem codeStart (h : program.LaidOut c d) : program.codeStartWord.toNat = 0 := by
  rw [Program.codeStartWord, h.textAddress]
  rfl

theorem codeEnd (h : program.LaidOut c d) : program.codeEndWord.toNat = c := by
  have := program.codeSize.isLt
  rw [Program.codeEndWord, BitVec.toNat_add, h.codeStart, h.codeSize]
  rw [h.codeSize] at this
  omega

theorem dataStart (h : program.LaidOut c d) : program.dataStartWord.toNat = c := by
  have hsize : (BitVec.ofNat 32 wordSize).toNat = 4 := rfl
  rw [Program.dataStartWord, BitVec.toNat_udiv, hsize, h.dataAddress,
    Nat.mul_div_cancel_left _ (by decide)]

theorem dataEnd (h : program.LaidOut c d) (hsize : c + d < 2 ^ 32) :
    program.dataEndWord.toNat = c + d := by
  rw [Program.dataEndWord, BitVec.toNat_add, h.dataStart, h.dataSize, Nat.mod_eq_of_lt hsize]

/-- The pages hold the image, as long as its length in bytes, rounded up, is
an `unsigned int`. -/
theorem totalPages (h : program.LaidOut c d) (hpos : 0 < d)
    (hsize : 4 * (c + d) + pageSize ≤ 2 ^ 32) :
    program.totalPages.toNat = (4 * (c + d) + 4095) / 4096 := by
  have hpage : (BitVec.ofNat 32 pageSize).toNat = 4096 := rfl
  have hdataEnd := h.dataEnd (by omega)
  have hend : program.codeEndWord < program.dataEndWord := by
    rw [BitVec.lt_def, h.codeEnd, hdataEnd]
    omega
  have hbytes : (program.dataEndWord * BitVec.ofNat 32 wordSize).toNat = 4 * (c + d) := by
    have hfour : (BitVec.ofNat 32 wordSize).toNat = 4 := rfl
    rw [BitVec.toNat_mul, hdataEnd, hfour]
    simp only [pageSize] at hsize
    omega
  have hne : program.dataEndWord * BitVec.ofNat 32 wordSize ≠ 0 := by
    intro hzero
    rw [hzero] at hbytes
    have hnone : (0 : Word).toNat = 0 := rfl
    omega
  rw [Program.totalPages, if_pos hend, calculatePagesNeeded, if_neg hne, BitVec.toNat_udiv,
    BitVec.toNat_sub, BitVec.toNat_add, hbytes, hpage]
  show (2 ^ 32 - 1 + (4 * (c + d) + 4096) % 2 ^ 32) % 2 ^ 32 / 4096 = _
  simp only [pageSize] at hsize
  omega

end Program.LaidOut

namespace Holds

variable {p : GeneratedProgram} {program : Program}

theorem laidOut (h : Holds p program) : program.LaidOut p.codeSize p.dataSize :=
  ⟨h.textAddress, h.dataAddress, h.codeSize, h.dataSize⟩

theorem dataEnd (h : Holds p program) : program.dataEndWord.toNat = p.size := by
  have := p.fits
  refine h.laidOut.dataEnd ?_
  simp only [GeneratedProgram.codeSize]
  omega

/-- The image has room in its pages. -/
theorem size_le (h : Holds p program) : p.size ≤ program.totalPages.toNat * wordsPerPage := by
  have hfits : 4 * p.size ≤ 2 ^ 24 := p.fits
  simp only [GeneratedProgram.size] at hfits
  rw [h.laidOut.totalPages p.dataSize_pos (by simp only [pageSize]; omega)]
  show p.size ≤ (4 * p.size + 4095) / 4096 * 1024
  omega

theorem image_code (h : Holds p program) {i : Nat} (hi : i < p.codeSize) :
    p.code[i]? = some (program.imageWord i) := by
  rw [Program.imageWord, h.laidOut.dataStart, h.dataEnd, h.laidOut.codeStart, h.laidOut.codeEnd,
    if_neg (by omega),
    if_pos ⟨Nat.zero_le i, hi⟩, h.codeSegment, Nat.sub_zero, List.getD_eq_getElem?_getD]
  rw [List.getElem?_eq_getElem (by rw [p.length_code]; exact hi)]
  rfl

theorem image_data (h : Holds p program) {i : Nat} (hi : i < p.dataSize) :
    program.imageWord (p.codeSize + i) = p.datum i := by
  have hin : p.codeSize ≤ p.codeSize + i ∧ p.codeSize + i < p.size :=
    ⟨Nat.le_add_right .., Nat.add_lt_add_left hi _⟩
  rw [Program.imageWord, h.laidOut.dataStart, h.dataEnd, if_pos hin, h.dataSegment,
    Nat.add_sub_cancel_left,
    List.getD_eq_getElem?_getD, GeneratedProgram.data, List.getElem?_map,
    List.getElem?_range hi]
  rfl

end Holds

/-- A process made from the program starts at the first block. -/
theorem Holds.start {p : GeneratedProgram} {program : Program} (h : Holds p program)
    {programs : List Program} {pcb : PCB} (hget : (program, pcb) ∈ (loaded programs).1) :
    InBlock p 0 0 (freshProcess (loaded programs).2.physicalMemory (spaceOf (program, pcb))) ∧
      p.size ≤ (spaceOf (program, pcb)).words := by
  have hsize : p.size ≤ (spaceOf (program, pcb)).words := h.size_le
  have himage := (loaded_spec programs).image _ hget
  refine ⟨⟨rfl, rfl, fun i hi => ?_, fun i hi => ?_, fun h1 => absurd h1 (by decide),
    fun h2 => absurd h2 (by decide), fun h3 => absurd h3 (by decide)⟩, hsize⟩
  · have hlt : i < p.size := Nat.lt_add_right _ hi
    exact (h.image_code hi).trans (congrArg some (himage i (hlt.trans_le hsize)).symm)
  · have hlt : p.codeSize + i < p.size := Nat.add_lt_add_left hi _
    exact (himage _ (hlt.trans_le hsize)).trans (h.image_data hi)

/-! ## The run on the machine -/

/-- The run of process `p` in space `a`, alone, cycle by cycle. -/
structure ExecutesGenerated (g : GeneratedProgram) (spaces : List Space) (p : PcbPtr) (a : Space)
    (run : Nat → ExecState) : Prop where
  present : ∀ k, a.Present (run k).pm
  stays : ∀ k, StaysInPages spaces p (run k)
  /-- The code words stay what they were drawn to be. -/
  code : ∀ k i, i < g.codeSize → g.code[i]? = some (a.read (run k).pm i)
  terminated : ∀ k, ((run k).pcbs.get p).state = .terminated ↔ g.codeSize ≤ k
  executed : ∀ k, execCount (run k).log p = min k g.codeSize
  exit : (run g.codeSize).hw.ir = exitWord
  data : ∀ i, i < g.dataSize →
    a.read (run g.codeSize).pm (g.codeSize + i) = g.dataAfter g.blocks i

section
variable {g : GeneratedProgram} {spaces : List Space} {p : PcbPtr} {a : Space}
  {pm : PhysicalMemory} {pcbs : List PCB}

/-- What the process does on its words, the thread does in its pages. -/
theorem RunsToExit.executes
    (h : RunsToExit g a.words fun k => VirtualProcess.step^[k] (freshProcess pm a))
    (hwords : g.size ≤ a.words) (hL : Layout pm spaces) (hp : spaces[p]? = some a)
    (hfresh : Fresh pcbs p a) : ExecutesGenerated g spaces p a (alone pm pcbs p) := by
  have halone := hfresh.follows hL hp h.inWords
  have hpresent : ∀ k, a.Present (alone pm pcbs p k).pm := fun k =>
    (halone k).layout.present_of (List.mem_of_getElem? hp)
  have hterm : ∀ k, ((alone pm pcbs p k).pcbs.get p).state = .terminated ↔ g.codeSize ≤ k := by
    intro k
    have hhalted := (halone k).agrees.halted.trans (h.halted k)
    exact (decide_eq_decide.mp hhalted)
  have hexec : ∀ k, Executes (alone pm pcbs p k) p ↔ k < g.codeSize := by
    intro k
    rw [← Nat.not_le, ← hterm k]
    exact ⟨fun hrun => hrun.live, fun hlive => ⟨(halone k).pcb, hlive, by
      rw [(halone k).ptbr]
      exact Option.some_ne_none _⟩⟩
  refine ⟨hpresent, fun k => (halone k).stays hp, fun k i hi => ?_, hterm,
    execCount_alone hexec, ?_, fun i hi => ?_⟩
  · have hlt : i < g.size := Nat.lt_add_right _ hi
    rw [h.code k i hi]
    exact congrArg some ((halone k).agrees.memory i (hlt.trans_le hwords)).symm
  -- `IR` holds the instruction fetched last, and that is the exit
  · have hrun := (hexec (4 * g.blocks)).mpr (Nat.lt_succ_self _)
    have hin := h.inWords (4 * g.blocks) (by rw [h.halted]; exact decide_eq_false (by omega))
    have hpages := (halone (4 * g.blocks)).stays hp a hp hrun
    show (alone pm pcbs p (4 * g.blocks + 1)).hw.ir = _
    rw [alone_succ, executeInstructionCycle_executes hrun, executeInstruction_hw_ir]
    show fetch _ = _
    rw [fetch_eq (p := p) (hpresent _) (halone _).ptbr hpages.pc,
      (halone (4 * g.blocks)).agrees.instruction hin.pc]
    exact h.exit
  · have hlt : g.codeSize + i < g.size := Nat.add_lt_add_left hi _
    rw [← h.data i hi]
    exact (halone g.codeSize).agrees.memory _ (hlt.trans_le hwords)

end

/-- A generated file, loaded and made into a process among any others, runs
alone to its exit. -/
theorem generated_runsToExit (maxLines : Word) (draws : Draws) (hfits : ImageFits maxLines draws)
    {draw : Nat} {program : Program} {programs : List Program} {p : PcbPtr} {pcb : PCB}
    (hload : loadProgramFromElf (generate maxLines draws) draw = some program)
    (hcreated : (loaded programs).1[p]? = some (program, pcb)) :
    ExecutesGenerated (.ofDraws maxLines draws hfits) (loadedSpaces programs) p
      (spaceOf (program, pcb))
      (alone (loaded programs).2.physicalMemory ((loaded programs).1.map Prod.snd) p) := by
  obtain ⟨_, hload', hholds⟩ := holds_generate maxLines draws hfits draw
  obtain rfl := Option.some.inj (hload.symm.trans hload')
  obtain ⟨hstart, hsize⟩ := hholds.start (List.mem_of_getElem? hcreated)
  have hpcb : ((loaded programs).1.map Prod.snd)[p]? = some pcb := by
    rw [List.getElem?_map, hcreated]
    rfl
  have hfresh := fresh_of_loaded hcreated hpcb
  have hspace : (loadedSpaces programs)[p]? = some (spaceOf (program, pcb)) := by
    rw [loadedSpaces, List.getElem?_map, hcreated]
    rfl
  exact (hstart.runsToExit hsize).executes hsize (loaded_layout programs) hspace hfresh

/-- Processes are made from the programs given. -/
theorem createProcesses_program {loader : Loader} {programs : List Program}
    {process : Program × PCB} (h : process ∈ (createProcesses loader programs).1) :
    process.1 ∈ programs := by
  induction programs generalizing loader with
  | nil => cases h
  | cons program programs ih =>
      rcases List.mem_append.mp h with h | h
      · obtain ⟨pcb, -, rfl⟩ := Option.map_eq_some_iff.mp (Option.mem_toList.mp h)
        exact List.mem_cons_self ..
      · exact List.mem_cons_of_mem _ (ih h)

/-- The shortest program, loaded as the only process. -/
theorem generated_runsToExit_shortest : ∃ hfits program pcb,
    loadProgramFromElf (generate 1 fun _ => 0) 0 = some program ∧
      (loaded [program]).1[0]? = some (program, pcb) ∧
      ExecutesGenerated (.ofDraws 1 (fun _ => 0) hfits) (loadedSpaces [program]) 0
        (spaceOf (program, pcb))
        (alone (loaded [program]).2.physicalMemory ((loaded [program]).1.map Prod.snd) 0) := by
  have hfits : ImageFits 1 fun _ => 0 := by decide +kernel
  have hcheck : (loadProgramFromElf (generate 1 fun _ => 0) 0).any (fun program =>
      (loaded [program]).1[0]?.isSome) = true := by decide +kernel
  obtain ⟨program, hload, hsome⟩ := (Option.any_eq_true ..).mp hcheck
  obtain ⟨process, hget⟩ := Option.isSome_iff_exists.mp hsome
  obtain rfl : process.1 = program := by
    have hmem := createProcesses_program (List.mem_of_getElem? hget)
    exact List.mem_singleton.mp hmem
  exact ⟨hfits, _, _, hload, hget, generated_runsToExit 1 (fun _ => 0) hfits hload hget⟩

end LocOS
