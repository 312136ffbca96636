import LocOS.Alone
import LocOS.RoundTrip

/-!
# Execution

A generated program, loaded and run alone, from its first instruction to its
exit. The run is followed instruction by instruction through the four phases
of a block; after each block the data are those of one more update.
-/

namespace LocOS

/-! ## Steps of generated instructions -/

namespace VirtualProcess

variable {v : VirtualProcess} {reg address : Nat}

theorem virtualWord_of_toNat {va : Word} (h : va.toNat = address) :
    virtualWord va = address / wordSize := by
  rw [virtualWord, h]

theorem step_ldWord (hlive : v.halted = false) (hreg : reg < 16) (haddress : address < 2 ^ 24)
    (h : v.instruction = ldWord reg address) :
    v.step = { v with
      pc := v.pc + 4
      registers := Function.update v.registers ⟨reg, hreg⟩ (v.memory (address / wordSize)) } := by
  have hr : extractReg (ldWord reg address) = ⟨reg, hreg⟩ :=
    Fin.ext (extractReg_ldWord hreg haddress)
  unfold step
  rw [if_neg (by simp [hlive]), h, if_pos (extractOpcode_ldWord hreg haddress), hr,
    virtualWord_of_toNat (extractAddress_ldWord hreg haddress)]

theorem step_stWord (hlive : v.halted = false) (hreg : reg < 16) (haddress : address < 2 ^ 24)
    (h : v.instruction = stWord reg address) :
    v.step = { v with
      pc := v.pc + 4
      memory := Function.update v.memory (address / wordSize) (v.registers ⟨reg, hreg⟩) } := by
  have hr : extractReg (stWord reg address) = ⟨reg, hreg⟩ :=
    Fin.ext (extractReg_stWord hreg haddress)
  have hop := extractOpcode_stWord hreg haddress
  unfold step
  rw [if_neg (by simp [hlive]), h, if_neg (by rw [hop]; decide), if_pos hop, hr,
    virtualWord_of_toNat (extractAddress_stWord hreg haddress)]

theorem step_addWord {reg3 reg1 reg2 : Nat} (hlive : v.halted = false) (h3 : reg3 < 16)
    (h1 : reg1 < 16) (h2 : reg2 < 16) (h : v.instruction = addWord reg3 reg1 reg2) :
    v.step = { v with
      pc := v.pc + 4
      registers := Function.update v.registers ⟨reg3, h3⟩
        (v.registers ⟨reg1, h1⟩ + v.registers ⟨reg2, h2⟩) } := by
  have hr3 : extractReg (addWord reg3 reg1 reg2) = ⟨reg3, h3⟩ :=
    Fin.ext (extractReg_addWord h3 h1 h2)
  have hr1 : extractRegSrc1 (addWord reg3 reg1 reg2) = ⟨reg1, h1⟩ :=
    Fin.ext (extractRegSrc1_addWord h3 h1 h2)
  have hr2 : extractRegSrc2 (addWord reg3 reg1 reg2) = ⟨reg2, h2⟩ :=
    Fin.ext (extractRegSrc2_addWord h3 h1 h2)
  have hop := extractOpcode_addWord h3 h1 h2
  unfold step
  rw [if_neg (by simp [hlive]), h, if_neg (by rw [hop]; decide), if_neg (by rw [hop]; decide),
    if_pos hop, hr3, hr1, hr2]

end VirtualProcess

/-! ## The data, block by block -/

/-- `d[(o + 2) % n] := d[o] + d[(o + 1) % n]`. -/
def blockUpdate (n o : Nat) (d : Nat → Word) : Nat → Word :=
  Function.update d ((o + 2) % n) (d o + d ((o + 1) % n))

namespace GeneratedProgram

variable (p : GeneratedProgram)

/-- The data after the first `b` blocks. -/
def dataAfter : Nat → Nat → Word
  | 0 => p.datum
  | b + 1 => blockUpdate p.dataSize (p.offset b) (dataAfter b)

theorem getElem?_blocks (f : Nat → List Word) (hf : ∀ b, (f b).length = 4) (n : Nat) {b j : Nat}
    (hb : b < n) (hj : j < 4) : ((List.range n).flatMap f)[4 * b + j]? = (f b)[j]? := by
  have hlen : ∀ n, ((List.range n).flatMap f).length = 4 * n := by
    intro n
    simp [List.length_flatMap, hf, Nat.mul_comm]
  induction n with
  | zero => cases hb
  | succ n ih =>
      rw [List.range_succ, List.flatMap_append, List.flatMap_singleton]
      rcases Nat.lt_succ_iff_lt_or_eq.mp hb with hb | rfl
      · rw [List.getElem?_append_left (by rw [hlen]; omega), ih hb]
      · rw [List.getElem?_append_right (by rw [hlen]; omega), hlen, Nat.add_sub_cancel_left]

theorem code_block {b j : Nat} (hb : b < p.blocks) (hj : j < 4) :
    p.code[4 * b + j]? = (p.blockWords b)[j]? := by
  have hlen : ((List.range p.blocks).flatMap p.blockWords).length = 4 * p.blocks := by
    simp [List.length_flatMap, Nat.mul_comm]
  rw [code, List.getElem?_append_left (by rw [hlen]; omega),
    getElem?_blocks p.blockWords p.length_blockWords p.blocks hb hj]

theorem code_exit : p.code[4 * p.blocks]? = some exitWord := by
  have hlen : ((List.range p.blocks).flatMap p.blockWords).length = 4 * p.blocks := by
    simp [List.length_flatMap, Nat.mul_comm]
  rw [code, List.getElem?_append_right (by rw [hlen]), hlen, Nat.sub_self]
  rfl

/-- Words of the image. -/
def size : Nat := p.codeSize + p.dataSize

theorem dataAddress_div (o : Nat) : p.dataAddress o / wordSize = p.codeSize + o % p.dataSize :=
  Nat.mul_div_cancel_left _ (by decide)

end GeneratedProgram

/-! ## The state between two instructions -/

/-- The program is in phase `j` of block `b`: what it has in its registers,
in its code and in its data. -/
structure InBlock (p : GeneratedProgram) (b j : Nat) (v : VirtualProcess) : Prop where
  pc : v.pc = BitVec.ofNat 32 (4 * (4 * b + j))
  running : v.halted = false
  code : ∀ i, i < p.codeSize → p.code[i]? = some (v.memory i)
  data : ∀ i, i < p.dataSize → v.memory (p.codeSize + i) = p.dataAfter b i
  first : 1 ≤ j → v.registers ⟨p.reg b, p.reg_lt b⟩ = p.dataAfter b (p.offset b)
  second : 2 ≤ j → v.registers ⟨(p.reg b + 1) % 16, Nat.mod_lt _ (by decide)⟩ =
    p.dataAfter b ((p.offset b + 1) % p.dataSize)
  sum : 3 ≤ j → v.registers ⟨(p.reg b + 2) % 16, Nat.mod_lt _ (by decide)⟩ =
    p.dataAfter b (p.offset b) + p.dataAfter b ((p.offset b + 1) % p.dataSize)

theorem virtualWord_pc {i : Nat} (h : 4 * i < 2 ^ 32) :
    virtualWord (BitVec.ofNat 32 (4 * i)) = i := by
  rw [virtualWord, BitVec.toNat_ofNat, Nat.mod_eq_of_lt h]
  exact Nat.mul_div_cancel_left i (by decide)

theorem pc_succ (i : Nat) : BitVec.ofNat 32 (4 * i) + 4 = BitVec.ofNat 32 (4 * (i + 1)) := by
  rw [Nat.mul_succ, BitVec.ofNat_add]
  rfl

namespace InBlock

variable {p : GeneratedProgram} {b j : Nat} {v : VirtualProcess}

theorem virtualWord_lt (h : InBlock p b j v) (hpc : 4 * b + j < p.codeSize) :
    virtualWord v.pc = 4 * b + j := by
  have := p.fits
  rw [h.pc, virtualWord_pc]
  simp only [GeneratedProgram.codeSize] at hpc
  omega

/-- The next instruction is the word of the code. -/
theorem fetches (h : InBlock p b j v) (hpc : 4 * b + j < p.codeSize) :
    p.code[4 * b + j]? = some v.instruction := by
  rw [VirtualProcess.instruction, h.virtualWord_lt hpc]
  exact h.code _ hpc

theorem instruction (h : InBlock p b j v) (hb : b < p.blocks) (hj : j < 4) :
    (p.blockWords b)[j]? = some v.instruction := by
  rw [← p.code_block hb hj]
  refine h.fetches ?_
  simp only [GeneratedProgram.codeSize]
  omega

/-- The accesses stay in the image. -/
theorem inWords (h : InBlock p b j v) (hpc : 4 * b + j < p.codeSize) {words : Nat}
    (hwords : p.size ≤ words) : v.InWords words := by
  simp only [GeneratedProgram.size] at hwords
  refine ⟨?_, fun hop => ?_⟩
  · rw [h.virtualWord_lt hpc]
    omega
  · have := p.accesses v.instruction (List.mem_of_getElem? (h.fetches hpc)) hop
    simp only [virtualWord, wordSize]
    omega

/-- The word of the data area an operand names. -/
theorem data_at (h : InBlock p b j v) (o : Nat) :
    v.memory (p.dataAddress o / wordSize) = p.dataAfter b (o % p.dataSize) := by
  rw [p.dataAddress_div]
  exact h.data _ (Nat.mod_lt _ p.dataSize_pos)

/-- The first load of a block. -/
theorem load_first (h : InBlock p b 0 v) (hb : b < p.blocks) : InBlock p b 1 v.step := by
  have hword := Option.some.inj (h.instruction hb (by decide))
  have hdata := h.data_at (p.offset b)
  rw [Nat.mod_eq_of_lt (p.offset_lt b)] at hdata
  rw [VirtualProcess.step_ldWord h.running (p.reg_lt b) (p.dataAddress_lt _) hword.symm]
  refine ⟨?_, h.running, h.code, h.data, fun _ => ?_, fun h2 => absurd h2 (by decide),
    fun h3 => absurd h3 (by decide)⟩
  · show v.pc + 4 = _
    rw [h.pc, pc_succ]
  · exact (Function.update_self ..).trans hdata

/-- The second load, into the next register. -/
theorem load_second (h : InBlock p b 1 v) (hb : b < p.blocks) : InBlock p b 2 v.step := by
  have hreg := p.reg_lt b
  have hword := Option.some.inj (h.instruction hb (by decide))
  rw [VirtualProcess.step_ldWord h.running (Nat.mod_lt _ (by decide)) (p.dataAddress_lt _)
    hword.symm]
  refine ⟨?_, h.running, h.code, h.data, fun _ => ?_, fun _ => ?_,
    fun h3 => absurd h3 (by decide)⟩
  · show v.pc + 4 = _
    rw [h.pc, pc_succ]
  · have hne : (⟨p.reg b, hreg⟩ : Fin 16) ≠ ⟨(p.reg b + 1) % 16, Nat.mod_lt _ (by decide)⟩ := by
      rw [Ne, Fin.mk.injEq]
      omega
    exact (Function.update_of_ne hne ..).trans (h.first (by decide))
  · exact (Function.update_self ..).trans (h.data_at _)

/-- The addition, into the register after that. -/
theorem add_third (h : InBlock p b 2 v) (hb : b < p.blocks) : InBlock p b 3 v.step := by
  have hreg := p.reg_lt b
  have hword := Option.some.inj (h.instruction hb (by decide))
  rw [VirtualProcess.step_addWord h.running (Nat.mod_lt _ (by decide)) (p.reg_lt b)
    (Nat.mod_lt _ (by decide)) hword.symm]
  -- the three registers of a block differ: 16 exceeds 2
  have h13 : (⟨p.reg b, hreg⟩ : Fin 16) ≠ ⟨(p.reg b + 2) % 16, Nat.mod_lt _ (by decide)⟩ := by
    rw [Ne, Fin.mk.injEq]
    omega
  have h23 : (⟨(p.reg b + 1) % 16, Nat.mod_lt _ (by decide)⟩ : Fin 16) ≠
      ⟨(p.reg b + 2) % 16, Nat.mod_lt _ (by decide)⟩ := by
    rw [Ne, Fin.mk.injEq]
    omega
  refine ⟨?_, h.running, h.code, h.data, fun _ => ?_, fun _ => ?_, fun _ => ?_⟩
  · show v.pc + 4 = _
    rw [h.pc, pc_succ]
  · exact (Function.update_of_ne h13 ..).trans (h.first (by decide))
  · exact (Function.update_of_ne h23 ..).trans (h.second (by decide))
  · refine (Function.update_self ..).trans ?_
    rw [h.first (by decide), h.second (by decide)]

/-- The store ends the block. -/
theorem store (h : InBlock p b 3 v) (hb : b < p.blocks) : InBlock p (b + 1) 0 v.step := by
  have hword := Option.some.inj (h.instruction hb (by decide))
  rw [VirtualProcess.step_stWord h.running (Nat.mod_lt _ (by decide)) (p.dataAddress_lt _)
    hword.symm, p.dataAddress_div]
  refine ⟨?_, h.running, fun i hi => ?_, fun i hi => ?_, fun h1 => absurd h1 (by decide),
    fun h2 => absurd h2 (by decide), fun h3 => absurd h3 (by decide)⟩
  · show v.pc + 4 = _
    rw [h.pc, pc_succ]
    congr 1
  · show p.code[i]? = some (Function.update v.memory _ (v.registers _) i)
    rw [Function.update_of_ne (by omega), h.code i hi]
  · show Function.update v.memory _ (v.registers _) (p.codeSize + i) = blockUpdate _ _ _ i
    rw [blockUpdate, Function.update_apply, Function.update_apply, h.sum (by decide), h.data i hi]
    exact if_congr (by omega) rfl rfl

/-- One instruction: the next phase, or the next block. -/
theorem step (h : InBlock p b j v) (hb : b < p.blocks) (hj : j < 4) :
    (j < 3 ∧ InBlock p b (j + 1) v.step) ∨ (j = 3 ∧ InBlock p (b + 1) 0 v.step) := by
  match j, hj with
  | 0, _ => exact .inl ⟨by decide, h.load_first hb⟩
  | 1, _ => exact .inl ⟨by decide, h.load_second hb⟩
  | 2, _ => exact .inl ⟨by decide, h.add_third hb⟩
  | 3, _ => exact .inr ⟨rfl, h.store hb⟩

/-- Behind the last block stands the exit. -/
theorem exits (h : InBlock p p.blocks 0 v) :
    v.instruction = exitWord ∧ v.step = { v with halted := true } := by
  have hword : v.instruction = exitWord := by
    have hpc : 4 * p.blocks + 0 < p.codeSize := Nat.lt_succ_self _
    have := h.fetches hpc
    rw [Nat.add_zero, p.code_exit] at this
    exact (Option.some.inj this).symm
  refine ⟨hword, ?_⟩
  unfold VirtualProcess.step
  rw [if_neg (by simp [h.running]), hword, if_neg (by decide), if_neg (by decide),
    if_neg (by decide)]

end InBlock

/-! ## The whole run -/

section
variable {p : GeneratedProgram} {v : VirtualProcess}

theorem InBlock.iterate (h : InBlock p 0 0 v) {k : Nat} (hk : k ≤ 4 * p.blocks) :
    InBlock p (k / 4) (k % 4) (VirtualProcess.step^[k] v) := by
  induction k with
  | zero => exact h
  | succ k ih =>
      rw [Function.iterate_succ_apply']
      have hj : k % 4 < 4 := Nat.mod_lt k (by decide)
      rcases (ih (by omega)).step (by omega) hj with ⟨hlt, hnext⟩ | ⟨heq, hnext⟩
      · rwa [show (k + 1) / 4 = k / 4 by omega, show (k + 1) % 4 = k % 4 + 1 by omega]
      · rwa [show (k + 1) / 4 = k / 4 + 1 by omega, show (k + 1) % 4 = 0 by omega]

/-- The words of the code are fetched one after another. -/
theorem InBlock.fetches_iterate (h : InBlock p 0 0 v) {k : Nat} (hk : k < p.codeSize) :
    p.code[k]? = some (VirtualProcess.step^[k] v).instruction := by
  have := (h.iterate (Nat.le_of_lt_succ hk)).fetches (by rwa [Nat.div_add_mod])
  rwa [Nat.div_add_mod] at this

/-- What the process alone is after `k` instructions. -/
structure RunsToExit (p : GeneratedProgram) (words : Nat) (run : Nat → VirtualProcess) : Prop where
  inWords : ∀ k, (run k).halted = false → (run k).InWords words
  code : ∀ k i, i < p.codeSize → p.code[i]? = some ((run k).memory i)
  halted : ∀ k, (run k).halted = decide (4 * p.blocks < k)
  exit : (run (4 * p.blocks)).instruction = exitWord
  data : ∀ i, i < p.dataSize →
    (run (4 * p.blocks + 1)).memory (p.codeSize + i) = p.dataAfter p.blocks i

theorem InBlock.runsToExit (h : InBlock p 0 0 v) {words : Nat} (hwords : p.size ≤ words) :
    RunsToExit p words fun k => VirtualProcess.step^[k] v := by
  have hlast : InBlock p p.blocks 0 (VirtualProcess.step^[4 * p.blocks] v) := by
    have := h.iterate (Nat.le_refl _)
    rwa [Nat.mul_div_cancel_left _ (by decide), Nat.mul_mod_right] at this
  obtain ⟨hexit, hstep⟩ := hlast.exits
  -- halted once, the process stays as it is
  have hend : ∀ d, VirtualProcess.step^[4 * p.blocks + 1 + d] v =
      { VirtualProcess.step^[4 * p.blocks] v with halted := true } := by
    intro d
    induction d with
    | zero => rw [Nat.add_zero, Function.iterate_succ_apply', hstep]
    | succ d ih =>
        rw [← Nat.add_assoc, Function.iterate_succ_apply', ih]
        exact VirtualProcess.step_halted rfl
  have hcases : ∀ k, (k ≤ 4 * p.blocks ∧ InBlock p (k / 4) (k % 4) (VirtualProcess.step^[k] v)) ∨
      (4 * p.blocks < k ∧ VirtualProcess.step^[k] v =
        { VirtualProcess.step^[4 * p.blocks] v with halted := true }) := by
    intro k
    rcases Nat.lt_or_ge (4 * p.blocks) k with hk | hk
    · obtain ⟨d, rfl⟩ := Nat.exists_eq_add_of_le hk
      exact .inr ⟨hk, hend d⟩
    · exact .inl ⟨hk, h.iterate hk⟩
  refine ⟨fun k hlive => ?_, fun k i hi => ?_, fun k => ?_, hexit, fun i hi => ?_⟩
  · rcases hcases k with ⟨hk, hin⟩ | ⟨_, he⟩
    · refine hin.inWords ?_ hwords
      rw [Nat.div_add_mod]
      exact Nat.lt_succ_of_le hk
    · rw [he] at hlive
      cases hlive
  · rcases hcases k with ⟨_, hin⟩ | ⟨_, he⟩
    · exact hin.code i hi
    · rw [he]
      exact hlast.code i hi
  · rcases hcases k with ⟨hk, hin⟩ | ⟨hk, he⟩
    · rw [hin.running, decide_eq_false (by omega)]
    · rw [he, decide_eq_true hk]
  · have := hend 0
    rw [Nat.add_zero] at this
    rw [this]
    exact hlast.data i hi

end

end LocOS
