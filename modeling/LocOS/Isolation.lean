import LocOS.Pass
import LocOS.Startup

/-!
# Isolation

Processes share one word array, and their page tables lie side by side in it.
A cycle that stays in the pages of its own table changes nothing but its own
words and the accessed and dirty bits of its own entries. The index of the
page is not checked, so a cycle that leaves its pages reads its neighbours'
entries as its own.
-/

namespace LocOS

/-! ## Runs, cycle by cycle -/

/-- The steps of the clock and of the scheduler, a tick cut into its hardware
threads. -/
inductive MicroAction where
  | count
  | slot (i j k : Nat)
  | pass
  deriving DecidableEq, Repr

/-- The step itself. -/
def Sys.micro (s : Sys) : MicroAction → Sys
  | .count =>
      { s with
        clkCounter := s.clkCounter + 1
        log := s.log ++ [Event.tick (s.clkCounter + 1)] }
  | .slot i j k => tickThread i j k s
  | .pass => schedulerPass s

/-- Runs in which every hardware thread's share of a tick is a step of its
own: their states include those between the cycles of one tick. -/
def microRuns (cfg : Config) (programs : List Program) : Runs Sys MicroAction where
  init s := boot (cfg.load programs) (loadedPcbs cfg programs) = some s
  step s a t := t = s.micro a

theorem restricted_micro {cfg : Config} {programs : List Program}
    {ok : Sys → MicroAction → Prop} {s : Sys}
    (h : ((microRuns cfg programs).restrict ok).Reachable s) (a : MicroAction) (hok : ok s a) :
    ((microRuns cfg programs).restrict ok).Reachable (s.micro a) := h.step ⟨hok, rfl⟩

/-- A tick is a run of its hardware threads. -/
theorem micro_clockTick {cfg : Config} {programs : List Program} (s : Sys) :
    (microRuns cfg programs).Steps s (clockTick s) :=
  clockTick_inv ((microRuns cfg programs).Steps s) (.single (a := .count) rfl)
    fun i j k _ ht => .tail (a := .slot i j k) ht rfl

/-- Every state between ticks and passes is a state of these runs. -/
theorem micro_of_reachable {cfg : Config} {programs : List Program} {s : Sys}
    (h : (programRuns cfg programs).Reachable s) : (microRuns cfg programs).Reachable s := by
  induction h with
  | init hi => exact .init hi
  | @step s t a _ hs ih =>
      obtain rfl := hs
      cases a with
      | tick => exact ih.steps (micro_clockTick s)
      | pass => exact ih.step (a := .pass) rfl

/-! ## The tables of the processes -/

/-- A page table reference of process `p`: none, or its own table. -/
def Names (spaces : List Space) (p : PcbPtr) (pageTable : Option Nat) : Prop :=
  pageTable = none ∨ ∃ a, spaces[p]? = some a ∧ pageTable = some a.base

/-- Every reference to a page table is one of the process that holds it. -/
structure AddressSpaces (spaces : List Space) (pmRef : Option PhysicalMemory) (m : Machine)
    (h : PcbHeap) : Prop where
  memory : ∃ pm, pmRef = some pm ∧ Layout pm spaces
  heap : ∀ p, Names spaces p (h.get p).mm.pgb
  threads : ∀ core ∈ m.cores, ∀ hw ∈ core.hwThreads, ∀ p, hw.pcb = some p →
    Names spaces p hw.ptbr

/-- The invariant of a system. -/
def Sys.Spaced (spaces : List Space) (s : Sys) : Prop :=
  AddressSpaces spaces s.clockPmRef s.machine s.pcbs

theorem AddressSpaces.references {spaces : List Space} {pmRef : Option PhysicalMemory}
    {m : Machine} {h : PcbHeap} (ha : AddressSpaces spaces pmRef m h) :
    References (Names spaces) m h :=
  ⟨fun _ => .inl rfl, ha.heap, ha.threads⟩

/-- A pass keeps the tables where they belong. -/
theorem Sys.Spaced.schedulerPass {spaces : List Space} {s : Sys} (hs : s.Spaced spaces) :
    (schedulerPass s).Spaced spaces := by
  have hpm := (PassKeeps.clockPmRef s.clockPmRef).schedulerPass rfl
  have hr := References.passKeeps.schedulerPass (AddressSpaces.references hs)
  refine ⟨?_, hr.heap, hr.threads⟩
  rw [hpm]
  exact hs.memory

/-! ## One cycle -/

/-- Two states a process cannot tell apart: its thread, its entries and the
words of its frames are the same. -/
structure SameProcess (a : Space) (p : PcbPtr) (e e' : ExecState) : Prop where
  pcb : e'.hw.pcb = e.hw.pcb
  ptbr : e'.hw.ptbr = e.hw.ptbr
  pc : e'.hw.pc = e.hw.pc
  registers : e'.hw.registers = e.hw.registers
  state : (e'.pcbs.get p).state = (e.pcbs.get p).state
  entries : ∀ i, i < a.pages → e'.pm.entry a.base i = e.pm.entry a.base i
  frames : ∀ w, w < a.words → e'.pm.memory (a.index e.pm w) = e.pm.memory (a.index e.pm w)

/-- What one cycle of process `p` may do to the memory, and see of it. -/
structure CycleIsolated (spaces : List Space) (p : PcbPtr) (e : ExecState) : Prop where
  /-- Only words of the frames of `p`, and its entries, change. -/
  writes : ∀ x, (executeInstructionCycle e).pm.memory x ≠ e.pm.memory x →
    ∃ a, spaces[p]? = some a ∧
      ((∃ w, w < a.words ∧ x = a.index e.pm w) ∨ ∃ i, i < a.pages ∧ x = a.base + i)
  /-- Of its entries, only the accessed and dirty bits. -/
  bits : ∀ a, spaces[p]? = some a → ∀ i, i < a.pages → ∃ accessed dirty,
    (executeInstructionCycle e).pm.entry a.base i =
      { e.pm.entry a.base i with accessed, dirty }
  allocator : (executeInstructionCycle e).pm =
    { e.pm with memory := (executeInstructionCycle e).pm.memory }
  /-- No entry and no word of another process. -/
  others : ∀ (q : Nat) (b : Space), q ≠ p → spaces[q]? = some b →
    (∀ i, i < b.pages → (executeInstructionCycle e).pm.entry b.base i = e.pm.entry b.base i) ∧
      ∀ w, w < b.words →
        (executeInstructionCycle e).pm.memory (b.index e.pm w) = e.pm.memory (b.index e.pm w)
  /-- What the thread loads depends on nothing else. -/
  loads : ∀ a, spaces[p]? = some a → ∀ e', SameProcess a p e e' →
    (executeInstructionCycle e').hw.registers = (executeInstructionCycle e).hw.registers

/-- The cycle, if there is one, stays in the pages of the process. -/
def StaysInPages (spaces : List Space) (p : PcbPtr) (e : ExecState) : Prop :=
  ∀ a, spaces[p]? = some a → Executes e p → InPages a e

section
variable {spaces : List Space} {p : PcbPtr} {e e' : ExecState} {a : Space}

namespace SameProcess

theorem index (h : SameProcess a p e e') {w : Nat} (hw : w < a.words) :
    a.index e'.pm w = a.index e.pm w := by
  simp only [Space.index, Space.frame, h.entries _ (Space.page_lt hw)]

theorem read (h : SameProcess a p e e') {w : Nat} (hw : w < a.words) :
    a.read e'.pm w = a.read e.pm w := by
  rw [Space.read, h.index hw, h.frames w hw, Space.read]

theorem executes (h : SameProcess a p e e') : Executes e' p ↔ Executes e p := by
  constructor
  · rintro ⟨hp, hst, hptbr⟩
    exact ⟨h.pcb ▸ hp, h.state ▸ hst, h.ptbr ▸ hptbr⟩
  · rintro ⟨hp, hst, hptbr⟩
    exact ⟨h.pcb.symm ▸ hp, h.state.symm ▸ hst, h.ptbr.symm ▸ hptbr⟩

theorem agrees (h : SameProcess a p e e') : (e.view a p).Agrees a.words (e'.view a p) :=
  ⟨h.pc, h.registers, fun _ hw => h.read hw, by simp only [ExecState.view, h.state]⟩

theorem present (h : SameProcess a p e e') (hpresent : a.Present e.pm) : a.Present e'.pm := by
  intro i hi
  rw [h.entries i hi]
  exact hpresent i hi

theorem inPages (h : SameProcess a p e e') (hpresent : a.Present e.pm)
    (hptbr : e.hw.ptbr = some a.base) (hin : InPages a e) : InPages a e' := by
  have hpc : a.Covers e'.hw.pc := h.pc.symm ▸ hin.pc
  have hfetch : fetch e' = fetch e := by
    rw [fetch_eq (p := p) (h.present hpresent) (h.ptbr.trans hptbr) hpc,
      fetch_eq (p := p) hpresent hptbr hin.pc]
    exact h.agrees.instruction hin.pc.lt
  exact ⟨hpc, hfetch.symm ▸ hin.address⟩

/-- Inside its pages a process cannot tell the two states apart. -/
theorem registers_eq (h : SameProcess a p e e') (hpresent : a.Present e.pm)
    (hptbr : e.hw.ptbr = some a.base) (hrun : Executes e p) (hin : InPages a e) :
    (executeInstructionCycle e').hw.registers = (executeInstructionCycle e).hw.registers := by
  rw [(executeInstructionCycle_hw hrun hin hpresent hptbr).2,
    (executeInstructionCycle_hw (h.executes.mpr hrun) (h.inPages hpresent hptbr hin)
      (h.present hpresent) (h.ptbr.trans hptbr)).2]
  exact (h.agrees.step fun _ => (inPages_iff hpresent hptbr).mp hin).registers

end SameProcess

theorem cycleIsolated_of_eq (h : executeInstructionCycle e = e)
    (hloads : ∀ a e', SameProcess a p e e' → executeInstructionCycle e' = e') :
    CycleIsolated spaces p e where
  writes := fun x hx => absurd (by rw [h]) hx
  bits := fun a _ i _ => ⟨_, _, by rw [h]⟩
  allocator := by rw [h]
  others := fun q b _ _ => by
    rw [h]
    exact ⟨fun _ _ => rfl, fun _ _ => rfl⟩
  loads := by
    intro a _ e' he
    rw [h, hloads a e' he]
    exact he.registers

/-- A store inside the pages of its process changes one word of its frames and
one of its entries. -/
theorem Layout.cycleIsolated_store {a : Space} (hL : Layout e.pm spaces)
    (hp : spaces[p]? = some a) (hptbr : e.hw.ptbr = some a.base) (hrun : Executes e p)
    (hin : InPages a e) (hst : extractOpcode (fetch e) = opSt) : CycleIsolated spaces p e := by
  have ha := List.mem_of_getElem? hp
  have hsame : ∀ b, spaces[p]? = some b → b = a := fun b hb => Option.some.inj (hb.symm.trans hp)
  have hpm := executeInstructionCycle_pm hrun
  rw [if_pos hst, hptbr] at hpm
  have hva := hin.address (.inr hst)
  have hmem := PhysicalMemory.mmuWriteWord_memory (e.hw.registers (extractReg (fetch e)))
    (hL.covers_present ha hva)
  refine ⟨fun x hx => ?_, fun b hb i hi => ?_, ?_, fun q b hq hb => ⟨fun i hi => ?_,
    fun w hw => ?_⟩, fun b hb e' he => ?_⟩
  · rw [hpm, hmem] at hx
    refine ⟨a, hp, ?_⟩
    by_cases hword : x = a.index e.pm (virtualWord (extractAddress (fetch e)))
    · exact .inl ⟨_, hva.lt, hword⟩
    · rw [if_neg hword] at hx
      by_cases hentry : x = a.base + PhysicalMemory.virtualPage (extractAddress (fetch e))
      · exact .inr ⟨_, hva, hentry⟩
      · rw [if_neg hentry] at hx
        exact absurd rfl hx
  · obtain rfl := hsame b hb
    rw [hpm, PhysicalMemory.entry_eq,
      hL.store_entryAt ha hva _ (hL.inKernel _ (owned_entry ha hi))]
    split
    · exact ⟨true, true, rfl⟩
    · exact ⟨_, _, rfl⟩
  · rw [hpm]
    simp only [PhysicalMemory.mmuWriteWord, PhysicalMemory.writeWord, PhysicalMemory.setEntry]
    split <;> rfl
  · -- the entries of `q` are not those of `p`
    have hbm := List.mem_of_getElem? hb
    rw [hpm, PhysicalMemory.entry_eq,
      hL.store_entryAt ha hva _ (hL.inKernel _ (owned_entry hbm hi)), if_neg]
    · rfl
    · intro he
      exact hq (hL.tables hb hp hi hva he).1
  · -- nor are its words, and no entry is a word
    have hbm := List.mem_of_getElem? hb
    rw [hpm, hmem, if_neg, if_neg]
    · have hkernel := hL.kernel_le_index hbm hw
      have := hL.inKernel _ (owned_entry ha hva)
      omega
    · intro he
      exact hq (hL.index_inj hb hp hw hva.lt he).1
  · obtain rfl := hsame b hb
    exact he.registers_eq (hL.present_of ha) hptbr hrun hin

/-- Any other instruction leaves the memory as it is. -/
theorem Layout.cycleIsolated_noStore {a : Space} (hL : Layout e.pm spaces)
    (hp : spaces[p]? = some a) (hptbr : e.hw.ptbr = some a.base) (hrun : Executes e p)
    (hin : InPages a e) (hst : extractOpcode (fetch e) ≠ opSt) : CycleIsolated spaces p e := by
  have hpm := executeInstructionCycle_pm hrun
  rw [if_neg hst] at hpm
  refine ⟨fun x hx => absurd (by rw [hpm]) hx, fun b _ i _ => ⟨_, _, by rw [hpm]⟩, by rw [hpm],
    fun q b _ _ => ?_, fun b hb e' he => ?_⟩
  · rw [hpm]
    exact ⟨fun _ _ => rfl, fun _ _ => rfl⟩
  · obtain rfl := Option.some.inj (hb.symm.trans hp)
    exact he.registers_eq (hL.present_of (List.mem_of_getElem? hp)) hptbr hrun hin

/-- A cycle that stays in the pages of its process is isolated. -/
theorem Layout.cycleIsolated (hL : Layout e.pm spaces) (hpcb : e.hw.pcb = some p)
    (hn : Names spaces p e.hw.ptbr) (hstay : StaysInPages spaces p e) :
    CycleIsolated spaces p e := by
  by_cases hrun : Executes e p
  · obtain ⟨a, hp, hptbr⟩ := hn.resolve_left hrun.ptbr
    have hin := hstay a hp hrun
    by_cases hst : extractOpcode (fetch e) = opSt
    · exact hL.cycleIsolated_store hp hptbr hrun hin hst
    · exact hL.cycleIsolated_noStore hp hptbr hrun hin hst
  -- nothing is executed, in neither of the two states
  · have honly : ∀ e' : ExecState, e'.hw.pcb = some p → ¬ Executes e' p →
        executeInstructionCycle e' = e' := by
      intro e' hp' hnot
      refine executeInstructionCycle_skips fun q hq => ?_
      obtain rfl := Option.some.inj (hp'.symm.trans hq.pcb)
      exact hnot hq
    exact cycleIsolated_of_eq (honly e hpcb hrun) fun b e' he =>
      honly e' (he.pcb.trans hpcb) fun h => hrun (he.executes.mp h)

end

/-! ## Whole runs -/

/-- The process of a busy hardware thread and the state its next cycle starts
from. -/
def Sys.cycle? (s : Sys) (i j k : Nat) : Option (PcbPtr × ExecState) :=
  (s.machine.slot? i j k).bind fun (_, hw, p) =>
    s.clockPmRef.map fun pm => (p, s.exec hw pm p)

/-- The step executes no cycle that leaves the pages of its process. -/
structure StepStays (spaces : List Space) (s : Sys) (a : MicroAction) : Prop where
  stays : ∀ i j k p e, a = .slot i j k → s.cycle? i j k = some (p, e) → StaysInPages spaces p e

theorem Sys.cycle?_eq_some {s : Sys} {i j k : Nat} {p : PcbPtr} {e : ExecState} :
    s.cycle? i j k = some (p, e) ↔
      ∃ core hw pm, s.machine.slot? i j k = some (core, hw, p) ∧ s.clockPmRef = some pm ∧
        e = s.exec hw pm p := by
  simp only [cycle?, Option.bind_eq_some_iff, Option.map_eq_some_iff, Prod.mk.injEq]
  constructor
  · rintro ⟨⟨core, hw, q⟩, hslot, pm, hpm, rfl, rfl⟩
    exact ⟨core, hw, pm, hslot, hpm, rfl⟩
  · rintro ⟨core, hw, pm, hslot, hpm, rfl⟩
    exact ⟨(core, hw, p), hslot, pm, hpm, rfl, rfl⟩

namespace Sys.Spaced

variable {spaces : List Space} {s : Sys}

theorem isolated (hs : s.Spaced spaces) {i j k : Nat} {p : PcbPtr} {e : ExecState}
    (he : s.cycle? i j k = some (p, e)) (hstay : StaysInPages spaces p e) :
    CycleIsolated spaces p e := by
  obtain ⟨core, hw, pm, hslot, hpm, rfl⟩ := Sys.cycle?_eq_some.mp he
  obtain ⟨hcore, hk, hp⟩ := Machine.slot?_eq_some.mp hslot
  obtain ⟨pm', hpm', hL⟩ := hs.memory
  obtain rfl := Option.some.inj (hpm.symm.trans hpm')
  exact Layout.cycleIsolated hL hp
    ((AddressSpaces.references hs).core hcore hw (List.mem_of_getElem? hk) p hp) hstay

theorem tickThread (hs : s.Spaced spaces) {i j k : Nat}
    (hstay : StepStays spaces s (.slot i j k)) : (tickThread i j k s).Spaced spaces := by
  have hr := (AddressSpaces.references hs).tickThread i j k
  refine ⟨?_, hr.heap, hr.threads⟩
  rcases tickThread_cases i j k s with
    ⟨_, he⟩ | ⟨core, hw, p, _, _, he⟩ | ⟨core, hw, p, pm, base, hslot, hpm, hst, hbase, he⟩
  · rw [he]
    exact hs.memory
  · rw [he]
    exact hs.memory
  · obtain ⟨hcore, hk, hp⟩ := Machine.slot?_eq_some.mp hslot
    have hrun : Executes (s.exec hw pm p) p := ⟨hp, hst, by
      show hw.ptbr ≠ none
      rw [hbase]
      exact Option.some_ne_none _⟩
    have hnames := (AddressSpaces.references hs).core hcore hw (List.mem_of_getElem? hk) p hp
    obtain ⟨a, ha, hptbr⟩ := hnames.resolve_left hrun.ptbr
    have hin := hstay.stays i j k p _ rfl
      (Sys.cycle?_eq_some.mpr ⟨core, hw, pm, hslot, hpm, rfl⟩) a ha hrun
    obtain ⟨pm', hpm', hL⟩ := hs.memory
    obtain rfl := Option.some.inj (hpm.symm.trans hpm')
    rw [he]
    refine ⟨_, rfl, ?_⟩
    rw [← executeInstructionCycle_executes hrun]
    exact Layout.cycle hL (List.mem_of_getElem? ha) hrun hin hptbr

theorem micro (hs : s.Spaced spaces) {a : MicroAction} (hstay : StepStays spaces s a) :
    (s.micro a).Spaced spaces := by
  cases a with
  | count => exact hs
  | slot i j k => exact hs.tickThread hstay
  | pass => exact hs.schedulerPass

theorem boot {cfg : Config} {programs : List Program} (hidle : cfg.machine.Idle)
    (hs : LocOS.boot (cfg.load programs) (loadedPcbs cfg programs) = some s) :
    s.Spaced (loadedSpaces programs) := by
  have hb := boot_spec hs
  refine ⟨⟨_, hb.pm, loaded_layout programs⟩, fun p => ?_, fun core hcore hw hmem p hp => ?_⟩
  · rw [hb.heap]
    cases hget : (loadedPcbs cfg programs)[p]? with
    | none =>
        left
        simp only [PcbHeap.get, bootHeap, hget]
        rfl
    | some pcb =>
        obtain ⟨program, pid, base, _, rfl, hspace⟩ := loadedPcbs_getElem? hget
        rw [get_bootHeap hget]
        exact .inr ⟨_, hspace, rfl⟩
  · obtain ⟨k, hk⟩ := List.getElem?_of_mem hmem
    rw [hb.machine] at hcore
    rw [(hidle core hcore).slot k hw hk] at hp
    simp at hp

end Sys.Spaced

/-- Isolation, for any programs, any machine and policy, and any interleaving
of hardware threads and scheduler passes: as long as no executed cycle leaves
the pages of its process, in every state the next cycle of any process that
stays in its pages is isolated. -/
theorem cycles_isolated {cfg : Config} {programs : List Program} (hidle : cfg.machine.Idle)
    {s : Sys} (hs : ((microRuns cfg programs).restrict
      (StepStays (loadedSpaces programs))).Reachable s) {i j k : Nat} {p : PcbPtr}
    {e : ExecState} (he : s.cycle? i j k = some (p, e))
    (hstay : StaysInPages (loadedSpaces programs) p e) :
    CycleIsolated (loadedSpaces programs) p e := by
  have hspaced : s.Spaced (loadedSpaces programs) :=
    hs.invariant (fun s => s.Spaced (loadedSpaces programs)) (fun s hs => .boot hidle hs)
      (fun s a t ih ht => ht.2 ▸ ih.micro ht.1)
  exact hspaced.isolated he hstay

/-- A process of one instruction next to one that exits. -/
def neighbours (instruction : Word) : List Program :=
  [oneInstruction instruction, oneInstruction 0xF0000000#32]

/-- A process that stores into its own first word, once it is on its
hardware thread. -/
theorem cycles_isolated_store : ∃ s p e,
    ((microRuns (oneCore 1 .roundRobin 1) (neighbours 0x10000000#32)).restrict
      (StepStays (loadedSpaces (neighbours 0x10000000#32)))).Reachable s ∧
      s.cycle? 0 0 0 = some (p, e) ∧ Executes e p ∧
      CycleIsolated (loadedSpaces (neighbours 0x10000000#32)) p e := by
  have hrun : (boot ((oneCore 1 .roundRobin 1).load (neighbours 0x10000000#32))
      (loadedPcbs (oneCore 1 .roundRobin 1) (neighbours 0x10000000#32))).any (fun s =>
        ((schedulerPass s).cycle? 0 0 0).any fun (p, e) => decide (
          (loadedSpaces (neighbours 0x10000000#32))[p]? = some ⟨0, 1⟩ ∧
          e.hw.pcb = some p ∧ (e.pcbs.get p).state ≠ .terminated ∧ e.hw.ptbr ≠ none ∧
          (Space.mk 0 1).Covers e.hw.pc ∧
          (Space.mk 0 1).Covers (extractAddress (fetch e)))) = true := by
    decide +kernel
  obtain ⟨s, hs, hcheck⟩ := (Option.any_eq_true ..).mp hrun
  obtain ⟨⟨p, e⟩, hcycle, hcheck⟩ := (Option.any_eq_true ..).mp hcheck
  obtain ⟨hspace, hpcb, hlive, hptbr, hpc, haddress⟩ := of_decide_eq_true hcheck
  have hreach := (Runs.Reachable.init (S := (microRuns _ _).restrict
    (StepStays (loadedSpaces (neighbours 0x10000000#32)))) hs).step (a := .pass)
    ⟨⟨fun _ _ _ _ _ h => by cases h⟩, rfl⟩
  refine ⟨_, p, e, hreach, hcycle, ⟨hpcb, hlive, hptbr⟩,
    cycles_isolated (Machine.createMachine_idle 1 1 1) hreach hcycle ?_⟩
  intro a ha _
  obtain rfl := Option.some.inj (hspace.symm.trans ha)
  exact ⟨hpc, fun _ => haddress⟩

/-! ## A cycle that leaves its pages -/

/-- The store to the first word behind the page goes through the neighbour's
entry, which lies behind its own, into the neighbour's first word. -/
theorem trespasser_overwrites : ∃ s p e,
    (microRuns (oneCore 1 .roundRobin 1) (neighbours 0x10001000#32)).Reachable s ∧
      s.cycle? 0 0 0 = some (p, e) ∧
      ¬ CycleIsolated (loadedSpaces (neighbours 0x10001000#32)) p e := by
  have hrun : (boot ((oneCore 1 .roundRobin 1).load (neighbours 0x10001000#32))
      (loadedPcbs (oneCore 1 .roundRobin 1) (neighbours 0x10001000#32))).any (fun s =>
        ((schedulerPass s).cycle? 0 0 0).any fun (p, e) => decide (
          (loadedSpaces (neighbours 0x10001000#32))[1]? = some ⟨1, 1⟩ ∧ p = 0 ∧
          (executeInstructionCycle e).pm.memory ((Space.mk 1 1).index e.pm 0) ≠
            e.pm.memory ((Space.mk 1 1).index e.pm 0))) = true := by
    decide +kernel
  obtain ⟨s, hs, hcheck⟩ := (Option.any_eq_true ..).mp hrun
  obtain ⟨⟨p, e⟩, hcycle, hcheck⟩ := (Option.any_eq_true ..).mp hcheck
  obtain ⟨hspace, rfl, hbad⟩ := of_decide_eq_true hcheck
  have hreach := (Runs.Reachable.init (S := microRuns _ _) hs).step (a := .pass) rfl
  refine ⟨_, 0, e, hreach, hcycle, fun h => hbad ?_⟩
  exact (h.others 1 ⟨1, 1⟩ (by decide) hspace).2 0 (by decide)

end LocOS
