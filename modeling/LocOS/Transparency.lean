import LocOS.Alone
import LocOS.RoundRobin

/-!
# Transparency

Context switches are invisible to a process. Under Round Robin every process
is, after any number of dispatches on any hardware threads, where it would be
after as many instructions alone: the registers and the program counter
travel between thread and PCB, and no other process touches its words.
-/

namespace LocOS

open scoped List

/-! ## A process among others -/

/-- Where a process is after the instructions it has executed. -/
def progress (start : PcbPtr → VirtualProcess) (log : List Event) (p : PcbPtr) :
    VirtualProcess :=
  VirtualProcess.step^[execCount log p] (start p)

/-- Every process is where it would be alone: on its hardware thread, or in
the context its PCB saves. -/
structure Tracked (spaces : List Space) (start : PcbPtr → VirtualProcess) (pid : PcbPtr → Int)
    (pm : PhysicalMemory) (s : Sys) : Prop where
  memory : s.clockPmRef = some pm
  layout : Layout pm spaces
  pids : ∀ p, s.pcbs.Live p → s.pid p = pid p
  threads : ∀ core ∈ s.machine.cores, ∀ hw ∈ core.hwThreads, ∀ p, hw.pcb = some p →
    ∃ a, spaces[p]? = some a ∧ hw.ptbr = some a.base ∧ (s.pcbs.get p).mm.pgb = some a.base ∧
      (progress start s.log p).Agrees a.words
        ⟨hw.pc, hw.registers, a.read pm, decide ((s.pcbs.get p).state = .terminated)⟩
  queued : ∀ p ∈ s.waiting,
    ∃ a, spaces[p]? = some a ∧ (s.pcbs.get p).mm.pgb = some a.base ∧
      (progress start s.log p).Agrees a.words
        ⟨(s.pcbs.get p).context.pc, (s.pcbs.get p).context.registers, a.read pm, false⟩

/-- Alone, no process leaves its words. -/
def StaysInWords (spaces : List Space) (start : PcbPtr → VirtualProcess) : Prop :=
  ∀ p a, spaces[p]? = some a → ∀ k,
    (VirtualProcess.step^[k] (start p)).halted = false →
      (VirtualProcess.step^[k] (start p)).InWords a.words

namespace Tracked

variable {spaces : List Space} {start : PcbPtr → VirtualProcess} {pid : PcbPtr → Int}
  {pm : PhysicalMemory} {s : Sys}

/-- A change of a PCB that touches neither its table, its context nor its
state. -/
theorem touch (h : Tracked spaces start pid pm s) {p : PcbPtr} {pcb : PCB}
    (hpid : pcb.pid = (s.pcbs.get p).pid) (hmm : pcb.mm = (s.pcbs.get p).mm)
    (hcontext : pcb.context = (s.pcbs.get p).context)
    (hstate : pcb.state = (s.pcbs.get p).state) :
    Tracked spaces start pid pm { s with pcbs := s.pcbs.set p pcb } := by
  have hsame : ∀ q, ((s.pcbs.set p pcb).get q).mm = (s.pcbs.get q).mm ∧
      ((s.pcbs.set p pcb).get q).context = (s.pcbs.get q).context ∧
      ((s.pcbs.set p pcb).get q).state = (s.pcbs.get q).state := fun q =>
    ⟨PcbHeap.get_set_congr PCB.mm s.pcbs hmm q,
      PcbHeap.get_set_congr PCB.context s.pcbs hcontext q,
      PcbHeap.get_set_congr PCB.state s.pcbs hstate q⟩
  refine ⟨h.memory, h.layout, fun q hq => ?_, fun core hcore hw hmem p hp => ?_, fun p hp => ?_⟩
  · rw [← h.pids q ((PcbHeap.live_set ..).mp hq)]
    exact PcbHeap.get_set_congr PCB.pid s.pcbs hpid q
  · show ∃ a, _ ∧ _ ∧ ((s.pcbs.set _ pcb).get p).mm.pgb = _ ∧ _
    simp only [hsame]
    exact h.threads core hcore hw hmem p hp
  · show ∃ a, _ ∧ ((s.pcbs.set _ pcb).get p).mm.pgb = _ ∧ _
    simp only [hsame]
    exact h.queued p hp

/-- A step that appends to the log, executes nothing and changes no process
in `places`. -/
theorem keep (h : Tracked spaces start pid pm s) {s' : Sys} (hpm : s'.clockPmRef = s.clockPmRef)
    (hlog : ∀ p, execCount s'.log p = execCount s.log p)
    (hpids : ∀ p, s'.pcbs.Live p → s.pcbs.Live p ∧ s'.pid p = s.pid p)
    (hthreads : ∀ core ∈ s'.machine.cores, ∀ hw ∈ core.hwThreads, ∀ p, hw.pcb = some p →
      (∃ core ∈ s.machine.cores, hw ∈ core.hwThreads) ∧ s'.pcbs.get p = s.pcbs.get p)
    (hqueued : ∀ p ∈ s'.waiting, p ∈ s.waiting ∧ s'.pcbs.get p = s.pcbs.get p) :
    Tracked spaces start pid pm s' := by
  refine ⟨hpm.trans h.memory, h.layout, fun p hp => (hpids p hp).2.trans (h.pids p (hpids p hp).1),
    fun core hcore hw hmem p hp => ?_, fun p hp => ?_⟩
  · obtain ⟨⟨core', hcore', hmem'⟩, hget⟩ := hthreads core hcore hw hmem p hp
    rw [hget, progress, hlog]
    exact h.threads core' hcore' hw hmem' p hp
  · obtain ⟨hp, hget⟩ := hqueued p hp
    rw [hget, progress, hlog]
    exact h.queued p hp

/-- The clock counts. -/
theorem tickEvent (h : Tracked spaces start pid pm s) :
    Tracked spaces start pid pm { s with
      clkCounter := s.clkCounter + 1
      log := s.log ++ [Event.tick (s.clkCounter + 1)] } := by
  refine h.keep rfl (fun q => ?_) (fun q hq => ⟨hq, rfl⟩) (fun core hcore hw hmem q hq => ?_)
    fun q hq => ⟨hq, rfl⟩
  · simp [execCount]
  · exact ⟨⟨core, hcore, hmem⟩, rfl⟩

/-- The queues change, and nobody enters them. -/
theorem setSched (h : Tracked spaces start pid pm s) {sched : Scheduler}
    (hperm : sched.waiting ~ s.sched.waiting) : Tracked spaces start pid pm { s with sched } :=
  h.keep rfl (fun _ => rfl) (fun _ hq => ⟨hq, rfl⟩)
    (fun core hcore _ hmem _ _ => ⟨⟨core, hcore, hmem⟩, rfl⟩)
    fun _ hq => ⟨hperm.mem_iff.mp hq, rfl⟩

/-- The change of a PCB by the clock's TTL decrement. -/
theorem age (h : Tracked spaces start pid pm s) (p : PcbPtr) :
    Tracked spaces start pid pm { s with pcbs := s.pcbs.age p } :=
  h.touch (PCB.decrementTtl_pid _) (PCB.decrementTtl_mm _) (PCB.decrementTtl_context _)
    (PCB.decrementTtl_state _)

end Tracked

/-! ## One instruction -/

/-- What the instruction cycle that ends in `e` does to the processes: `p`, with
the words `a`, is one step further, and nobody else notices. -/
structure OwnStep (spaces : List Space) (start : PcbPtr → VirtualProcess) (pid : PcbPtr → Int)
    (pm : PhysicalMemory) (s : Sys) (e : ExecState) (p : PcbPtr) (a : Space) : Prop where
  space : spaces[p]? = some a
  pcb : e.hw.pcb = some p
  ptbr : e.hw.ptbr = some a.base
  layout : Layout e.pm spaces
  pids : ∀ q, e.pcbs.Live q → (e.pcbs.get q).pid = pid q
  count : ∀ q, execCount e.log q = execCount s.log q + if p = q then 1 else 0
  others : ∀ q, q ≠ p → e.pcbs.get q = s.pcbs.get q
  pgb : (e.pcbs.get p).mm.pgb = some a.base
  reads : ∀ q b, q ≠ p → spaces[q]? = some b → ∀ w, w < b.words → b.read e.pm w = b.read pm w
  mine : (progress start e.log p).Agrees a.words (e.view a p)

section
variable {spaces : List Space} {start : PcbPtr → VirtualProcess} {pid : PcbPtr → Int}
  {pm : PhysicalMemory} {s : Sys} {core : Core} {hw : HardwareThread} {p : PcbPtr} {a : Space}

theorem execCount_cycle (hrun : Executes (s.exec hw pm p) p) (q : PcbPtr) :
    execCount (executeInstructionCycle (s.exec hw pm p)).log q =
      execCount s.log q + if p = q then 1 else 0 := by
  rw [executeInstructionCycle_executes hrun, executeInstruction_log]
  show execCount (s.log ++ [_]) q = _
  rw [execCount_append]
  simp [execCount, List.countP_singleton]

theorem cycle_get_ne (hrun : Executes (s.exec hw pm p) p) {q : PcbPtr} (hq : q ≠ p) :
    (executeInstructionCycle (s.exec hw pm p)).pcbs.get q = s.pcbs.get q := by
  have hold : (s.pcbs.age p).get q = s.pcbs.get q := PcbHeap.get_set_ne _ hq _
  rw [executeInstructionCycle_executes hrun, executeInstruction_pcbs]
  split
  · exact (PcbHeap.get_set_ne _ hq _).trans hold
  · exact hold

theorem cycle_mm (hrun : Executes (s.exec hw pm p) p) (hpl : (s.exec hw pm p).pcbs.Live p) :
    ((executeInstructionCycle (s.exec hw pm p)).pcbs.get p).mm =
      ((s.exec hw pm p).pcbs.get p).mm := by
  rw [executeInstructionCycle_executes hrun, executeInstruction_pcbs]
  split
  · have hpl' : (fetched (s.exec hw pm p) p).pcbs.Live p := hpl
    rw [PcbHeap.get_set_self hpl']
    rfl
  · rfl

theorem cycle_live (hrun : Executes (s.exec hw pm p) p) {q : PcbPtr}
    (hq : (executeInstructionCycle (s.exec hw pm p)).pcbs.Live q) : s.pcbs.Live q := by
  rw [executeInstructionCycle_executes hrun, executeInstruction_pcbs] at hq
  split at hq
  · exact (PcbHeap.live_set ..).mp ((PcbHeap.live_set ..).mp hq)
  · exact (PcbHeap.live_set ..).mp hq

theorem cycle_pid (hrun : Executes (s.exec hw pm p) p) {q : PcbPtr} (hq : s.pcbs.Live q) :
    ((executeInstructionCycle (s.exec hw pm p)).pcbs.get q).pid = s.pid q := by
  have hkeeps := PcbHeap.keeps_age (p := p) hq
  rw [executeInstructionCycle_executes hrun,
    (keeps_executeInstruction (s := fetched (s.exec hw pm p) p) hkeeps.live).pid]
  exact hkeeps.pid

/-- A cycle of a process that stays in its words is such a step. -/
theorem Tracked.ownStep (h : Tracked spaces start pid pm s) (hstays : StaysInWords spaces start)
    (hcore : core ∈ s.machine.cores) (hmem : hw ∈ core.hwThreads) (hp : hw.pcb = some p)
    (hst : ((s.pcbs.age p).get p).state ≠ .terminated) (hpl : s.pcbs.Live p) :
    ∃ a, OwnStep spaces start pid pm s (executeInstructionCycle (s.exec hw pm p)) p a := by
  obtain ⟨a, ha, hptbr, hpgb, hview⟩ := (h.age p).threads core hcore hw hmem p hp
  have hview : (progress start s.log p).Agrees a.words ((s.exec hw pm p).view a p) := hview
  have hrun : Executes (s.exec hw pm p) p := ⟨hp, hst, by
    show hw.ptbr ≠ none
    rw [hptbr]
    exact Option.some_ne_none _⟩
  have hpl' : (s.exec hw pm p).pcbs.Live p := (PcbHeap.live_set ..).mpr hpl
  have hwords : (progress start s.log p).halted = false →
      (progress start s.log p).InWords a.words := hstays p a ha _
  have hlive := (executes_iff hp hptbr).mp hrun
  have hin : InPages a (s.exec hw pm p) :=
    (inPages_iff (h.layout.present_of (List.mem_of_getElem? ha)) hptbr).mpr
      (hview.inWords (hwords (hview.halted.symm.trans hlive)))
  exact ⟨a, {
    space := ha
    pcb := (executeInstructionCycle_hw_pcb _).trans hp
    ptbr := (executeInstructionCycle_hw_ptbr _).trans hptbr
    layout := h.layout.cycle (e := s.exec hw pm p) (List.mem_of_getElem? ha) hrun hin hptbr
    pids := fun q hq =>
      (cycle_pid hrun (cycle_live hrun hq)).trans (h.pids q (cycle_live hrun hq))
    count := execCount_cycle hrun
    others := fun q hq => cycle_get_ne hrun hq
    pgb := by
      rw [cycle_mm hrun hpl']
      exact hpgb
    reads := fun q b hq hb w hw' => by
      rw [h.layout.cycle_read (e := s.exec hw pm p) ha hrun hin hptbr hb hw', if_neg hq]
      rfl
    mine := by
      rw [progress, execCount_cycle hrun, if_pos rfl, Function.iterate_succ_apply']
      exact (hview.step hwords).trans
        (h.layout.cycle_refines (e := s.exec hw pm p) ha hrun hin hptbr hpl') }⟩

end

namespace OwnStep

variable {spaces : List Space} {start : PcbPtr → VirtualProcess} {pid : PcbPtr → Int}
  {pm : PhysicalMemory} {s : Sys} {e : ExecState} {p : PcbPtr} {a : Space}

theorem progress_ne (h : OwnStep spaces start pid pm s e p a) {q : PcbPtr} (hq : q ≠ p) :
    progress start e.log q = progress start s.log q := by
  rw [progress, h.count, if_neg (Ne.symm hq), Nat.add_zero, progress]

/-- The others agree with the memory after the step as they did before. -/
theorem agrees (h : OwnStep spaces start pid pm s e p a) {q : PcbPtr} (hq : q ≠ p) {b : Space}
    (hb : spaces[q]? = some b) {v : VirtualProcess} {pc : Word} {regs : Fin 16 → Word}
    {halted : Bool} (hv : v.Agrees b.words ⟨pc, regs, b.read pm, halted⟩) :
    v.Agrees b.words ⟨pc, regs, b.read e.pm, halted⟩ :=
  hv.trans ⟨rfl, rfl, fun w hw => h.reads q b hq hb w hw, rfl⟩

/-- The thread that executed is the only one that holds `p`; the others are as
before. -/
theorem mem_absorb (h : OwnStep spaces start pid pm s e p a) {i j k : Nat} {core : Core}
    {hw : HardwareThread} (hslot : s.machine.slot? i j k = some (core, hw, p))
    (hc : (s.absorb i j k core e).machine.Compact)
    (hnd : (s.absorb i j k core e).machine.running.Nodup) {core' : Core}
    (hcore' : core' ∈ (s.absorb i j k core e).machine.cores) {hw' : HardwareThread}
    (hmem' : hw' ∈ core'.hwThreads) {q : PcbPtr} (hq : hw'.pcb = some q) :
    (q = p ∧ hw' = e.hw) ∨ (q ≠ p ∧ ∃ core ∈ s.machine.cores, hw' ∈ core.hwThreads) := by
  obtain ⟨hcore, hk, hp⟩ := Machine.slot?_eq_some.mp hslot
  have hnew : (s.absorb i j k core e).machine.slot? i j k = some (core.setThread k e.hw, e.hw, p) :=
    Machine.slot?_eq_some.mpr ⟨Machine.core?_setCore_self (core.setThread k e.hw) hcore,
      List.getElem?_set_self (List.getElem?_eq_some_iff.mp hk).1, h.pcb⟩
  by_cases hqp : q = p
  · subst hqp
    obtain ⟨i', j', k', hslot'⟩ := Machine.slot_of_mem hcore' hmem' hq
    exact .inl ⟨rfl, Machine.thread_unique hc hnd hslot' hnew⟩
  · refine .inr ⟨hqp, ?_⟩
    rcases Machine.mem_setCore hcore hcore' with rfl | hcore'
    · rcases List.mem_or_eq_of_mem_set hmem' with hmem' | rfl
      · exact ⟨core, Machine.mem_cores_of_core? hcore, hmem'⟩
      · exact absurd (Option.some.inj (hq.symm.trans h.pcb)) hqp
    · exact ⟨core', hcore', hmem'⟩

/-- The state that absorbs the step is tracked again. -/
theorem tracked (h : OwnStep spaces start pid pm s e p a) (ht : Tracked spaces start pid pm s)
    {i j k : Nat} {core : Core} {hw : HardwareThread}
    (hslot : s.machine.slot? i j k = some (core, hw, p))
    (hc : (s.absorb i j k core e).machine.Compact)
    (hnd : (s.absorb i j k core e).machine.running.Nodup) (hpw : p ∉ s.waiting) :
    Tracked spaces start pid e.pm (s.absorb i j k core e) := by
  refine ⟨rfl, h.layout, h.pids, fun core' hcore' hw' hmem' q hq => ?_, fun q hq => ?_⟩
  · rcases h.mem_absorb hslot hc hnd hcore' hmem' hq with
      ⟨rfl, rfl⟩ | ⟨hqp, core0, hcore0, hmem0⟩
    · exact ⟨a, h.space, h.ptbr, h.pgb, h.mine⟩
    · obtain ⟨b, hb, hptbr, hpgb, hagrees⟩ := ht.threads core0 hcore0 hw' hmem0 q hq
      show ∃ a, _ ∧ _ ∧ (e.pcbs.get q).mm.pgb = _ ∧
        (progress start e.log q).Agrees _ ⟨_, _, _, decide ((e.pcbs.get q).state = _)⟩
      rw [h.others q hqp, h.progress_ne hqp]
      exact ⟨b, hb, hptbr, hpgb, h.agrees hqp hb hagrees⟩
  · have hqp : q ≠ p := fun he => hpw (he ▸ hq)
    obtain ⟨b, hb, hpgb, hagrees⟩ := ht.queued q hq
    show ∃ a, _ ∧ (e.pcbs.get q).mm.pgb = _ ∧ (progress start e.log q).Agrees _
      ⟨(e.pcbs.get q).context.pc, (e.pcbs.get q).context.registers, _, _⟩
    rw [h.others q hqp, h.progress_ne hqp]
    exact ⟨b, hb, hpgb, h.agrees hqp hb hagrees⟩

end OwnStep

namespace Tracked

variable {spaces : List Space} {start : PcbPtr → VirtualProcess} {pid : PcbPtr → Int}
  {pm : PhysicalMemory} {s : Sys}

/-- One slot of a tick. -/
theorem tickThread {pids : List Int} (h : Tracked spaces start pid pm s) (hcons : Conserved pids s)
    (hnd : pids.Nodup) (hc : s.machine.Compact) (hstays : StaysInWords spaces start)
    (i j k : Nat) : ∃ pm', Tracked spaces start pid pm' (tickThread i j k s) := by
  have hmachine := tickThread_machine hc i j k
  rcases tickThread_cases i j k s with
    ⟨_, he⟩ | ⟨core, hw, p, _, _, he⟩ | ⟨core, hw, p, pm0, base, hslot, hpm, hst, hbase, he⟩
  · exact ⟨pm, he.symm ▸ h⟩
  · exact ⟨pm, he.symm ▸ h.age p⟩
  · obtain ⟨hcore, hk, hp⟩ := Machine.slot?_eq_some.mp hslot
    obtain rfl := Option.some.inj (hpm.symm.trans h.memory)
    have hnodup := hcons.nodup hnd
    have hpr : p ∈ s.running := Machine.mem_running_of_slot hc hslot
    obtain ⟨a, hown⟩ := h.ownStep hstays (Machine.mem_cores_of_core? hcore)
      (List.mem_of_getElem? hk) hp hst (hcons.live p (List.mem_append_left _ hpr))
    have hrun : Executes (s.exec hw pm0 p) p := ⟨hp, hst, by
      show hw.ptbr ≠ none
      rw [hbase]
      exact Option.some_ne_none _⟩
    rw [← executeInstructionCycle_executes hrun] at he
    rw [he] at hmachine ⊢
    exact ⟨_, hown.tracked h hslot hmachine.1 (hmachine.2 ▸ hnodup.of_append_left)
      fun hpw => List.disjoint_of_nodup_append hnodup hpr hpw⟩

/-- A completed process leaves; the others do not notice. -/
theorem completeThread (h : Tracked spaces start pid pm s) (hnd : s.places.Nodup)
    (hc : s.machine.Compact) {i j k : Nat} {core : Core} {hw : HardwareThread} {p : PcbPtr}
    (hslot : s.machine.slot? i j k = some (core, hw, p)) :
    Tracked spaces start pid pm (completeThread i j k core p s) := by
  have hpr : p ∈ s.running := Machine.mem_running_of_slot hc hslot
  refine h.keep rfl (fun q => ?_) (fun q hq => ?_) (fun core' hcore' hw' hmem' q hq => ?_)
    fun q hq => ?_
  · simp [LocOS.completeThread, execCount]
  · obtain ⟨hne, hq⟩ := (PcbHeap.live_destroyPcb ..).mp hq
    exact ⟨hq, congrArg PCB.pid (PcbHeap.get_destroyPcb_ne _ hne)⟩
  · obtain ⟨hold, hne⟩ :=
      Machine.mem_setCore_removeThread hc hnd.of_append_left hslot hcore' hmem' hq
    exact ⟨hold, PcbHeap.get_destroyPcb_ne _ hne⟩
  · have hne : q ≠ p := fun he => List.disjoint_of_nodup_append hnd hpr (he ▸ hq)
    exact ⟨hq, PcbHeap.get_destroyPcb_ne _ hne⟩

/-- A process whose quantum expired leaves its thread, with the registers and
the program counter in its PCB, for a queue or for good. -/
theorem expireThread (h : Tracked spaces start pid pm s) (hnd : s.places.Nodup)
    (hc : s.machine.Compact) (hpl : ∀ p ∈ s.running, s.pcbs.Live p) {i j k : Nat} {core : Core}
    {hw : HardwareThread} {p : PcbPtr} (hslot : s.machine.slot? i j k = some (core, hw, p))
    (hst : (s.pcbs.get p).state ≠ .terminated) {sched : Scheduler} (enqueued : Bool)
    (hwait : ∀ q ∈ sched.waiting, q = p ∨ q ∈ s.sched.waiting) :
    Tracked spaces start pid pm { s with
      machine := s.machine.setCore i j (core.removeThread k)
      sched
      pcbs := s.pcbs.set p (expiredPcb s hw p)
      log := s.log ++ [Event.expired p (s.pid p) enqueued] } := by
  obtain ⟨hcore, hk, hp⟩ := Machine.slot?_eq_some.mp hslot
  have hpr : p ∈ s.running := Machine.mem_running_of_slot hc hslot
  have hlog : ∀ q, progress start (s.log ++ [Event.expired p (s.pid p) enqueued]) q =
      progress start s.log q := by
    intro q
    simp [progress, execCount]
  have hself : (s.pcbs.set p (expiredPcb s hw p)).get p = expiredPcb s hw p :=
    PcbHeap.get_set_self (hpl p hpr) _
  have hget : ∀ q, q ≠ p → (s.pcbs.set p (expiredPcb s hw p)).get q = s.pcbs.get q :=
    fun q hq => PcbHeap.get_set_ne _ hq _
  refine ⟨h.memory, h.layout, fun q hq => ?_, fun core' hcore' hw' hmem' q hq => ?_,
    fun q hq => ?_⟩
  · have hq := (PcbHeap.live_set ..).mp hq
    rw [← h.pids q hq]
    exact (PcbHeap.keeps_set (expiredPcb_pid ..) (expiredPcb_priority ..)
      (expiredPcb_mm ..) hq).pid
  · obtain ⟨⟨core0, hcore0, hmem0⟩, hne⟩ :=
      Machine.mem_setCore_removeThread hc hnd.of_append_left hslot hcore' hmem' hq
    rw [hlog]
    show ∃ a, _ ∧ _ ∧ ((s.pcbs.set p _).get q).mm.pgb = _ ∧ _
    rw [hget q hne]
    exact h.threads core0 hcore0 hw' hmem0 q hq
  · rw [hlog]
    rcases hwait q hq with rfl | hq
    · -- the context saved is the one of the thread
      obtain ⟨a, ha, _, hpgb, hagrees⟩ := h.threads core (Machine.mem_cores_of_core? hcore) hw
        (List.mem_of_getElem? hk) q hp
      rw [decide_eq_false hst] at hagrees
      rw [hself, expiredPcb_mm, expiredPcb_context]
      exact ⟨a, ha, hpgb, hagrees⟩
    · have hne : q ≠ p := fun he => List.disjoint_of_nodup_append hnd hpr (he ▸ hq)
      show ∃ a, _ ∧ ((s.pcbs.set p _).get q).mm.pgb = _ ∧ _
      rw [hget q hne]
      exact h.queued q hq

/-- One visit of the scan. -/
theorem scanThread {pids : List Int} (h : Tracked spaces start pid pm s)
    (hcons : Conserved pids s) (hnd : pids.Nodup) (hc : s.machine.Compact) {i j k : Nat}
    {core : Core} {hw : HardwareThread} {p : PcbPtr}
    (hslot : s.machine.slot? i j k = some (core, hw, p)) :
    Tracked spaces start pid pm (scanThread i j k s) := by
  have hpr : p ∈ s.running := Machine.mem_running_of_slot hc hslot
  have hpl : s.pcbs.Live p := hcons.live p (List.mem_append_left _ hpr)
  have hnodup : (s.charge p).places.Nodup := hcons.nodup hnd
  have hcharge : Tracked spaces start pid pm (s.charge p) := by
    refine h.touch ?_ ?_ ?_ ?_ <;> rfl
  rcases scanThread_cases hslot with ⟨_, he⟩ | ⟨hfin, _, he⟩ | ⟨_, _, he⟩
  · rw [he]
    exact hcharge.completeThread hnodup hc hslot
  · rw [he]
    have hlive : ∀ q ∈ (s.charge p).running, (s.charge p).pcbs.Live q := fun q hq =>
      (PcbHeap.live_set ..).mpr (hcons.live q (List.mem_append_left _ hq))
    have hst : ((s.charge p).pcbs.get p).state ≠ .terminated := by
      intro hst
      rw [Sys.charge, PcbHeap.get_set_self hpl] at hst
      simp [PCB.finished, hst] at hfin
    rcases expireThread_cases (s := s.charge p) hcons.queues i j k core hw p with
      ⟨sched, _, _, _, hperm, hexp⟩ | ⟨_, hexp⟩
    · rw [hexp]
      exact hcharge.expireThread hnodup hc hlive hslot hst true
        fun q hq => List.mem_cons.mp (hperm.mem_iff.mp hq)
    · rw [hexp]
      exact hcharge.expireThread hnodup hc hlive hslot hst false fun q hq => .inr hq
  · rw [he]
    exact hcharge

/-- One dispatch. -/
theorem dispatched {pids : List Int} (h : Tracked spaces start pid pm s) (hcons : Conserved pids s)
    (hnd : pids.Nodup) (hc : s.machine.Compact) {p : PcbPtr} {sched : Scheduler} {i j : Nat}
    {core : Core} (hcore : s.machine.core? i j = some core)
    (hperm : s.sched.waiting ~ p :: sched.waiting) :
    Tracked spaces start pid pm (s.dispatched sched p i j core) := by
  have hpw : p ∈ s.waiting := hperm.mem_iff.mpr (List.mem_cons_self ..)
  have hpl := hcons.live p (List.mem_append_right _ hpw)
  have hnodup := hcons.nodup hnd
  have hwait := List.nodup_cons.mp (hperm.nodup_iff.mp hnodup.of_append_right)
  have hlog : ∀ q, progress start (s.log ++ [Event.assigned p (s.pid p)]) q =
      progress start s.log q := by
    intro q
    simp [progress, execCount]
  have hself : (s.started sched p).get p = (s.pcbs.get p).start sched s.clkCounter :=
    PcbHeap.get_set_self hpl _
  have hget : ∀ q, q ≠ p → (s.started sched p).get q = s.pcbs.get q := fun q hq =>
    PcbHeap.get_set_ne _ hq _
  refine ⟨h.memory, h.layout, fun q hq => ?_, fun core' hcore' hw hmem q hq => ?_,
    fun q hq => ?_⟩
  · have hq := (PcbHeap.live_set ..).mp hq
    rw [← h.pids q hq]
    exact (PcbHeap.keeps_set (PCB.start_pid ..) (PCB.start_priority ..) (PCB.start_mm ..) hq).pid
  -- an old thread, or the one just loaded from the saved context
  · have hcases := Machine.mem_setCore_assign hcore hcore' hmem
    show ∃ a, _ ∧ _ ∧ ((s.started sched p).get q).mm.pgb = _ ∧
      (progress start (s.log ++ _) q).Agrees _
        ⟨_, _, _, decide (((s.started sched p).get q).state = _)⟩
    rw [hlog]
    rcases hcases with ⟨core0, hcore0, hmem0⟩ | ⟨hw', rfl⟩
    · have hne : q ≠ p := by
        rintro rfl
        obtain ⟨i', j', k', hslot⟩ := Machine.slot_of_mem hcore0 hmem0 hq
        exact List.disjoint_of_nodup_append hnodup (Machine.mem_running_of_slot hc hslot) hpw
      rw [hget q hne]
      exact h.threads core0 hcore0 hw hmem0 q hq
    · obtain rfl : p = q := Option.some.inj hq
      obtain ⟨a, ha, hpgb, hagrees⟩ := h.queued p hpw
      rw [HardwareThread.load_pc, hself, PCB.start_state, PCB.start_context, PCB.start_mm]
      refine ⟨a, ha, ?_, hpgb, ?_⟩
      · show ((s.pcbs.get p).start sched s.clkCounter).mm.pgb = _
        rw [PCB.start_mm]
        exact hpgb
      · show (progress start s.log p).Agrees a.words
          ⟨_, ((s.pcbs.get p).start sched s.clkCounter).context.registers, _, _⟩
        rw [PCB.start_context]
        exact hagrees
  · have hq : q ∈ sched.waiting := hq
    have hne : q ≠ p := fun he => hwait.1 (he ▸ hq)
    show ∃ a, _ ∧ ((s.started sched p).get q).mm.pgb = _ ∧
      (progress start (s.log ++ _) q).Agrees _
        ⟨((s.started sched p).get q).context.pc, ((s.started sched p).get q).context.registers,
          _, _⟩
    rw [hlog, hget q hne]
    exact h.queued q (hperm.mem_iff.mpr (List.mem_cons_of_mem p hq))

end Tracked

/-! ## Whole runs -/

/-- What a Round Robin run keeps of its processes and of their memory. -/
structure TrackedRun (spaces : List Space) (start : PcbPtr → VirtualProcess)
    (pid : PcbPtr → Int) (pids : List Int) (s : Sys) : Prop where
  roundRobin : RoundRobin pids s
  compact : s.machine.Compact
  tracked : ∃ pm, Tracked spaces start pid pm s

namespace TrackedRun

variable {spaces : List Space} {start : PcbPtr → VirtualProcess} {pid : PcbPtr → Int}
  {pids : List Int} {s : Sys}

theorem tick (h : TrackedRun spaces start pid pids s) (hnd : pids.Nodup)
    (hstays : StaysInWords spaces start) : TrackedRun spaces start pid pids (clockTick s) := by
  have hnext := h.roundRobin.next hnd h.compact .tick
  have hinv := clockTick_inv (s := s) (fun t => (Conserved pids t ∧ t.machine.Compact) ∧
    ∃ pm, Tracked spaces start pid pm t) ⟨⟨h.roundRobin.conserved.tickEvent, h.compact⟩, ?_⟩ ?_
  · exact ⟨hnext.1, hnext.2, hinv.2⟩
  · obtain ⟨pm, ht⟩ := h.tracked
    exact ⟨pm, ht.tickEvent⟩
  · rintro i j k t ⟨⟨hcons, hc⟩, pm, ht⟩
    exact ⟨⟨hcons.tickThread hc i j k, (tickThread_machine hc i j k).1⟩,
      ht.tickThread hcons hnd hc hstays i j k⟩

theorem pass (h : TrackedRun spaces start pid pids s) (hnd : pids.Nodup) :
    TrackedRun spaces start pid pids (schedulerPass s) := by
  obtain ⟨pm, htracked⟩ := h.tracked
  have hscan := scanMachine_inv (fun _ t => RoundRobin pids t ∧ Tracked spaces start pid pm t)
    (fun _ _ _ _ _ _ _ _ hct hslot ht =>
      ⟨ht.1.scanThread hnd hct hslot, ht.2.scanThread ht.1.conserved hnd hct hslot⟩)
    h.compact ⟨h.roundRobin, htracked⟩
  have hdisp := dispatchReady_inv
    (P := fun t => (RoundRobin pids t ∧ Tracked spaces start pid pm t) ∧ t.machine.Compact)
    (fun t ht => ht.1.1.conserved.queues) (fun t ht => by rw [ht.1.1.policy]; decide)
    (fun t p sched i j core ht hcore hspace hwf hsame hperm _ =>
      ⟨⟨ht.1.1.dispatched ht.2 hcore hspace hwf hsame hperm,
        ht.1.2.dispatched ht.1.1.conserved hnd ht.2 hcore hperm⟩,
        ht.2.setCore hcore ((ht.2.core hcore).assign hspace p _)⟩)
    (scanMachine s).sched.waitingCount hscan
  rw [schedulerPass_noTransfer (by rw [hscan.1.1.policy]; decide)]
  exact ⟨hdisp.1.1, hdisp.2, pm, hdisp.1.2⟩

theorem next (h : TrackedRun spaces start pid pids s) (hnd : pids.Nodup)
    (hstays : StaysInWords spaces start) (a : Action) :
    TrackedRun spaces start pid pids (s.next a) := by
  cases a with
  | tick => exact h.tick hnd hstays
  | pass => exact h.pass hnd

end TrackedRun

/-- The spaces of the enqueued processes. -/
def enqueuedSpaces (cfg : Config) (programs : List Program) : List Space :=
  (loadedSpaces programs).take cfg.readyQueueSize

section
variable {cfg : Config} {programs : List Program} {p : Nat}

/-- An enqueued process is fresh, in its own space. -/
theorem fresh_loaded {pcb : PCB} (h : (loadedPcbs cfg programs)[p]? = some pcb) :
    ∃ a, (loadedSpaces programs)[p]? = some a ∧ (enqueuedSpaces cfg programs)[p]? = some a ∧
      Fresh (loadedPcbs cfg programs) p a := by
  obtain ⟨program, pid, base, hget, rfl, hspace⟩ := loadedPcbs_getElem? h
  have hlt := (List.getElem?_eq_some_iff.mp h).1
  refine ⟨_, hspace, ?_, fresh_of_loaded hget h⟩
  rw [enqueuedSpaces, List.getElem?_take, if_pos, hspace]
  rw [loadedPcbs, List.length_map, List.length_take] at hlt
  omega

theorem loadedPcbs_length :
    (loadedPcbs cfg programs).length = (enqueuedSpaces cfg programs).length := by
  simp [loadedPcbs, enqueuedSpaces, loadedSpaces]

/-- The enqueued processes before their first instruction. -/
def freshProcesses (cfg : Config) (programs : List Program) (p : PcbPtr) : VirtualProcess :=
  freshProcess (loaded programs).2.physicalMemory
    (((enqueuedSpaces cfg programs)[p]?).getD ⟨0, 0⟩)

theorem enqueued_layout :
    Layout (loaded programs).2.physicalMemory (enqueuedSpaces cfg programs) :=
  (loaded_layout programs).sublist (List.take_sublist ..)

end

/-- The system just started. -/
theorem Tracked.boot {cfg : Config} {programs : List Program} {s : Sys}
    (hidle : cfg.machine.Idle)
    (hs : LocOS.boot (cfg.load programs) (loadedPcbs cfg programs) = some s) :
    Tracked (enqueuedSpaces cfg programs) (freshProcesses cfg programs)
      (fun p => ((bootHeap (loadedPcbs cfg programs)).get p).pid)
      (loaded programs).2.physicalMemory s := by
  have hb := boot_spec hs
  refine ⟨hb.pm, enqueued_layout, fun p _ => ?_, fun core hcore hw hmem p hp => ?_,
    fun p hp => ?_⟩
  · rw [Sys.pid, hb.heap]
  · obtain ⟨k, hk⟩ := List.getElem?_of_mem hmem
    rw [hb.machine] at hcore
    rw [(hidle core hcore).slot k hw hk] at hp
    simp at hp
  · rw [hb.waiting, List.mem_range] at hp
    obtain ⟨a, _, ha, hfresh⟩ := fresh_loaded (List.getElem?_eq_getElem hp)
    rw [hb.heap]
    refine ⟨a, ha, hfresh.pgb, ?_⟩
    rw [progress, hb.log, hfresh.pc, hfresh.registers]
    show (freshProcesses cfg programs p).Agrees _ _
    rw [freshProcesses, ha]
    exact .refl _ _

theorem TrackedRun.boot {cfg : Config} {programs : List Program} {s : Sys}
    (hpol : cfg.policy = .roundRobin) (hidle : cfg.machine.Idle)
    (hs : LocOS.boot (cfg.load programs) (loadedPcbs cfg programs) = some s) :
    TrackedRun (enqueuedSpaces cfg programs) (freshProcesses cfg programs)
      (fun p => ((bootHeap (loadedPcbs cfg programs)).get p).pid)
      ((loadedPcbs cfg programs).map PCB.pid) s := by
  have hb := boot_spec hs
  exact ⟨.boot hb hpol hidle, hb.machine ▸ hidle.compact, _, .boot hidle hs⟩

/-- Process `p` of space `a` is in state `s` as it is alone in state `e`. -/
structure Transparent (a : Space) (p : PcbPtr) (s : Sys) (e : ExecState) : Prop where
  somewhere : (∃ core ∈ s.machine.cores, ∃ hw ∈ core.hwThreads, hw.pcb = some p) ∨
    p ∈ s.sched.readyQueue.toList
  running : ∀ core ∈ s.machine.cores, ∀ hw ∈ core.hwThreads, hw.pcb = some p →
    hw.pc = e.hw.pc ∧ hw.registers = e.hw.registers
  waiting : p ∈ s.sched.readyQueue.toList →
    (s.pcbs.get p).context.pc = e.hw.pc ∧ (s.pcbs.get p).context.registers = e.hw.registers
  pages : ∃ pm, s.clockPmRef = some pm ∧ ∀ w, w < a.words → a.read pm w = a.read e.pm w

theorem Tracked.space_of_place {spaces : List Space} {start : PcbPtr → VirtualProcess}
    {pid : PcbPtr → Int} {pm : PhysicalMemory} {s : Sys} (h : Tracked spaces start pid pm s)
    {p : PcbPtr} (hp : p ∈ s.places) : p < spaces.length := by
  have hspace : ∃ a, spaces[p]? = some a := by
    rcases List.mem_append.mp hp with hp | hp
    · obtain ⟨core, hcore, hp⟩ := List.mem_flatMap.mp hp
      obtain ⟨hw, hmem, hpcb⟩ := Core.mem_running hp
      obtain ⟨a, ha, _⟩ := h.threads core hcore hw hmem p hpcb
      exact ⟨a, ha⟩
    · obtain ⟨a, ha, _⟩ := h.queued p hp
      exact ⟨a, ha⟩
  obtain ⟨a, ha⟩ := hspace
  exact (List.getElem?_eq_some_iff.mp ha).1

/-- A process that has not completed is on a thread or in a queue. -/
theorem Tracked.somewhere {spaces : List Space} {start : PcbPtr → VirtualProcess}
    {pm : PhysicalMemory} {pcbs : List PCB} {s : Sys}
    (h : Tracked spaces start (fun p => ((bootHeap pcbs).get p).pid) pm s)
    (hcons : Conserved (pcbs.map PCB.pid) s) (hdropped : droppedPids s.log = [])
    (hlen : spaces.length = pcbs.length) (hnd : (pcbs.map PCB.pid).Nodup) {p : PcbPtr}
    {pcb : PCB} (hp : pcbs[p]? = some pcb) :
    p ∈ s.places ↔ pcb.pid ∉ completedPids s.log := by
  have hmem : pcb.pid ∈ pcbs.map PCB.pid := List.mem_map_of_mem (List.mem_of_getElem? hp)
  have hpid : ∀ q ∈ s.places, s.pid q = pcb.pid ↔ q = p := by
    intro q hq
    have hqlt : q < pcbs.length := hlen ▸ h.space_of_place hq
    have hqget := List.getElem?_eq_getElem hqlt
    rw [h.pids q (hcons.live q hq), get_bootHeap hqget]
    constructor
    · intro he
      -- PIDs are distinct
      have hsame : (pcbs.map PCB.pid)[q]? = (pcbs.map PCB.pid)[p]? := by
        rw [List.getElem?_map, List.getElem?_map, hqget, hp]
        simp [he]
      exact (List.getElem?_inj (by simpa using hqlt) hnd).mp hsame
    · rintro rfl
      rw [hp] at hqget
      exact congrArg PCB.pid (Option.some.inj hqget).symm
  have hacc := hcons.account
  rw [endedPids, hdropped, List.append_nil] at hacc
  constructor
  · intro hplace hdone
    have hdisjoint := List.disjoint_of_nodup_append (hacc.nodup_iff.mpr hnd)
    exact hdisjoint (List.mem_map.mpr ⟨p, hplace, (hpid p hplace).mpr rfl⟩) hdone
  · intro hlive
    rw [← hacc.mem_iff] at hmem
    obtain ⟨q, hq, he⟩ := List.mem_map.mp ((List.mem_append.mp hmem).resolve_right hlive)
    exact (hpid q hq).mp he ▸ hq

/-- Alone, an enqueued process that stays in its pages takes the steps of its
virtual process. -/
theorem enqueued_alone {cfg : Config} {programs : List Program} {q : PcbPtr}
    (hstay : ∀ k, StaysInPages (loadedSpaces programs) q
      (alone (loaded programs).2.physicalMemory (loadedPcbs cfg programs) q k))
    {b : Space} (hb : (enqueuedSpaces cfg programs)[q]? = some b) (k : Nat) :
    Alone (enqueuedSpaces cfg programs) q b
      (VirtualProcess.step^[k] (freshProcesses cfg programs q))
      (alone (loaded programs).2.physicalMemory (loadedPcbs cfg programs) q k) := by
  have hq : q < (loadedPcbs cfg programs).length := by
    rw [loadedPcbs_length]
    exact (List.getElem?_eq_some_iff.mp hb).1
  obtain ⟨b', hb', hbe, hfresh⟩ := fresh_loaded (List.getElem?_eq_getElem hq)
  obtain rfl := Option.some.inj (hb.symm.trans hbe)
  rw [freshProcesses, hb]
  refine hfresh.follows_of_stays enqueued_layout hb (fun k c hc hrun => ?_) k
  obtain rfl := Option.some.inj (hb.symm.trans hc)
  exact hstay k b hb' hrun

/-- Context switches are transparent: after any interleaving of ticks and
scheduler passes under Round Robin, on any machine, a process that has not
completed is where as many instruction cycles alone would have brought it. -/
theorem contextSwitch_transparent {cfg : Config} {programs : List Program}
    (hpol : cfg.policy = .roundRobin) (hidle : cfg.machine.Idle)
    (hstay : ∀ p k, StaysInPages (loadedSpaces programs) p
      (alone (loaded programs).2.physicalMemory (loadedPcbs cfg programs) p k))
    {s : Sys} (hs : (programRuns cfg programs).Reachable s) {p : PcbPtr} {pcb : PCB} {a : Space}
    (hp : (loadedPcbs cfg programs)[p]? = some pcb) (ha : (loadedSpaces programs)[p]? = some a)
    (hlive : pcb.pid ∉ completedPids s.log) :
    Transparent a p s (alone (loaded programs).2.physicalMemory (loadedPcbs cfg programs) p
      (execCount s.log p)) := by
  have hnd := loadedPcbs_nodup cfg programs
  have hrun : TrackedRun (enqueuedSpaces cfg programs) (freshProcesses cfg programs)
      (fun p => ((bootHeap (loadedPcbs cfg programs)).get p).pid)
      ((loadedPcbs cfg programs).map PCB.pid) s := by
    refine hs.invariant (TrackedRun _ _ _ _) (fun s hs => .boot hpol hidle hs) ?_
    rintro s action t h rfl
    exact h.next hnd (fun q b hb k => (enqueued_alone (hstay q) hb k).inWords) action
  obtain ⟨pm, ht⟩ := hrun.tracked
  have hplace := (ht.somewhere hrun.roundRobin.conserved hrun.roundRobin.dropped
    loadedPcbs_length.symm hnd hp).mpr hlive
  obtain ⟨a', ha', hspace, _⟩ := fresh_loaded hp
  obtain rfl := Option.some.inj (ha.symm.trans ha')
  have hthe := (enqueued_alone (hstay p) hspace (execCount s.log p)).agrees
  have hthread : ∀ core ∈ s.machine.cores, ∀ hw ∈ core.hwThreads, hw.pcb = some p →
      ((alone (loaded programs).2.physicalMemory (loadedPcbs cfg programs) p
        (execCount s.log p)).view a p).Agrees a.words
        ⟨hw.pc, hw.registers, a.read pm, decide ((s.pcbs.get p).state = .terminated)⟩ := by
    intro core hcore hw hmem hpcb
    obtain ⟨b, hb, _, _, hagrees⟩ := ht.threads core hcore hw hmem p hpcb
    obtain rfl := Option.some.inj (hspace.symm.trans hb)
    exact hthe.symm.trans hagrees
  have hqueued : p ∈ s.waiting →
      ((alone (loaded programs).2.physicalMemory (loadedPcbs cfg programs) p
        (execCount s.log p)).view a p).Agrees a.words
        ⟨(s.pcbs.get p).context.pc, (s.pcbs.get p).context.registers, a.read pm, false⟩ := by
    intro hw
    obtain ⟨b, hb, _, hagrees⟩ := ht.queued p hw
    obtain rfl := Option.some.inj (hspace.symm.trans hb)
    exact hthe.symm.trans hagrees
  rw [hrun.roundRobin.waiting_eq] at hqueued
  rw [Sys.places, hrun.roundRobin.waiting_eq] at hplace
  have hsomewhere : (∃ core ∈ s.machine.cores, ∃ hw ∈ core.hwThreads, hw.pcb = some p) ∨
      p ∈ s.sched.readyQueue.toList := by
    refine (List.mem_append.mp hplace).imp_left fun hrunning => ?_
    obtain ⟨core, hcore, hmem⟩ := List.mem_flatMap.mp hrunning
    exact ⟨core, hcore, Core.mem_running hmem⟩
  refine ⟨hsomewhere, fun core hcore hw hmem hpcb => ?_, fun hw => ?_, pm, ht.memory, ?_⟩
  · exact ⟨(hthread core hcore hw hmem hpcb).pc, (hthread core hcore hw hmem hpcb).registers⟩
  · exact ⟨(hqueued hw).pc, (hqueued hw).registers⟩
  · rcases hsomewhere with ⟨core, hcore, hw, hmem, hpcb⟩ | hw
    · exact (hthread core hcore hw hmem hpcb).memory
    · exact (hqueued hw).memory

/-- Loads its second instruction into register 1, and exits. -/
def loadAndExit : Program where
  textAddress := 0
  dataAddress := 0
  codeSize := 2
  dataSize := 0
  priority := 0
  ttl := 10
  codeSegment := [0x01000004#32, 0xF0000000#32]
  dataSegment := []
  codeLength := rfl
  dataLength := Program.noData

/-- Each of two such processes alone. -/
def loadAlone (p : PcbPtr) (k : Nat) : ExecState :=
  alone (loaded [loadAndExit, loadAndExit]).2.physicalMemory
    (loadedPcbs (oneCore 1 .roundRobin 1) [loadAndExit, loadAndExit]) p k

theorem loadAlone_stays (p k : Nat) :
    StaysInPages (loadedSpaces [loadAndExit, loadAndExit]) p (loadAlone p k) := by
  have hspaces : loadedSpaces [loadAndExit, loadAndExit] = [⟨0, 1⟩, ⟨1, 1⟩] := by
    decide +kernel
  have hinside : ∀ p < 2, (∀ k < 2, (Space.mk p 1).Covers (loadAlone p k).hw.pc ∧
        (extractOpcode (fetch (loadAlone p k)) = opExit ∨
          (Space.mk p 1).Covers (extractAddress (fetch (loadAlone p k))))) ∧
      ((loadAlone p 2).pcbs.get p).state = .terminated := by
    decide +kernel
  intro a ha
  rw [hspaces] at ha
  have hp : p < 2 := (List.getElem?_eq_some_iff.mp ha).1
  obtain ⟨hfirst, hstop⟩ := hinside p hp
  refine staysInPages_of_stops (n := 2) (fun k hk b hb _ => ?_) (fun hrun => hrun.live hstop)
    k a ha
  have hb : b = ⟨p, 1⟩ := by
    rcases Nat.lt_or_ge p 1 with h0 | h1
    · obtain rfl : p = 0 := by omega
      simpa using hb.symm
    · obtain rfl : p = 1 := by omega
      simpa using hb.symm
  subst hb
  refine ⟨(hfirst k hk).1, fun hop => (hfirst k hk).2.resolve_left fun hexit => ?_⟩
  rw [← loadAlone, hexit] at hop
  exact absurd hop (by decide)

/-- The two share one hardware thread: the first has executed its load, and
waits while the second runs. -/
theorem contextSwitch_transparent_two : ∃ s,
    (programRuns (oneCore 1 .roundRobin 1) [loadAndExit, loadAndExit]).Reachable s ∧
      execCount s.log 0 = 1 ∧ 0 ∈ s.sched.readyQueue.toList ∧
      Transparent ⟨0, 1⟩ 0 s (loadAlone 0 1) := by
  have hrun : (boot ((oneCore 1 .roundRobin 1).load [loadAndExit, loadAndExit])
      (loadedPcbs (oneCore 1 .roundRobin 1) [loadAndExit, loadAndExit])).any (fun s =>
        decide (execCount (s.next .pass |>.next .tick |>.next .pass).log 0 = 1 ∧
          0 ∈ (s.next .pass |>.next .tick |>.next .pass).sched.readyQueue.toList ∧
          completedPids (s.next .pass |>.next .tick |>.next .pass).log = [])) = true := by
    decide +kernel
  have hloaded : (loadedPcbs (oneCore 1 .roundRobin 1) [loadAndExit, loadAndExit])[0]?.isSome ∧
      (loadedSpaces [loadAndExit, loadAndExit])[0]? = some ⟨0, 1⟩ := by
    decide +kernel
  obtain ⟨s, hs, hcheck⟩ := (Option.any_eq_true ..).mp hrun
  obtain ⟨hcount, hready, hnone⟩ := of_decide_eq_true hcheck
  obtain ⟨pcb, hpcb⟩ := Option.isSome_iff_exists.mp hloaded.1
  have hreach := reachable_next (reachable_next (reachable_next (.init hs) .pass) .tick) .pass
  refine ⟨_, hreach, hcount, hready, ?_⟩
  have h := contextSwitch_transparent rfl (Machine.createMachine_idle 1 1 1) loadAlone_stays hreach
    hpcb hloaded.2 (by rw [hnone]; exact List.not_mem_nil)
  rw [hcount] at h
  exact h

end LocOS
