import LocOS.Estimate
import LocOS.Rounds
import LocOS.Transparency

/-!
# Completion

A generated program on the whole machine, with one scheduler pass after each
tick. Among processes that stay in their pages it executes its code words in
order, a tick each, and what ends it is its exit, as long as the loader gave it
a tick for every word.
-/

namespace LocOS

open scoped List

/-! ## What a process has executed -/

/-- The instructions process `p` has executed, in order. -/
def executed (log : List Event) (p : PcbPtr) : List Word :=
  log.filterMap fun
    | .exec q _ instruction => if q = p then some instruction else none
    | _ => none

@[simp] theorem executed_append (log log' : List Event) (p : PcbPtr) :
    executed (log ++ log') p = executed log p ++ executed log' p :=
  List.filterMap_append

theorem length_executed (log : List Event) (p : PcbPtr) :
    (executed log p).length = execCount log p := by
  induction log with
  | nil => rfl
  | cons event log ih =>
      have hsplit : event :: log = [event] ++ log := rfl
      rw [hsplit, executed_append, execCount_append, List.length_append, ih]
      congr 1
      cases event with
      | exec q pid instruction =>
          by_cases hq : q = p
          · simp [executed, execCount, hq]
          · simp [executed, execCount, hq]
      | _ => rfl

section
variable {s : Sys} {hw : HardwareThread} {pm : PhysicalMemory} {p : PcbPtr}

theorem executed_cycle (hrun : Executes (s.exec hw pm p) p) (q : PcbPtr) :
    executed (executeInstructionCycle (s.exec hw pm p)).log q =
      executed s.log q ++ if p = q then [fetch (s.exec hw pm p)] else [] := by
  rw [executeInstructionCycle_executes hrun, executeInstruction_log]
  show executed (s.log ++ [_]) q = _
  rw [executed_append]
  by_cases hq : p = q
  · simp [executed, hq]
  · simp [executed, hq]

/-- A process that goes on after its instruction has used one tick. -/
theorem cycle_ttl (hrun : Executes (s.exec hw pm p) p) (hlive : s.pcbs.Live p)
    (hgoes : ((executeInstructionCycle (s.exec hw pm p)).pcbs.get p).state ≠ .terminated) :
    ((executeInstructionCycle (s.exec hw pm p)).pcbs.get p).ttl.toNat = s.left p - 1 := by
  rw [executeInstructionCycle_executes hrun, executeInstruction_pcbs] at hgoes ⊢
  split at hgoes
  · have hl : (fetched (s.exec hw pm p) p).pcbs.Live p := (PcbHeap.live_set ..).mpr hlive
    rw [PcbHeap.get_set_self hl] at hgoes
    exact absurd rfl hgoes
  · rename_i hno
    rw [if_neg hno]
    show (PcbHeap.get (s.pcbs.age p) p).ttl.toNat = _
    rw [PcbHeap.age, PcbHeap.get_set_self hlive, Lifetime.decrementTtl_toNat]
    rfl

end

/-! ## A process on its way -/

/-- What process `p` of the program `g` has executed are the first words of
the code. Until these are all of them it is somewhere, with a tick less of
`ttl` for each. -/
structure Underway (g : GeneratedProgram) (p : PcbPtr) (ttl : Nat) (s : Sys) : Prop where
  executed : executed s.log p = g.code.take (execCount s.log p)
  unfinished : execCount s.log p < g.codeSize →
    p ∈ s.places ∧ s.left p + execCount s.log p = ttl

/-- Process `p` starts as the program `g` with a tick for each of its words,
and all processes stay in their own. -/
structure Prepared (g : GeneratedProgram) (spaces : List Space) (start : PcbPtr → VirtualProcess)
    (p : PcbPtr) (a : Space) (ttl : Nat) : Prop where
  stays : StaysInWords spaces start
  space : spaces[p]? = some a
  starts : InBlock g 0 0 (start p)
  fits : g.size ≤ a.words
  ticks : g.codeSize ≤ ttl

section
variable {g : GeneratedProgram} {spaces : List Space} {start : PcbPtr → VirtualProcess}
  {pid : PcbPtr → Int} {pids : List Int} {p : PcbPtr} {a : Space} {ttl : Nat}
  {pm : PhysicalMemory} {s : Sys}

namespace Underway

/-- Behind its last word it has executed its code. -/
theorem executed_code (h : Underway g p ttl s) (hdone : g.codeSize ≤ execCount s.log p) :
    LocOS.executed s.log p = g.code := by
  rw [h.executed]
  exact List.take_of_length_le (g.length_code.trans_le hdone)

/-- A step in which the process executes nothing, spends nothing and does not
leave. -/
theorem keep (h : Underway g p ttl s) {s' : Sys}
    (hlog : LocOS.executed s'.log p = LocOS.executed s.log p)
    (hleft : execCount s.log p < g.codeSize → p ∈ s.places →
      p ∈ s'.places ∧ s'.left p = s.left p) : Underway g p ttl s' := by
  have hcount : execCount s'.log p = execCount s.log p := by
    rw [← length_executed, hlog, length_executed]
  refine ⟨by rw [hlog, hcount, h.executed], fun hlt => ?_⟩
  rw [hcount] at hlt ⊢
  obtain ⟨hplace, htime⟩ := h.unfinished hlt
  obtain ⟨hplace', hsame⟩ := hleft hlt hplace
  exact ⟨hplace', by rw [hsame, htime]⟩

end Underway

namespace Prepared

/-- Alone, the process has halted behind its last word. -/
theorem halted (h : Prepared g spaces start p a ttl) (log : List Event) :
    (progress start log p).halted = decide (g.codeSize ≤ execCount log p) :=
  (h.starts.runsToExit h.fits).halted _

/-- Its PCB says so while it is on a thread. -/
theorem terminated_iff (h : Prepared g spaces start p a ttl)
    (ht : Tracked spaces start pid pm s) (hp : p ∈ s.running) :
    (s.pcbs.get p).state = .terminated ↔ g.codeSize ≤ execCount s.log p := by
  obtain ⟨core, hcore, hp⟩ := List.mem_flatMap.mp hp
  obtain ⟨hw, hmem, hpcb⟩ := Core.mem_running hp
  obtain ⟨_, _, _, _, hagrees⟩ := ht.threads core hcore hw hmem p hpcb
  exact decide_eq_decide.mp (hagrees.halted.trans (h.halted s.log))

/-- No process waits that is done. -/
theorem waiting_unfinished (h : Prepared g spaces start p a ttl)
    (ht : Tracked spaces start pid pm s) (hp : p ∈ s.waiting) :
    execCount s.log p < g.codeSize := by
  obtain ⟨_, _, _, hagrees⟩ := ht.queued p hp
  have hlive : false = (progress start s.log p).halted := hagrees.halted
  rw [h.halted] at hlive
  exact Nat.not_le.mp (of_decide_eq_false hlive.symm)

/-- The thread fetches the next word of the code. -/
theorem fetch_code (h : Prepared g spaces start p a ttl) (ht : Tracked spaces start pid pm s)
    {core : Core} {hw : HardwareThread} (hcore : core ∈ s.machine.cores)
    (hmem : hw ∈ core.hwThreads) (hp : hw.pcb = some p)
    (hlt : execCount s.log p < g.codeSize) :
    g.code[execCount s.log p]? = some (fetch (s.exec hw pm p)) := by
  obtain ⟨a', ha, hptbr, _, hview⟩ := (ht.age p).threads core hcore hw hmem p hp
  obtain rfl := Option.some.inj (h.space.symm.trans ha)
  have hview : (progress start s.log p).Agrees a.words ((s.exec hw pm p).view a p) := hview
  have hpresent : a.Present (s.exec hw pm p).pm := ht.layout.present_of (List.mem_of_getElem? ha)
  have hin : (progress start s.log p).InWords a.words := by
    refine h.stays p a ha _ ?_
    exact (h.halted s.log).trans (decide_eq_false (Nat.not_le.mpr hlt))
  have hpages := (inPages_iff hpresent hptbr).mpr (hview.inWords hin)
  rw [h.starts.fetches_iterate hlt, fetch_eq (p := p) hpresent hptbr hpages.pc,
    hview.instruction hin.pc]
  rfl

end Prepared

/-! ## Steps of the system -/

namespace Underway

/-- A visit of the clock at which process `q` rests: it is not the process on
its way, since only a terminated process rests. -/
theorem age (h : Underway g p ttl s) (hprep : Prepared g spaces start p a ttl)
    (ht : Tracked spaces start pid pm s) {core : Core} {hw : HardwareThread} {q : PcbPtr}
    (hcore : core ∈ s.machine.cores) (hmem : hw ∈ core.hwThreads) (hq : hw.pcb = some q)
    (hqr : q ∈ s.running)
    (hrests : s.clockPmRef = none ∨ ((s.pcbs.age q).get q).state = .terminated ∨
      hw.ptbr = none) : Underway g p ttl { s with pcbs := s.pcbs.age q } := by
  refine h.keep rfl fun hlt hplace => ⟨hplace, ?_⟩
  by_cases hpq : p = q
  · subst hpq
    obtain ⟨_, _, hptbr, _, _⟩ := ht.threads core hcore hw hmem p hq
    have hterm := (hprep.terminated_iff (ht.age p) hqr).not.mpr (Nat.not_le.mpr hlt)
    rcases hrests with hnone | hdone | hnone
    · rw [ht.memory] at hnone
      cases hnone
    · exact absurd hdone hterm
    · rw [hptbr] at hnone
      cases hnone
  · show (PcbHeap.get (s.pcbs.age q) p).ttl.toNat = _
    rw [PcbHeap.age, PcbHeap.get_set_ne _ hpq]
    rfl

/-- A cycle of process `q` is the next word of the code, for a tick, or nothing
of the process on its way. -/
theorem absorb (h : Underway g p ttl s) (hprep : Prepared g spaces start p a ttl)
    (ht : Tracked spaces start pid pm s) {i j k : Nat} {core : Core} {hw : HardwareThread}
    {q : PcbPtr} (hcore : core ∈ s.machine.cores) (hmem : hw ∈ core.hwThreads)
    (hrun : Executes (s.exec hw pm q) q) (hqr : q ∈ s.running) (hlive : s.pcbs.Live q)
    (hplaces : (s.absorb i j k core (executeInstructionCycle (s.exec hw pm q))).places =
      s.places) :
    Underway g p ttl (s.absorb i j k core (executeInstructionCycle (s.exec hw pm q))) := by
  obtain ⟨b, hown⟩ := ht.ownStep hprep.stays hcore hmem hrun.pcb hrun.live hlive
  have hlog := executed_cycle hrun p
  by_cases hpq : p = q
  · subst hpq
    have hlt : execCount s.log p < g.codeSize := by
      refine Nat.not_le.mp fun hle => hrun.live ?_
      exact (hprep.terminated_iff (ht.age p) hqr).mpr hle
    obtain ⟨hplace, htime⟩ := h.unfinished hlt
    have hticks := hprep.ticks
    have hcount := hown.count p
    rw [if_pos rfl] at hlog hcount
    constructor
    · show LocOS.executed (executeInstructionCycle _).log p =
        g.code.take (execCount (executeInstructionCycle _).log p)
      rw [hlog, hcount, h.executed, List.take_add_one,
        hprep.fetch_code ht hcore hmem hrun.pcb hlt]
      rfl
    · intro hlt'
      have hgoes : ((executeInstructionCycle (s.exec hw pm p)).pcbs.get p).state ≠
          .terminated := by
        have hhalted := hown.mine.halted.trans (hprep.halted _)
        exact of_decide_eq_false (hhalted.trans (decide_eq_false (Nat.not_le.mpr hlt')))
      refine ⟨hplaces ▸ hplace, ?_⟩
      show ((executeInstructionCycle _).pcbs.get p).ttl.toNat +
        execCount (executeInstructionCycle _).log p = ttl
      rw [cycle_ttl hrun hlive hgoes, hcount]
      omega
  · rw [if_neg (Ne.symm hpq), List.append_nil] at hlog
    refine h.keep hlog fun _ hplace => ⟨hplaces ▸ hplace, ?_⟩
    show ((executeInstructionCycle _).pcbs.get p).ttl.toNat = _
    rw [hown.others p hpq]
    rfl

/-- One slot of a tick. -/
theorem tickThread (h : Underway g p ttl s) (hprep : Prepared g spaces start p a ttl)
    (ht : Tracked spaces start pid pm s) (hr : Roomy pids s) (i j k : Nat) :
    Underway g p ttl (tickThread i j k s) := by
  obtain ⟨hsched, hrunning, _⟩ := Ranked.tickThread_same hr.compact i j k
  have hplaces : (LocOS.tickThread i j k s).places = s.places := by
    rw [Sys.places, hrunning, Sys.waiting, hsched]
    rfl
  rcases tickThread_cases i j k s with
    ⟨_, he⟩ | ⟨core, hw, q, hslot, hrests, he⟩ |
      ⟨core, hw, q, pm0, base, hslot, hpm, hst, hbase, he⟩
  · rw [he]
    exact h
  · obtain ⟨hcore, hk, hq⟩ := Machine.slot?_eq_some.mp hslot
    rw [he]
    exact h.age hprep ht (Machine.mem_cores_of_core? hcore) (List.mem_of_getElem? hk) hq
      (Machine.mem_running_of_slot hr.compact hslot) hrests
  · obtain ⟨hcore, hk, hq⟩ := Machine.slot?_eq_some.mp hslot
    obtain rfl := Option.some.inj (hpm.symm.trans ht.memory)
    have hqr := Machine.mem_running_of_slot hr.compact hslot
    have hrun : Executes (s.exec hw pm0 q) q := ⟨hq, hst, by
      show hw.ptbr ≠ none
      rw [hbase]
      exact Option.some_ne_none _⟩
    rw [← executeInstructionCycle_executes hrun] at he
    rw [he] at hplaces ⊢
    exact h.absorb hprep ht (Machine.mem_cores_of_core? hcore) (List.mem_of_getElem? hk) hrun hqr
      (hr.conserved.live q (List.mem_append_left _ hqr)) hplaces

/-- A visit of the scan takes the process away only when it has executed its
code: until then it is not terminated and has a tick left. -/
theorem scanThread (h : Underway g p ttl s) (hprep : Prepared g spaces start p a ttl)
    (ht : Tracked spaces start pid pm s) (hr : Roomy pids s) (hnd : pids.Nodup) {i j k : Nat}
    {core : Core} {hw : HardwareThread} {q : PcbPtr}
    (hslot : s.machine.slot? i j k = some (core, hw, q)) :
    Underway g p ttl (scanThread i j k s) := by
  have hlog : LocOS.executed (LocOS.scanThread i j k s).log p = LocOS.executed s.log p := by
    rcases hr.scanThread_cases hslot with ⟨_, he⟩ | ⟨_, _, _, _, he⟩ | ⟨_, he⟩
    · rw [he]
      simp [completeThread, LocOS.executed, Sys.charge]
    · rw [he]
      simp [LocOS.executed]
    · rw [he]
      rfl
  refine h.keep hlog fun hlt hplace => ?_
  have hstays : p = q → (s.pcbs.get q).charge.finished = false := by
    rintro rfl
    have hpr := Machine.mem_running_of_slot hr.compact hslot
    have hterm := (hprep.terminated_iff ht hpr).not.mpr (Nat.not_le.mpr hlt)
    obtain ⟨_, htime⟩ := h.unfinished hlt
    have hticks := hprep.ticks
    have hleft : 0 < s.left p := by omega
    have hpos : 0 < (s.pcbs.get p).ttl := Int.pos_iff_toNat_pos.mpr hleft
    refine decide_eq_false fun hfin => ?_
    rcases hfin with hdone | hnone
    · exact hterm hdone
    · exact absurd hpos (Int.not_lt.mpr hnone)
  exact ⟨(hr.mem_places_scanThread hnd hslot).mpr ⟨hplace, hstays⟩,
    congrArg Int.toNat (hr.scanThread_ttl hslot hstays)⟩

theorem dispatched (h : Underway g p ttl s) (hr : Roomy pids s) {q : PcbPtr} {sched : Scheduler}
    {i j : Nat} {core : Core} (hcore : s.machine.core? i j = some core)
    (hspace : core.hasSpace = true) (hperm : s.sched.waiting ~ q :: sched.waiting) :
    Underway g p ttl (s.dispatched sched q i j core) := by
  refine h.keep ?_ fun _ hplace => ⟨?_, ?_⟩
  · simp [Sys.dispatched, LocOS.executed]
  · exact (s.places_dispatched hr.compact.counted hcore hspace hperm).mem_iff.mp hplace
  · exact congrArg Int.toNat
      (PcbHeap.get_set_congr PCB.ttl s.pcbs (Lifetime.start_ttl ..) p)

end Underway

/-! ## Rounds -/

/-- What every round keeps. -/
structure OnCourse (g : GeneratedProgram) (spaces : List Space) (start : PcbPtr → VirtualProcess)
    (pid : PcbPtr → Int) (pids : List Int) (p : PcbPtr) (ttl : Nat) (s : Sys) : Prop where
  roomy : Roomy pids s
  tracked : ∃ pm, Tracked spaces start pid pm s
  underway : Underway g p ttl s

namespace OnCourse

theorem clockTick (h : OnCourse g spaces start pid pids p ttl s) (hnd : pids.Nodup)
    (hprep : Prepared g spaces start p a ttl) :
    OnCourse g spaces start pid pids p ttl (clockTick s) := by
  refine clockTick_inv (OnCourse g spaces start pid pids p ttl) ?_ ?_
  · obtain ⟨pm, ht⟩ := h.tracked
    refine ⟨h.roomy.tickEvent, ⟨pm, ht.tickEvent⟩, h.underway.keep ?_ fun _ hplace => ⟨hplace, rfl⟩⟩
    simp [executed]
  · intro i j k t ht
    obtain ⟨pm, htracked⟩ := ht.tracked
    exact ⟨ht.roomy.tickThread i j k,
      htracked.tickThread ht.roomy.conserved hnd ht.roomy.compact hprep.stays i j k,
      ht.underway.tickThread hprep htracked ht.roomy i j k⟩

theorem pass (h : OnCourse g spaces start pid pids p ttl s) (hnd : pids.Nodup)
    (hprep : Prepared g spaces start p a ttl) :
    OnCourse g spaces start pid pids p ttl (schedulerPass s) := by
  obtain ⟨pm, ht⟩ := h.tracked
  have hpass := h.roomy.schedulerPass
    (P := fun t => Tracked spaces start pid pm t ∧ Underway g p ttl t) ?_ hnd
    (fun _ t => Tracked spaces start pid pm t ∧ Underway g p ttl t) (fun _ ht => ht) ?_ ?_
    ⟨ht, h.underway⟩
  · obtain ⟨hroomy, ⟨htracked, hunderway⟩, _⟩ := hpass
    exact ⟨hroomy, ⟨pm, htracked⟩, hunderway⟩
  · rintro t q sched i j core hr hcore hspace _ hperm ⟨ht, hu⟩
    exact ⟨ht.dispatched hr.conserved hnd hr.compact hcore hperm,
      hu.dispatched hr hcore hspace hperm⟩
  · rintro _ i j k t core hw q hr hslot ⟨ht, hu⟩
    exact ⟨ht.scanThread hr.conserved hnd hr.compact hslot,
      hu.scanThread hprep ht hr hnd hslot⟩
  · rintro t sched hperm ⟨ht, hu⟩
    refine ⟨ht.setSched hperm, hu.keep rfl fun _ hplace => ⟨?_, rfl⟩⟩
    exact (hperm.symm.append_left t.running).mem_iff.mp hplace

theorem round (h : OnCourse g spaces start pid pids p ttl s) (hnd : pids.Nodup)
    (hprep : Prepared g spaces start p a ttl) : OnCourse g spaces start pid pids p ttl s.round :=
  (h.clockTick hnd hprep).pass hnd hprep

theorem rounds (h : OnCourse g spaces start pid pids p ttl s) (hnd : pids.Nodup)
    (hprep : Prepared g spaces start p a ttl) (k : Nat) :
    OnCourse g spaces start pid pids p ttl (Sys.round^[k] s) := by
  induction k with
  | zero => exact h
  | succ k ih =>
      rw [Function.iterate_succ_apply']
      exact ih.round hnd hprep

/-- Somewhere, the process has exited or has a tick left. -/
theorem terminated_or_left (h : OnCourse g spaces start pid pids p ttl s)
    (hprep : Prepared g spaces start p a ttl) (hp : p ∈ s.places) :
    (s.pcbs.get p).state = .terminated ∨ 0 < (s.pcbs.get p).ttl := by
  obtain ⟨pm, ht⟩ := h.tracked
  have hticks := hprep.ticks
  have hpos : execCount s.log p < g.codeSize → 0 < (s.pcbs.get p).ttl := by
    intro hlt
    obtain ⟨_, htime⟩ := h.underway.unfinished hlt
    have hleft : 0 < s.left p := by omega
    exact Int.pos_iff_toNat_pos.mpr hleft
  rcases List.mem_append.mp hp with hp | hp
  · by_cases hdone : g.codeSize ≤ execCount s.log p
    · exact .inl ((hprep.terminated_iff ht hp).mpr hdone)
    · exact .inr (hpos (Nat.not_le.mp hdone))
  · exact .inr (hpos (hprep.waiting_unfinished ht hp))

/-- Who has left has executed its code. -/
theorem executed_code (h : OnCourse g spaces start pid pids p ttl s) (hp : p ∉ s.places) :
    executed s.log p = g.code :=
  h.underway.executed_code (Nat.not_lt.mp fun hlt => hp (h.underway.unfinished hlt).1)

end OnCourse

end

/-! ## A generated program among others -/

/-- `program` becomes process `p` of a system that has room for all its
processes and a hardware thread, and the other processes stay in their pages. -/
structure Launched (cfg : Config) (programs : List Program) (p : PcbPtr) (program : Program)
    (pcb : PCB) (s : Sys) : Prop where
  created : (loaded programs).1[p]? = some (program, pcb)
  enqueued : (loadedPcbs cfg programs)[p]? = some pcb
  idle : cfg.machine.Idle
  free : canCpuExecuteProcess cfg.machine = true
  room : cfg.policy = .roundRobin ∨ (loadedPcbs cfg programs).length ≤ 1
  others : ∀ q k, q ≠ p → StaysInPages (loadedSpaces programs) q
    (alone (loaded programs).2.physicalMemory (loadedPcbs cfg programs) q k)
  booted : boot (cfg.load programs) (loadedPcbs cfg programs) = some s

/-- In a run, round by round, process `p` of the program `g` completes. It has
executed the words of its code when it does, the exit last, and until its exit
every scan finds ticks left. -/
structure CompletesByExit (g : GeneratedProgram) (p : PcbPtr) (pid : Int) (run : Nat → Sys) :
    Prop where
  completes : ∃ k, pid ∈ completedPids (run k).log
  byExit : ∀ k, pid ∈ completedPids (run k).log → executed (run k).log p = g.code
  inTime : ∀ k, pid ∉ completedPids (run k).log →
    ((clockTick (run k)).pcbs.get p).state = .terminated ∨
      0 < ((clockTick (run k)).pcbs.get p).ttl

namespace Launched

variable {cfg : Config} {programs : List Program} {p : PcbPtr} {program : Program} {pcb : PCB}
  {s : Sys} {file : List Char} {draw : Nat}

theorem pcb_eq (h : Launched cfg programs p program pcb s) :
    ∃ pid base, pcb = program.pcb pid base := by
  obtain ⟨pid, base, _, he⟩ := (loaded_spec programs).created _ (List.mem_of_getElem? h.created)
  exact ⟨pid, base, he⟩

theorem roomy (h : Launched cfg programs p program pcb s)
    (hload : loadProgramFromElf file draw = some program) :
    Roomy ((loadedPcbs cfg programs).map PCB.pid) s := by
  refine .boot (boot_spec h.booted) h.idle h.free (h.room.imp_right fun hone => ⟨hone, ?_⟩)
  -- the only process has a priority the loader drew
  intro q hq
  have hlt := (List.getElem?_eq_some_iff.mp h.enqueued).1
  obtain rfl : q = p := by
    have hzero : ∀ r < (loadedPcbs cfg programs).length, r = 0 := fun r hr =>
      Nat.lt_one_iff.mp (hr.trans_le hone)
    exact (hzero q (live_bootHeap.mp hq)).trans (hzero p hlt).symm
  obtain ⟨pid, base, rfl⟩ := h.pcb_eq
  rw [get_bootHeap h.enqueued]
  exact loaded_priority hload

theorem underway (h : Launched cfg programs p program pcb s)
    (hload : loadProgramFromElf file draw = some program) (g : GeneratedProgram) :
    Underway g p program.ttl.toNat s := by
  have hb := boot_spec h.booted
  have hlog : execCount s.log p = 0 := by
    rw [hb.log]
    rfl
  refine ⟨?_, fun _ => ⟨?_, ?_⟩⟩
  · rw [hlog, hb.log]
    rfl
  · refine List.mem_append_right _ ?_
    rw [hb.waiting, List.mem_range]
    exact (List.getElem?_eq_some_iff.mp h.enqueued).1
  · obtain ⟨pid, base, rfl⟩ := h.pcb_eq
    rw [hlog, Sys.left, hb.heap, get_bootHeap h.enqueued]
    exact loaded_ttl hload

/-- The generated program stays in its words, as the others do. -/
theorem prepared (h : Launched cfg programs p program pcb s) {g : GeneratedProgram}
    (hholds : Holds g program) (hticks : g.codeSize ≤ program.ttl.toNat) :
    Prepared g (enqueuedSpaces cfg programs) (freshProcesses cfg programs) p
      (spaceOf (program, pcb)) program.ttl.toNat := by
  obtain ⟨a, ha, hspace, _⟩ := fresh_loaded h.enqueued
  obtain rfl : a = spaceOf (program, pcb) := by
    rw [loadedSpaces, List.getElem?_map, h.created] at ha
    exact (Option.some.inj ha).symm
  obtain ⟨hstart, hfits⟩ := hholds.start (List.mem_of_getElem? h.created)
  have hfresh : freshProcesses cfg programs p =
      freshProcess (loaded programs).2.physicalMemory (spaceOf (program, pcb)) := by
    rw [freshProcesses, hspace]
    rfl
  refine ⟨fun q b hb k => ?_, hspace, hfresh ▸ hstart, hfits, hticks⟩
  by_cases hqp : q = p
  · subst hqp
    obtain rfl := Option.some.inj (hspace.symm.trans hb)
    rw [hfresh]
    exact (hstart.runsToExit hfits).inWords k
  · exact (enqueued_alone (fun k => h.others q k hqp) hb k).inWords

end Launched

/-- The TTL of a generated program covers its code words exactly when there
are at most 100 of them. Such a program completes by its exit: with one
scheduler pass after each tick, under Round Robin among any others that stay in
their pages, and by itself under every policy. -/
theorem generated_completes {maxLines : Word} {draws : Draws} {draw : Nat} {program : Program}
    (hload : loadProgramFromElf (generate maxLines draws) draw = some program) :
    (codeWords maxLines draws ≤ program.ttl.toNat ↔ codeWords maxLines draws ≤ 100) ∧
    (codeWords maxLines draws ≤ 100 →
      4 * (codeWords maxLines draws + dataWords maxLines draws) + pageSize ≤ 2 ^ 32 →
      ∀ (cfg : Config) (programs : List Program) (p : PcbPtr) (pcb : PCB) (s : Sys),
        Launched cfg programs p program pcb s → ∃ hfits : ImageFits maxLines draws,
          CompletesByExit (.ofDraws maxLines draws hfits) p pcb.pid fun k => Sys.round^[k] s) := by
  have httl := generate_ttl hload
  refine ⟨httl, fun hwords hsize cfg programs p pcb s h => ?_⟩
  have hfits := fits_of_created hload (List.mem_of_getElem? h.created) (by omega) hsize
  refine ⟨hfits, ?_⟩
  set g := GeneratedProgram.ofDraws maxLines draws hfits
  obtain ⟨_, hload', hholds⟩ := holds_generate maxLines draws hfits draw
  obtain rfl := Option.some.inj (hload.symm.trans hload')
  have hnd := loadedPcbs_nodup cfg programs
  have hprep : Prepared g _ _ p _ _ := h.prepared hholds (httl.mpr hwords)
  have hrun : ∀ k, OnCourse g (enqueuedSpaces cfg programs) (freshProcesses cfg programs)
      (fun p => ((bootHeap (loadedPcbs cfg programs)).get p).pid)
      ((loadedPcbs cfg programs).map PCB.pid) p program.ttl.toNat (Sys.round^[k] s) :=
    OnCourse.rounds ⟨h.roomy hload, ⟨_, .boot h.idle h.booted⟩, h.underway hload g⟩ hnd hprep
  -- who has not completed is somewhere
  have hplace : ∀ k, p ∈ (Sys.round^[k] s).places ↔
      pcb.pid ∉ completedPids (Sys.round^[k] s).log := by
    intro k
    obtain ⟨pm, ht⟩ := (hrun k).tracked
    exact ht.somewhere (hrun k).roomy.conserved (hrun k).roomy.noneRefused
      loadedPcbs_length.symm hnd h.enqueued
  constructor
  · obtain ⟨k, hk⟩ := (hrun 0).roomy.all_end hnd
    refine ⟨k, ?_⟩
    by_contra hnot
    have hp := (hplace k).mpr hnot
    have hk : (Sys.round^[k] s).places = [] := hk
    rw [hk] at hp
    cases hp
  · intro k hdone
    exact (hrun k).executed_code fun hp => (hplace k).mp hp hdone
  · intro k hnot
    have htick := (hrun k).clockTick hnd hprep
    refine htick.terminated_or_left hprep ?_
    rw [(hrun k).roomy.tick_left.1]
    exact (hplace k).mpr hnot

/-- The shortest program, as the only process of a system with priorities. -/
theorem generated_completes_shortest : ∃ hfits program, ∃ (pcb : PCB) (s : Sys),
    loadProgramFromElf (generate 1 fun _ => 0) 0 = some program ∧
      boot ((oneCore 1 .preemptivePrio 1).load [program])
        (loadedPcbs (oneCore 1 .preemptivePrio 1) [program]) = some s ∧
      CompletesByExit (.ofDraws 1 (fun _ => 0) hfits) 0 pcb.pid fun k => Sys.round^[k] s := by
  have hcheck : (loadProgramFromElf (generate 1 fun _ => 0) 0).any (fun program =>
      (loaded [program]).1.length = 1 && (boot ((oneCore 1 .preemptivePrio 1).load [program])
        (loadedPcbs (oneCore 1 .preemptivePrio 1) [program])).isSome) = true := by
    decide +kernel
  obtain ⟨program, hload, hsome⟩ := (Option.any_eq_true ..).mp hcheck
  obtain ⟨hone, hboot⟩ := Bool.and_eq_true_iff.mp hsome
  obtain ⟨⟨program', pcb⟩, hlist⟩ := List.length_eq_one_iff.mp (of_decide_eq_true hone)
  obtain rfl : program' = program := by
    have hmem : (program', pcb) ∈ (loaded [program]).1 := by simp [hlist]
    exact List.mem_singleton.mp (createProcesses_program hmem)
  obtain ⟨s, hs⟩ := Option.isSome_iff_exists.mp hboot
  have hlaunched : Launched (oneCore 1 .preemptivePrio 1) [program'] 0 program' pcb s := by
    refine ⟨by simp [hlist], by simp [loadedPcbs, hlist, oneCore],
      Machine.createMachine_idle 1 1 1, by decide, .inr (by simp [loadedPcbs, hlist, oneCore]),
      fun q k hq a ha => ?_, hs⟩
    -- there is no other space
    rw [loadedSpaces, hlist] at ha
    have hlt := (List.getElem?_eq_some_iff.mp ha).1
    exact absurd (Nat.lt_one_iff.mp hlt) hq
  obtain ⟨hfits, h⟩ := (generated_completes hload).2 (by decide) (by decide) _ _ _ _ _ hlaunched
  exact ⟨hfits, program', pcb, s, hload, hs, h⟩

/-- Of 97 lines at most, 100 of code are drawn: 101 words with the exit, and
100 ticks. By itself the process is ended by its TTL in front of the exit. -/
theorem generated_completes_clamped : ∃ program s,
    loadProgramFromElf (generate 97 fun i => if i = 0 then 96 else 0) 0 = some program ∧
      program.ttl.toNat = 100 ∧ codeWords 97 (fun i => if i = 0 then 96 else 0) = 101 ∧
      boot ((oneCore 1 .roundRobin 1).load [program])
        (loadedPcbs (oneCore 1 .roundRobin 1) [program]) = some s ∧
      (completedPids (Sys.round^[101] s).log).length = 1 ∧
      (executed (Sys.round^[101] s).log 0).length = 100 := by
  have hrun : (loadProgramFromElf (generate 97 fun i => if i = 0 then 96 else 0) 0).any
      (fun program => program.ttl.toNat = 100 &&
        (boot ((oneCore 1 .roundRobin 1).load [program])
          (loadedPcbs (oneCore 1 .roundRobin 1) [program])).any fun s =>
            (completedPids (Sys.round^[101] s).log).length = 1 &&
              (executed (Sys.round^[101] s).log 0).length = 100) = true := by
    decide +kernel
  obtain ⟨program, hload, hcheck⟩ := (Option.any_eq_true ..).mp hrun
  obtain ⟨httl, hboot⟩ := Bool.and_eq_true_iff.mp hcheck
  obtain ⟨s, hs, hends⟩ := (Option.any_eq_true ..).mp hboot
  obtain ⟨hcompleted, hexecuted⟩ := Bool.and_eq_true_iff.mp hends
  exact ⟨program, s, hload, of_decide_eq_true httl, by decide, hs, of_decide_eq_true hcompleted,
    of_decide_eq_true hexecuted⟩

end LocOS
