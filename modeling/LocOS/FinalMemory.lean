import LocOS.Completion
import LocOS.Output

/-!
# FinalMemory

The words of every process in every state of a run: waiting, executing or
completed, they are what the process alone would have made of them. For a
generated program they are its result from its exit on, whatever the system
goes on to do.
-/

namespace LocOS

/-! ## The words of all processes -/

/-- The words of every space are those of its process after as many
instructions alone, wherever the process is. -/
def HoldsProgress (spaces : List Space) (start : PcbPtr → VirtualProcess) (pm : PhysicalMemory)
    (log : List Event) : Prop :=
  ∀ p a, spaces[p]? = some a → ∀ w, w < a.words → a.read pm w = (progress start log p).memory w

/-- A pass executes nothing. -/
theorem PassKeeps.execCount (counts : PcbPtr → Nat) :
    PassKeeps fun s => ∀ p, execCount s.log p = counts p where
  scan := by
    intro i j k s hs
    cases hslot : s.machine.slot? i j k with
    | none =>
        unfold scanThread
        rw [hslot]
        exact hs
    | some slot =>
        intro p
        rw [← hs p]
        rcases scanThread_cases hslot with ⟨_, he⟩ | ⟨_, _, he⟩ | ⟨_, _, he⟩
        · rw [he]
          exact execCount_append _ _ _
        · rw [he]
          exact execCount_append _ _ _
        · rw [he]
          rfl
  preempt := by
    intro p s hs q
    rw [← hs q]
    by_cases hpol : s.sched.policy = .preemptivePrio
    · rcases preempt_cases hpol p with ⟨_, he⟩ | ⟨_, i, j, k, core, _, _, _, he⟩
      · rw [he]
      · rw [he]
        exact execCount_append _ _ _
    · unfold preemptLowerPriorityProcesses
      rw [if_pos hpol]
  queues := fun _ _ hs => hs
  dispatch := fun _ _ _ _ _ s _ hs q => (execCount_append s.log _ q).trans (hs q)
  putBack := fun _ _ _ s hs q => (execCount_append s.log _ q).trans (hs q)

section
variable {spaces : List Space} {start : PcbPtr → VirtualProcess} {pid : PcbPtr → Int}
  {pids : List Int} {pm : PhysicalMemory} {s : Sys}

theorem HoldsProgress.log (h : HoldsProgress spaces start pm s.log) {log : List Event}
    (hlog : ∀ p, execCount log p = execCount s.log p) : HoldsProgress spaces start pm log := by
  intro p a ha w hw
  rw [h p a ha w hw, progress, progress, hlog]

/-- A cycle writes the words of its own process only, and these as alone. -/
theorem OwnStep.holds {e : ExecState} {p : PcbPtr} {a : Space}
    (h : OwnStep spaces start pid pm s e p a) (hm : HoldsProgress spaces start pm s.log) :
    HoldsProgress spaces start e.pm e.log := by
  intro q b hb w hw
  by_cases hq : q = p
  · subst hq
    obtain rfl := Option.some.inj (hb.symm.trans h.space)
    exact (h.mine.memory w hw)
  · rw [h.reads q b hq hb w hw, h.progress_ne hq]
    exact hm q b hb w hw

/-- The processes and the words they have written. -/
def Written (spaces : List Space) (start : PcbPtr → VirtualProcess) (pid : PcbPtr → Int)
    (s : Sys) : Prop :=
  ∃ pm, Tracked spaces start pid pm s ∧ HoldsProgress spaces start pm s.log

theorem Written.tickThread (h : Written spaces start pid s) (hcons : Conserved pids s)
    (hnd : pids.Nodup) (hc : s.machine.Compact) (hstays : StaysInWords spaces start)
    (i j k : Nat) : Written spaces start pid (tickThread i j k s) := by
  obtain ⟨pm, ht, hm⟩ := h
  obtain ⟨pm', ht'⟩ := ht.tickThread hcons hnd hc hstays i j k
  refine ⟨pm', ht', ?_⟩
  have hmem := ht'.memory
  rcases tickThread_cases i j k s with
    ⟨_, he⟩ | ⟨core, hw, p, _, _, he⟩ | ⟨core, hw, p, pm0, base, hslot, hpm, hst, hbase, he⟩
  · rw [he] at hmem ⊢
    obtain rfl := Option.some.inj (ht.memory.symm.trans hmem)
    exact hm
  · rw [he] at hmem ⊢
    obtain rfl := Option.some.inj (ht.memory.symm.trans hmem)
    exact hm
  · obtain ⟨hcore, hk, hp⟩ := Machine.slot?_eq_some.mp hslot
    obtain rfl := Option.some.inj (hpm.symm.trans ht.memory)
    have hpr : p ∈ s.running := Machine.mem_running_of_slot hc hslot
    obtain ⟨a, hown⟩ := ht.ownStep hstays (Machine.mem_cores_of_core? hcore)
      (List.mem_of_getElem? hk) hp hst (hcons.live p (List.mem_append_left _ hpr))
    have hrun : Executes (s.exec hw pm0 p) p := ⟨hp, hst, by
      show hw.ptbr ≠ none
      rw [hbase]
      exact Option.some_ne_none _⟩
    rw [← executeInstructionCycle_executes hrun] at he
    rw [he] at hmem ⊢
    obtain rfl := Option.some.inj hmem
    exact hown.holds hm

theorem Written.clockTick (h : Written spaces start pid s) (hcons : Conserved pids s)
    (hnd : pids.Nodup) (hc : s.machine.Compact) (hstays : StaysInWords spaces start) :
    Written spaces start pid (clockTick s) := by
  have hinv := clockTick_inv (s := s) (fun t => (Conserved pids t ∧ t.machine.Compact) ∧
    Written spaces start pid t) ⟨⟨hcons.tickEvent, hc⟩, ?_⟩ ?_
  · exact hinv.2
  · obtain ⟨pm, ht, hm⟩ := h
    exact ⟨pm, ht.tickEvent, hm.log fun p => by simp [LocOS.execCount]⟩
  · rintro i j k t ⟨⟨hcons, hc⟩, ht⟩
    exact ⟨⟨hcons.tickThread hc i j k, (tickThread_machine hc i j k).1⟩,
      ht.tickThread hcons hnd hc hstays i j k⟩

theorem Written.schedulerPass (h : Written spaces start pid s)
    (hnext : ∃ pm, Tracked spaces start pid pm (schedulerPass s)) :
    Written spaces start pid (schedulerPass s) := by
  obtain ⟨pm, ht, hm⟩ := h
  obtain ⟨pm', ht'⟩ := hnext
  have hmem := (PassKeeps.clockPmRef s.clockPmRef).schedulerPass rfl
  obtain rfl := Option.some.inj (ht.memory.symm.trans (hmem.symm.trans ht'.memory))
  exact ⟨pm, ht', hm.log ((PassKeeps.execCount (LocOS.execCount s.log)).schedulerPass
    fun _ => rfl)⟩

end

/-! ## Any run -/

/-- Before the first instruction the words are those loaded. -/
theorem Written.boot {cfg : Config} {programs : List Program} {s : Sys}
    (hidle : cfg.machine.Idle)
    (hs : LocOS.boot (cfg.load programs) (loadedPcbs cfg programs) = some s) :
    Written (enqueuedSpaces cfg programs) (freshProcesses cfg programs)
      (fun p => ((bootHeap (loadedPcbs cfg programs)).get p).pid) s := by
  refine ⟨_, .boot hidle hs, fun p a ha w _ => ?_⟩
  rw [progress, (boot_spec hs).log]
  show _ = (freshProcesses cfg programs p).memory w
  rw [freshProcesses, ha]
  rfl

/-- The words of a process are its own for good, if every process by itself
stays in its pages: in every state of every run under Round Robin, whether the
process waits, executes or has completed, its pages hold what they would hold if
it had executed its instructions alone. -/
theorem memory_transparent {cfg : Config} {programs : List Program}
    (hpol : cfg.policy = .roundRobin) (hidle : cfg.machine.Idle)
    (hstay : ∀ p k, StaysInPages (loadedSpaces programs) p
      (alone (loaded programs).2.physicalMemory (loadedPcbs cfg programs) p k))
    {s : Sys} (hs : (programRuns cfg programs).Reachable s) {p : PcbPtr} {pcb : PCB} {a : Space}
    (hp : (loadedPcbs cfg programs)[p]? = some pcb)
    (ha : (loadedSpaces programs)[p]? = some a) :
    ∃ pm, s.clockPmRef = some pm ∧ ∀ w, w < a.words →
      a.read pm w = a.read (alone (loaded programs).2.physicalMemory (loadedPcbs cfg programs) p
        (execCount s.log p)).pm w := by
  have hnd := loadedPcbs_nodup cfg programs
  have hstays : StaysInWords (enqueuedSpaces cfg programs) (freshProcesses cfg programs) :=
    fun q b hb k => (enqueued_alone (hstay q) hb k).inWords
  have hrun : TrackedRun (enqueuedSpaces cfg programs) (freshProcesses cfg programs)
        (fun p => ((bootHeap (loadedPcbs cfg programs)).get p).pid)
        ((loadedPcbs cfg programs).map PCB.pid) s ∧
      Written (enqueuedSpaces cfg programs) (freshProcesses cfg programs)
        (fun p => ((bootHeap (loadedPcbs cfg programs)).get p).pid) s := by
    refine hs.invariant (fun s => TrackedRun _ _ _ _ s ∧ Written _ _ _ s)
      (fun s hs => ⟨.boot hpol hidle hs, .boot hidle hs⟩) ?_
    rintro s action t ⟨h, hw⟩ rfl
    have hnext := h.next hnd hstays action
    refine ⟨hnext, ?_⟩
    cases action with
    | tick => exact hw.clockTick h.roundRobin.conserved hnd h.compact hstays
    | pass => exact hw.schedulerPass hnext.tracked
  obtain ⟨pm, ht, hm⟩ := hrun.2
  obtain ⟨a', ha', hspace, _⟩ := fresh_loaded hp
  obtain rfl := Option.some.inj (ha.symm.trans ha')
  have halone := (enqueued_alone (hstay p) hspace (execCount s.log p)).agrees
  exact ⟨pm, ht.memory, fun w hw => (hm p a hspace w hw).trans (halone.memory w hw).symm⟩

/-- The first of two processes on one hardware thread has completed after its
two instructions, while the second has executed one. -/
theorem memory_transparent_two : ∃ s,
    (programRuns (oneCore 1 .roundRobin 1) [loadAndExit, loadAndExit]).Reachable s ∧
      0 ∉ s.places ∧ execCount s.log 0 = 2 ∧ execCount s.log 1 = 1 ∧
      ∃ pm, s.clockPmRef = some pm ∧ ∀ w, w < 2 ^ 10 →
        (Space.mk 0 1).read pm w = (Space.mk 0 1).read (loadAlone 0 2).pm w := by
  have hrun : (boot ((oneCore 1 .roundRobin 1).load [loadAndExit, loadAndExit])
      (loadedPcbs (oneCore 1 .roundRobin 1) [loadAndExit, loadAndExit])).any (fun s =>
        decide (0 ∉ ([Action.pass, .tick, .pass, .tick, .pass, .tick, .pass].foldl
            Sys.next s).places ∧
          execCount ([Action.pass, .tick, .pass, .tick, .pass, .tick, .pass].foldl
            Sys.next s).log 0 = 2 ∧
          execCount ([Action.pass, .tick, .pass, .tick, .pass, .tick, .pass].foldl
            Sys.next s).log 1 = 1)) = true := by
    decide +kernel
  have hloaded : (loadedPcbs (oneCore 1 .roundRobin 1) [loadAndExit, loadAndExit])[0]?.isSome ∧
      (loadedSpaces [loadAndExit, loadAndExit])[0]? = some ⟨0, 1⟩ := by
    decide +kernel
  obtain ⟨s, hs, hcheck⟩ := (Option.any_eq_true ..).mp hrun
  obtain ⟨hgone, hfirst, hsecond⟩ := of_decide_eq_true hcheck
  obtain ⟨pcb, hpcb⟩ := Option.isSome_iff_exists.mp hloaded.1
  have hstart : (programRuns (oneCore 1 .roundRobin 1) [loadAndExit, loadAndExit]).Reachable s :=
    .init hs
  have hreach := hstart.foldl (fun _ _ => rfl)
    [Action.pass, .tick, .pass, .tick, .pass, .tick, .pass]
  have h := memory_transparent rfl (Machine.createMachine_idle 1 1 1) loadAlone_stays hreach
    hpcb hloaded.2
  rw [hfirst] at h
  exact ⟨_, hreach, hgone, hfirst, hsecond, h⟩

/-! ## The result of a generated program -/

section
variable {g : GeneratedProgram} {spaces : List Space} {start : PcbPtr → VirtualProcess}
  {pid : PcbPtr → Int} {p : PcbPtr} {a : Space} {ttl : Nat} {s : Sys}

/-- Behind its last instruction the data of a program are its result. -/
theorem Prepared.result (h : Prepared g spaces start p a ttl)
    (hu : Underway g p ttl s) (hw : Written spaces start pid s)
    (hdone : g.codeSize ≤ execCount s.log p) {i : Nat} (hi : i < g.dataSize) :
    ∃ pm, s.clockPmRef = some pm ∧ a.read pm (g.codeSize + i) = g.dataAfter g.blocks i := by
  obtain ⟨pm, ht, hm⟩ := hw
  have hcount : execCount s.log p = g.codeSize := by
    rw [← length_executed, hu.executed_code hdone, g.length_code]
  have hlt : g.codeSize + i < g.size := Nat.add_lt_add_left hi _
  refine ⟨pm, ht.memory, ?_⟩
  rw [hm p a h.space _ (hlt.trans_le h.fits), progress, hcount]
  exact (h.starts.runsToExit h.fits).data i hi

theorem OnCourse.written {pids : List Int} (h : OnCourse g spaces start pid pids p ttl s)
    (hnd : pids.Nodup) (hprep : Prepared g spaces start p a ttl)
    (hw : Written spaces start pid s) (k : Nat) : Written spaces start pid (Sys.round^[k] s) := by
  induction k with
  | zero => exact hw
  | succ k ih =>
      rw [Function.iterate_succ_apply']
      have hk := h.rounds hnd hprep k
      have htick := hk.clockTick hnd hprep
      exact (ih.clockTick hk.roomy.conserved hnd hk.roomy.compact hprep.stays).schedulerPass
        (htick.pass hnd hprep).tracked

end

/-- Who has completed has completed for good. -/
theorem completedPids_rounds {s : Sys} {pid : Int} {k : Nat}
    (h : pid ∈ completedPids (Sys.round^[k] s).log) (d : Nat) :
    pid ∈ completedPids (Sys.round^[k + d] s).log := by
  induction d with
  | zero => exact h
  | succ d ih =>
      rw [← Nat.add_assoc, Function.iterate_succ_apply']
      obtain ⟨events, he⟩ := (Prints.clockTick.comp .schedulerPass).prefix_log (Sys.round^[k + d] s)
      show pid ∈ completedPids (LocOS.schedulerPass (LocOS.clockTick _)).log
      rw [← he, completedPids_append]
      exact List.mem_append_left _ ih

/-- From some round on process `p` has completed, and the words of its data
area are those its program computes. -/
def LeavesResult (g : GeneratedProgram) (a : Space) (pid : Int) (run : Nat → Sys) : Prop :=
  ∃ k, ∀ k', k ≤ k' → pid ∈ completedPids (run k').log ∧
    ∃ pm, (run k').clockPmRef = some pm ∧
      ∀ i, i < g.dataSize → a.read pm (g.codeSize + i) = g.dataAfter g.blocks i

/-- From the generator's draws to the words in memory: a generated program of
at most 100 code words, whose image leaves a page of the 32-bit space, written
to a file, loaded among any others that stay in their pages and run on any
machine under Round Robin (or by itself under any policy), one pass behind each
tick, completes, and from then on its data area holds what the sequence of its
blocks computes. -/
theorem generated_leavesResult {maxLines : Word} {draws : Draws} {draw : Nat} {program : Program}
    (hload : loadProgramFromElf (generate maxLines draws) draw = some program)
    (hwords : codeWords maxLines draws ≤ 100)
    (hsize : 4 * (codeWords maxLines draws + dataWords maxLines draws) + pageSize ≤ 2 ^ 32)
    {cfg : Config} {programs : List Program} {p : PcbPtr} {pcb : PCB} {s : Sys}
    (h : Launched cfg programs p program pcb s) :
    ∃ hfits : ImageFits maxLines draws,
      LeavesResult (.ofDraws maxLines draws hfits) (spaceOf (program, pcb)) pcb.pid
        fun k => Sys.round^[k] s := by
  have hfits := fits_of_created hload (List.mem_of_getElem? h.created) (by omega) hsize
  refine ⟨hfits, ?_⟩
  set g := GeneratedProgram.ofDraws maxLines draws hfits
  obtain ⟨_, hload', hholds⟩ := holds_generate maxLines draws hfits draw
  obtain rfl := Option.some.inj (hload.symm.trans hload')
  have hnd := loadedPcbs_nodup cfg programs
  have hprep : Prepared g _ _ p _ _ := h.prepared hholds ((generate_ttl hload).mpr hwords)
  have hstart : OnCourse g (enqueuedSpaces cfg programs) (freshProcesses cfg programs)
      (fun p => ((bootHeap (loadedPcbs cfg programs)).get p).pid)
      ((loadedPcbs cfg programs).map PCB.pid) p program.ttl.toNat s :=
    ⟨h.roomy hload, ⟨_, .boot h.idle h.booted⟩, h.underway hload g⟩
  -- all processes end, and nobody comes back
  obtain ⟨k, hk⟩ := hstart.roomy.all_end hnd
  have hplaces : (Sys.round^[k] s).places = [] := hk
  have hcourse := hstart.rounds hnd hprep
  obtain ⟨pm, ht⟩ := (hcourse k).tracked
  have hdone : pcb.pid ∈ completedPids (Sys.round^[k] s).log := by
    by_contra hnot
    have hp := (ht.somewhere (hcourse k).roomy.conserved (hcourse k).roomy.noneRefused
      loadedPcbs_length.symm hnd h.enqueued).mpr hnot
    rw [hplaces] at hp
    cases hp
  refine ⟨k, fun k' hle => ?_⟩
  obtain ⟨d, rfl⟩ := Nat.exists_eq_add_of_le hle
  have hdone' := completedPids_rounds hdone d
  refine ⟨hdone', ?_⟩
  obtain ⟨pm', ht'⟩ := (hcourse (k + d)).tracked
  have hgone : p ∉ (Sys.round^[k + d] s).places := fun hp =>
    (ht'.somewhere (hcourse (k + d)).roomy.conserved (hcourse (k + d)).roomy.noneRefused
      loadedPcbs_length.symm hnd h.enqueued).mp hp hdone'
  have hcode : g.codeSize ≤ execCount (Sys.round^[k + d] s).log p :=
    Nat.not_lt.mp fun hlt => hgone ((hcourse (k + d)).underway.unfinished hlt).1
  have hwritten := hstart.written hnd hprep (.boot h.idle h.booted) (k + d)
  refine ⟨pm', ht'.memory, fun i hi => ?_⟩
  obtain ⟨pm'', hpm, hdata⟩ := hprep.result (hcourse (k + d)).underway hwritten hcode hi
  obtain rfl := Option.some.inj (ht'.memory.symm.trans hpm)
  exact hdata

/-- The shortest program, as the only process of a system with priorities. -/
theorem generated_leavesResult_shortest : ∃ hfits program, ∃ (pcb : PCB) (s : Sys),
    loadProgramFromElf (generate 1 fun _ => 0) 0 = some program ∧
      boot ((oneCore 1 .preemptivePrio 1).load [program])
        (loadedPcbs (oneCore 1 .preemptivePrio 1) [program]) = some s ∧
      LeavesResult (.ofDraws 1 (fun _ => 0) hfits) (spaceOf (program, pcb)) pcb.pid
        fun k => Sys.round^[k] s := by
  have hcheck : (loadProgramFromElf (generate 1 fun _ => 0) 0).any (fun program =>
      (loaded [program]).1.length = 1 && (boot ((oneCore 1 .preemptivePrio 1).load [program])
        (loadedPcbs (oneCore 1 .preemptivePrio 1) [program])).isSome) = true := by
    decide +kernel
  obtain ⟨program, hload, hsome⟩ := (Option.any_eq_true ..).mp hcheck
  obtain ⟨hone, hboot⟩ := Bool.and_eq_true_iff.mp hsome
  obtain ⟨⟨program', pcb⟩, hlist⟩ := List.length_eq_one_iff.mp (of_decide_eq_true hone)
  obtain rfl : program' = program := by
    have hmem : (program', pcb) ∈ (loaded [program]).1 := by simp [hlist]
    exact List.mem_singleton.mp (createProcesses_program hmem)
  obtain ⟨s, hs⟩ := Option.isSome_iff_exists.mp hboot
  have hlaunched : Launched (oneCore 1 .preemptivePrio 1) [program'] 0 program' pcb s := by
    refine ⟨by simp [hlist], by simp [loadedPcbs, hlist, oneCore],
      Machine.createMachine_idle 1 1 1, by decide, .inr (by simp [loadedPcbs, hlist, oneCore]),
      fun q k hq a ha => ?_, hs⟩
    -- there is no other space
    rw [loadedSpaces, hlist] at ha
    have hlt := (List.getElem?_eq_some_iff.mp ha).1
    exact absurd (Nat.lt_one_iff.mp hlt) hq
  obtain ⟨hfits, h⟩ := generated_leavesResult hload (by decide) (by decide) hlaunched
  exact ⟨hfits, program', pcb, s, hload, hs, h⟩

end LocOS
