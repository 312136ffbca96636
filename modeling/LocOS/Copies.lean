import LocOS.Isolation
import LocOS.Ranks

/-!
# Copies

The legacy array `core->pcbs` is filled at an assignment and read by the
preemption and by the report at shutdown. Ticks and passes go on changing the
process itself, so a copy is true only while nothing happens to its process:
the steps that leave all the copies true are the ones that leave every
executing process alone or take it off its thread.
-/

namespace LocOS

open scoped List

/-! ## Agreement -/

/-- The fields that are read from a copy. -/
def PCB.legacy (pcb : PCB) : Int × Int × Int × Int × ProcState × Int × Int :=
  (pcb.pid, pcb.priority, pcb.ttl, pcb.initialTtl, pcb.state, pcb.quantumCounter,
    pcb.virtualDeadline)

/-- Every counted slot has a process, and a copy that agrees with it. -/
def Core.Agrees (core : Core) (h : PcbHeap) : Prop :=
  ∀ k : Nat, (k : Int) < core.currentPcbCount →
    ∃ hw p c, core.hwThreads[k]? = some hw ∧ hw.pcb = some p ∧ core.pcbs[k]? = some c ∧
      c.legacy = (h.get p).legacy

/-- The hardware thread's share of a tick leaves its process as it is: it has
no TTL to lose, and the instruction does not end it. -/
def Undisturbing (s : Sys) (i j k : Nat) : Prop :=
  ∀ core hw p, s.machine.slot? i j k = some (core, hw, p) →
    (s.pcbs.get p).ttl ≤ 0 ∧
      ∀ e, s.cycle? i j k = some (p, e) → Executes e p → ¬ Halts (fetch e)

/-- The step leaves no process behind that it has changed: a tick changes
none, and a pass takes every executing process off its thread. -/
def CopiesKept (s : Sys) : MicroAction → Prop
  | .count => True
  | .slot i j k => Undisturbing s i j k
  | .pass => s.running.Nodup ∧ ∀ p ∈ s.running, s.Leaves p

theorem PCB.decrementTtl_of_le {pcb : PCB} (h : pcb.ttl ≤ 0) : pcb.decrementTtl = pcb :=
  if_neg (Int.not_lt.mpr h)

/-- The copies of all cores are true. -/
structure Copied (s : Sys) : Prop where
  compact : s.machine.Compact
  cores : ∀ core ∈ s.machine.cores, core.Copied PCB.legacy s.pcbs

namespace Copied

variable {s : Sys}

theorem agrees (h : Copied s) {core : Core} (hcore : core ∈ s.machine.cores) :
    core.Agrees s.pcbs := by
  intro k hk
  obtain ⟨ps, hps⟩ := h.compact core hcore
  have hlt : k < ps.length := by
    have hcount := hps.count
    omega
  obtain ⟨hw, hget, hp⟩ := hps.counts.slot k _ (List.getElem?_eq_getElem hlt)
  obtain ⟨c, hc, hcopy⟩ := (h.cores core hcore).copy k ps[k]
    (by rw [hps.running_eq]; exact List.getElem?_eq_getElem hlt)
  exact ⟨hw, ps[k], c, hget, hp, hc, hcopy⟩

/-! ## Ticks -/

/-- Nothing happens to any process at such a slot. -/
theorem tickThread (h : Copied s) {i j k : Nat} (hok : Undisturbing s i j k) :
    Copied (tickThread i j k s) := by
  have hage : ∀ {core hw p}, s.machine.slot? i j k = some (core, hw, p) → ∀ q,
      (s.pcbs.age p).get q = s.pcbs.get q := by
    intro core hw p hslot
    refine PcbHeap.get_set_congr id s.pcbs ?_
    exact PCB.decrementTtl_of_le (hok core hw p hslot).1
  have hcompact := (tickThread_machine h.compact i j k).1
  rcases tickThread_cases i j k s with
    ⟨_, he⟩ | ⟨core, hw, p, hslot, _, he⟩ | ⟨core, hw, p, pm, base, hslot, hpm, hst, hbase, he⟩
  · rwa [he]
  · rw [he]
    exact ⟨h.compact, fun core hcore => (h.cores core hcore).congr fun q _ => by rw [hage hslot]⟩
  · obtain ⟨hcore, hk, hp⟩ := Machine.slot?_eq_some.mp hslot
    have hexec : Executes (s.exec hw pm p) p := ⟨hp, hst, by
      show hw.ptbr ≠ none
      rw [hbase]
      exact Option.some_ne_none _⟩
    have hgoes := (hok core hw p hslot).2 _
      (Sys.cycle?_eq_some.mpr ⟨core, hw, pm, hslot, hpm, rfl⟩) hexec
    have hpcbs : (LocOS.tickThread i j k s).pcbs = s.pcbs.age p := by
      rw [he]
      simp only [Sys.absorb, executeInstruction_pcbs]
      exact if_neg hgoes
    have hthread := (h.compact.core hcore).setThread hk (executeInstruction
      (fetched (s.exec hw pm p) p) p (fetch (s.exec hw pm p))).hw (executeInstruction_hw_pcb ..)
    refine ⟨hcompact, fun c hc => ?_⟩
    rw [hpcbs]
    have hold : c.Copied PCB.legacy s.pcbs := by
      rw [he] at hc
      rcases Machine.mem_setCore hcore hc with rfl | hc
      · exact (h.cores core (Machine.mem_cores_of_core? hcore)).setThread hthread.running_eq
      · exact h.cores c hc
    exact hold.congr fun q _ => by rw [hage hslot]

end Copied

/-! ## Passes -/

/-- A scan that every executing process leaves empties the machine. -/
theorem scanMachine_empties {s : Sys} (hc : s.machine.Compact) (hnd : s.running.Nodup)
    (hleave : ∀ p ∈ s.running, s.Leaves p)
    (hlen : ∀ core ∈ s.machine.cores, core.pcbs.length = core.numKernelThreads) :
    (scanMachine s).machine.Idle ∧
      ∀ core ∈ (scanMachine s).machine.cores, core.pcbs.length = core.numKernelThreads := by
  have hinv := scanMachine_inv (fun todo t => Unvisited s todo t ∧ (∀ p ∈ todo, s.Leaves p) ∧
    t.machine.running ~ todo ∧
    ∀ core ∈ t.machine.cores, core.pcbs.length = core.numKernelThreads) ?_ hc ?_
  · obtain ⟨⟨_, _, hrun, hlen'⟩, hcompact⟩ := hinv
    exact ⟨hcompact.idle hrun.eq_nil, hlen'⟩
  · rintro todo i j k t core hw p hct hslot ⟨hun, hall, hrun, hlen⟩
    have hremoved : (scanThread i j k t).machine = t.machine.setCore i j (core.removeThread k) := by
      have hl := hun.leaves_iff.mpr (hall p (List.mem_cons_self ..))
      rcases scanThread_cases hslot with ⟨_, he⟩ | ⟨_, _, he⟩ | ⟨hfin, hexp, _⟩
      · rw [he]
        rfl
      · rw [he]
        rfl
      · rcases hl with hl | hl
        · rw [hfin] at hl
          cases hl
        · rw [hexp] at hl
          cases hl
    refine ⟨hun.scanThread hslot, fun q hq => hall q (List.mem_cons_of_mem p hq), ?_, ?_⟩
    · rw [hremoved]
      exact ((Machine.running_removeThread_perm hct hslot).symm.trans hrun).cons_inv
    · intro c hcore
      rw [hremoved] at hcore
      have hslot' := (Machine.slot?_eq_some.mp hslot).1
      rcases Machine.mem_setCore hslot' hcore with rfl | hcore
      · rw [Core.removeThread_numKernelThreads, Core.length_removeThread_pcbs]
        exact hlen core (Machine.mem_cores_of_core? hslot')
      · exact hlen c hcore
  · exact ⟨.start hnd, fun p hp => hleave p (s.machine.scanOrder_perm.mem_iff.mp hp),
      s.machine.scanOrder_perm.symm, hlen⟩

/-- The transfer preempts nobody on an idle machine. -/
theorem transferReady_idle (n : Nat) {s : Sys} (hpol : s.sched.policy = .preemptivePrio)
    (hidle : s.machine.Idle) :
    (transferReady n s).machine = s.machine ∧ (transferReady n s).pcbs = s.pcbs := by
  induction n generalizing s with
  | zero => exact ⟨rfl, rfl⟩
  | succ n ih =>
      cases hd : s.sched.readyQueue.dequeueProcess with
      | none =>
          simp only [transferReady, hd]
          exact ⟨trivial, trivial⟩
      | some pr =>
          obtain ⟨p, rq⟩ := pr
          have hstay := hidle.stays hpol rq p
          simp only [transferReady, hd, hstay]
          cases he : enqueueToScheduler { s.sched with readyQueue := rq } s.pcbs p with
          | none => exact ⟨rfl, rfl⟩
          | some sched =>
              exact ih (s := { s with sched })
                ((Scheduler.enqueueToScheduler_same he).policy.trans hpol) hidle

theorem PCB.start_congr {sched sched' : Scheduler} (h : Scheduler.SameConfig sched sched')
    (pcb : PCB) (clkCounter : Int) : pcb.start sched' clkCounter = pcb.start sched clkCounter := by
  unfold PCB.start bfsDeadline
  rw [h.policy, h.quantum]

/-- A second dispatch sets what the first one set. -/
theorem PCB.start_start (pcb : PCB) (sched : Scheduler) (clkCounter : Int) :
    (pcb.start sched clkCounter).start sched clkCounter = pcb.start sched clkCounter := by
  by_cases h : sched.policy = .bfs ∧ pcb.virtualDeadline = 0
  · simp only [PCB.start, if_pos h]
    split <;> rfl
  · simp only [PCB.start, if_neg h]

/-- While processes are dispatched: another dispatch of one that executes
already would change nothing. A queue that holds a process twice brings this
about. -/
structure Dispatching (s : Sys) : Prop extends Copied s where
  settled : ∀ p ∈ s.running, s.pcbs.Live p →
    (s.pcbs.get p).start s.sched s.clkCounter = s.pcbs.get p

namespace Dispatching

variable {s : Sys}

theorem started (h : Dispatching s) {sched : Scheduler}
    (hsame : Scheduler.SameConfig s.sched sched) (p : PcbPtr) {q : PcbPtr} (hq : q ∈ s.running) :
    (s.started sched p).get q = s.pcbs.get q := by
  by_cases hqp : q = p
  · subst hqp
    by_cases hlive : s.pcbs.Live q
    · refine PcbHeap.get_set_congr id _ ?_ q
      exact (PCB.start_congr hsame _ _).trans (h.settled q hq hlive)
    · exact PcbHeap.get_set_dead hlive _
  · exact PcbHeap.get_set_ne _ hqp _

theorem dispatched (h : Dispatching s) {sched : Scheduler}
    (hsame : Scheduler.SameConfig s.sched sched) {p : PcbPtr} {i j : Nat} {core : Core}
    (hcore : s.machine.core? i j = some core) (hspace : core.hasSpace = true) :
    Dispatching (s.dispatched sched p i j core) := by
  have hperm := s.running_dispatched h.compact.counted hcore hspace sched p
  have hcopied : ∀ c ∈ s.machine.cores, c.Copied PCB.legacy (s.started sched p) :=
    fun c hc => (h.cores c hc).congr fun q hq => by
      rw [h.started hsame p (List.mem_flatMap.mpr ⟨c, hc, hq⟩)]
  refine ⟨⟨?_, ?_⟩, ?_⟩
  · exact h.compact.setCore hcore ((h.compact.core hcore).assign hspace p _)
  · intro c hc
    rcases Machine.mem_setCore hcore hc with rfl | hc
    · exact (hcopied core (Machine.mem_cores_of_core? hcore)).assign
        (h.compact.core hcore).counts hspace p
    · exact hcopied c hc
  · intro q hq hlive
    have hold : s.pcbs.Live q := (PcbHeap.live_set ..).mp hlive
    show ((s.started sched p).get q).start sched s.clkCounter = (s.started sched p).get q
    by_cases hqp : q = p
    · subst hqp
      have hget : (s.started sched q).get q = (s.pcbs.get q).start sched s.clkCounter :=
        PcbHeap.get_set_self hold _
      rw [hget, PCB.start_start]
    · have hq := (List.mem_cons.mp (hperm.mem_iff.mpr hq)).resolve_left hqp
      rw [h.started hsame p hq, PCB.start_congr hsame]
      exact h.settled q hq hold

theorem dispatchReady (h : Dispatching s) (n : Nat) : Copied (dispatchReady n s) := by
  induction n generalizing s with
  | zero => exact h.toCopied
  | succ n ih =>
      unfold LocOS.dispatchReady
      split
      · split
        · exact h.toCopied
        · rename_i p sched hsel
          have hsame := Scheduler.selectNextProcess_same hsel
          rcases s.machine.assignProcessToCore_cases (s.started sched p) p with
            ⟨_, hnone⟩ | ⟨i, j, core, hcore, hspace, hassign⟩
          · rw [Sys.started] at hnone
            simp only [hnone]
            exact ⟨h.compact, fun c hc => (h.cores c hc).congr fun q hq => congrArg PCB.legacy
              (h.started hsame p (List.mem_flatMap.mpr ⟨c, hc, hq⟩))⟩
          · rw [Sys.started] at hassign
            simp only [hassign, PCB.start_pid]
            exact ih (h.dispatched hsame hcore hspace)
      · exact h.toCopied

end Dispatching

/-- A pass that leaves no process executing fills the cores anew. -/
theorem Copied.schedulerPass {s : Sys} (h : Copied s) (hnd : s.running.Nodup)
    (hleave : ∀ p ∈ s.running, s.Leaves p) : Copied (schedulerPass s) := by
  obtain ⟨hidle, hlen⟩ := scanMachine_empties h.compact hnd hleave
    fun core hcore => (h.cores core hcore).length
  have hstart : ∀ t : Sys, t.machine = (scanMachine s).machine → Dispatching t := by
    intro t hm
    have hnone : t.machine.running = [] := by
      rw [hm]
      exact hidle.running
    refine ⟨⟨by rw [hm]; exact hidle.compact, fun core hcore => ?_⟩, fun p hp => ?_⟩
    · rw [hm] at hcore
      exact Core.copied_of_idle (hlen core hcore) (hidle core hcore).running_eq
    · rw [Sys.running, hnone] at hp
      cases hp
  unfold LocOS.schedulerPass
  dsimp only
  split
  · rename_i hpol
    exact (hstart _ (transferReady_idle _ hpol hidle).1).dispatchReady _
  · exact (hstart _ rfl).dispatchReady _

theorem Copied.micro {s : Sys} (h : Copied s) {a : MicroAction} (hok : CopiesKept s a) :
    Copied (s.micro a) := by
  cases a with
  | count => exact ⟨h.compact, h.cores⟩
  | slot i j k => exact h.tickThread hok
  | pass => exact h.schedulerPass hok.1 hok.2

/-- In every run whose steps leave no changed process behind its copy, the
copies of all cores agree with their processes in every state. -/
theorem copies_agree {cfg : Config} {programs : List Program}
    (hmachine : ∀ core ∈ cfg.machine.cores, ∃ n, core = createCore n) {s : Sys}
    (h : ((microRuns cfg programs).restrict CopiesKept).Reachable s) :
    ∀ core ∈ s.machine.cores, core.Agrees s.pcbs := by
  have hcopied : Copied s := h.invariant Copied ?_ ?_
  · exact fun core hcore => hcopied.agrees hcore
  · intro s hs
    have hfresh : ∀ core ∈ s.machine.cores, ∃ n, core = createCore n := by
      rw [(boot_spec hs).machine]
      exact hmachine
    constructor
    · intro core hcore
      obtain ⟨n, rfl⟩ := hfresh core hcore
      exact ⟨[], Core.createCore_holds n⟩
    · intro core hcore
      obtain ⟨n, rfl⟩ := hfresh core hcore
      exact Core.createCore_copied n s.pcbs
  · rintro s a _ hs ⟨hok, rfl⟩
    exact hs.micro hok

/-- A process with a quantum of one, dispatched by a first pass and, behind a
tick of the thread beside it, by a second one. -/
theorem copies_agree_dispatched :
    (∀ core ∈ (oneCore 2 .roundRobin 1).machine.cores, ∃ n, core = createCore n) ∧
      ∃ s, ((microRuns (oneCore 2 .roundRobin 1) [oneInstruction 0x20000000#32]).restrict
          CopiesKept).Reachable s ∧ s.running = [0] ∧ Event.expired 0 1 true ∈ s.log ∧
        ∀ core ∈ s.machine.cores, core.Agrees s.pcbs := by
  have hfresh : ∀ core ∈ (oneCore 2 .roundRobin 1).machine.cores, ∃ n, core = createCore n := by
    intro core hcore
    obtain rfl := List.mem_singleton.mp hcore
    exact ⟨2, rfl⟩
  have hrun : (boot ((oneCore 2 .roundRobin 1).load [oneInstruction 0x20000000#32])
      (loadedPcbs (oneCore 2 .roundRobin 1) [oneInstruction 0x20000000#32])).any (fun s =>
        let t := (s.micro .pass).micro .count
        let u := t.micro (.slot 0 0 1)
        decide (s.running = [] ∧ t.machine.slot? 0 0 1 = none ∧
          (u.running.Nodup ∧ ∀ p ∈ u.running, u.Leaves p) ∧
          (u.micro .pass).running = [0] ∧
            Event.expired 0 1 true ∈ (u.micro .pass).log)) = true := by
    decide +kernel
  obtain ⟨s, hs, hcheck⟩ := (Option.any_eq_true ..).mp hrun
  obtain ⟨hnone, hidle, hleaves, hone, hrequeued⟩ := of_decide_eq_true hcheck
  have hfirst : CopiesKept s .pass := by
    rw [CopiesKept, hnone]
    exact ⟨List.nodup_nil, fun p hp => by cases hp⟩
  have htick : CopiesKept ((s.micro .pass).micro .count) (.slot 0 0 1) := by
    intro core hw p hslot
    rw [hidle] at hslot
    cases hslot
  have hreach := restricted_micro (restricted_micro (restricted_micro
    (restricted_micro (.init hs) .pass hfirst) .count trivial) (.slot 0 0 1) htick) .pass hleaves
  exact ⟨hfresh, _, hreach, hone, hrequeued, copies_agree hfresh hreach⟩

/-- The first tick makes its copy false. -/
theorem copies_disagree :
    ∃ s, (microRuns (oneCore 1 .roundRobin 5) [oneInstruction 0x20000000#32]).Reachable s ∧
      ¬ ∀ core ∈ s.machine.cores, core.Agrees s.pcbs := by
  have hrun : (boot ((oneCore 1 .roundRobin 5).load [oneInstruction 0x20000000#32])
      (loadedPcbs (oneCore 1 .roundRobin 5) [oneInstruction 0x20000000#32])).any (fun s =>
        ((clockTick (schedulerPass s)).machine.slot? 0 0 0).any fun slot =>
          (0 : Int) < slot.1.currentPcbCount ∧ slot.1.pcbs[0]?.map PCB.ttl = some 10 ∧
            ((clockTick (schedulerPass s)).pcbs.get slot.2.2).ttl = 9) = true := by
    decide +kernel
  obtain ⟨s, hs, hcheck⟩ := (Option.any_eq_true ..).mp hrun
  obtain ⟨⟨core, hw, p⟩, hslot, hcheck⟩ := (Option.any_eq_true ..).mp hcheck
  obtain ⟨hcount, hcopy, hlive⟩ := of_decide_eq_true hcheck
  obtain ⟨hcore, hget, hp⟩ := Machine.slot?_eq_some.mp hslot
  have hpass : (microRuns (oneCore 1 .roundRobin 5) [oneInstruction 0x20000000#32]).Reachable
      (schedulerPass s) := Runs.Reachable.step (a := .pass) (.init hs) rfl
  refine ⟨_, hpass.steps (micro_clockTick _), fun h => ?_⟩
  obtain ⟨hw', q, c, hget', hq, hc, hagree⟩ :=
    h core (Machine.mem_cores_of_core? hcore) 0 hcount
  obtain rfl := Option.some.inj (hget.symm.trans hget')
  obtain rfl := Option.some.inj (hp.symm.trans hq)
  rw [hc] at hcopy
  have httl : c.ttl = 10 := Option.some.inj hcopy
  generalize (clockTick (schedulerPass s)).pcbs.get p = pcb at hlive hagree
  have hsame : c.ttl = pcb.ttl := congrArg (fun fields => fields.2.2.1) hagree
  rw [httl, hlive] at hsame
  cases hsame

end LocOS
