import LocOS.Estimate
import LocOS.Quantum
import LocOS.Supply

/-!
# Timely

How long the clock may run ahead of the scheduler. A tick executes an
instruction of every process on a hardware thread that has not terminated,
whatever its TTL; only a pass takes off the processes whose TTL is used up. As
long as the ticks between two passes are fewer than the TTL the first of them
has left any process that executes, the TTL is a limit; the first tick too
many executes an instruction of a process whose TTL is used up.
-/

namespace LocOS

open scoped List

/-! ## Ticks since the last pass -/

/-- A running system, the state in which the last pass has left it, and the
number of ticks since; before the first pass, since the start. -/
structure Timed where
  sys : Sys
  passed : Sys
  ticks : Nat

/-- The step, with the account kept. -/
def Timed.next (t : Timed) : Action → Timed
  | .tick => { t with sys := clockTick t.sys, ticks := t.ticks + 1 }
  | .pass => { sys := schedulerPass t.sys, passed := schedulerPass t.sys, ticks := 0 }

/-- The runs of `programRuns`, with the ticks counted. -/
def timedRuns (cfg : Config) (programs : List Program) : Runs Timed Action where
  init t := ∃ s, boot (cfg.load programs) (loadedPcbs cfg programs) = some s ∧ t = ⟨s, s, 0⟩
  step t a t' := t' = t.next a

/-- Counting the ticks changes no run. -/
theorem reachable_iff_timed {cfg : Config} {programs : List Program} {s : Sys} :
    (programRuns cfg programs).Reachable s ↔
      ∃ t, (timedRuns cfg programs).Reachable t ∧ t.sys = s := by
  constructor
  · intro h
    induction h with
    | init hb => exact ⟨_, .init ⟨_, hb, rfl⟩, rfl⟩
    | step _ hstep ih =>
        rename_i a _
        obtain ⟨t, ht, rfl⟩ := ih
        refine ⟨_, ht.step (a := a) rfl, ?_⟩
        rw [hstep]
        cases a <;> rfl
  · rintro ⟨t, ht, rfl⟩
    refine ht.invariant (fun t => (programRuns cfg programs).Reachable t.sys) ?_ ?_
    · rintro t ⟨s, hb, rfl⟩
      exact .init hb
    · rintro t a t' h rfl
      cases a
      · exact h.step (a := .tick) rfl
      · exact h.step (a := .pass) rfl

/-! ## What a tick executes -/

/-- All hardware threads, in CPU and core order. -/
def Machine.threads (m : Machine) : List HardwareThread := m.cores.flatMap Core.hwThreads

/-- A hardware thread, counted or not, holds the process with a page table. -/
def Machine.Translates (m : Machine) (p : PcbPtr) : Prop :=
  ∃ hw ∈ m.threads, hw.pcb = some p ∧ hw.ptbr ≠ none

/-- The next tick executes an instruction of the process. -/
structure Sys.Executing (s : Sys) (p : PcbPtr) : Prop where
  connected : s.clockPmRef.isSome
  live : (s.pcbs.get p).state ≠ .terminated
  thread : s.machine.Translates p

instance (s : Sys) (p : PcbPtr) : Decidable (s.Executing p) :=
  decidable_of_iff (s.clockPmRef.isSome ∧ (s.pcbs.get p).state ≠ .terminated ∧
      ∃ hw ∈ s.machine.threads, hw.pcb = some p ∧ hw.ptbr ≠ none)
    ⟨fun ⟨h, h', h''⟩ => ⟨h, h', h''⟩, fun h => ⟨h.connected, h.live, h.thread⟩⟩

/-- What the next tick adds to the log. -/
def Sys.tickEvents (s : Sys) : List Event := (clockTick s).log.drop s.log.length

/-- The next tick executes no instruction of a process whose TTL is used up
when it starts. -/
def Spares (s : Sys) : Prop :=
  ∀ p pid instruction, Event.exec p pid instruction ∈ s.tickEvents → 0 < (s.pcbs.get p).ttl

namespace Machine

theorem pointers_eq_threads (m : Machine) : m.pointers = m.threads.filterMap HardwareThread.pcb :=
  List.filterMap_flatMap.symm

/-- The thread of a slot among all threads. -/
theorem split_threads {m : Machine} {i j k : Nat} {core : Core} {hw : HardwareThread}
    (hcore : m.core? i j = some core) (hk : core.hwThreads[k]? = some hw) :
    ∃ pre post, m.threads = pre ++ hw :: post ∧
      ∀ hw', (m.setCore i j (core.setThread k hw')).threads = pre ++ hw' :: post := by
  obtain ⟨pre, post, hm, hset⟩ := split_core hcore
  obtain ⟨pre', post', hl, hset'⟩ := List.split_set hk
  refine ⟨pre.flatMap Core.hwThreads ++ pre', post' ++ post.flatMap Core.hwThreads, ?_,
    fun hw' => ?_⟩
  · simp [threads, hm, hl]
  · simp [threads, hset, Core.setThread, hset']

/-- A write that keeps the process and the table of its thread. -/
theorem translates_setThread {m : Machine} {i j k : Nat} {core : Core} {hw hw' : HardwareThread}
    (hcore : m.core? i j = some core) (hk : core.hwThreads[k]? = some hw)
    (hpcb : hw'.pcb = hw.pcb) (hptbr : hw'.ptbr = hw.ptbr) (p : PcbPtr) :
    (m.setCore i j (core.setThread k hw')).Translates p ↔ m.Translates p := by
  obtain ⟨pre, post, hm, hset⟩ := split_threads hcore hk
  simp only [Translates, hm, hset, List.mem_append, List.mem_cons, or_and_right, exists_or,
    exists_eq_left, hpcb, hptbr]

/-- The thread of a process is the only one that holds it. -/
theorem translates_iff {m : Machine} (hnd : m.pointers.Nodup) {i j k : Nat} {core : Core}
    {hw : HardwareThread} {p : PcbPtr} (hslot : m.slot? i j k = some (core, hw, p)) :
    m.Translates p ↔ hw.ptbr ≠ none := by
  obtain ⟨hcore, hk, hp⟩ := slot?_eq_some.mp hslot
  obtain ⟨pre, post, hm, _⟩ := split_threads hcore hk
  constructor
  · rintro ⟨hw', hmem, hp', hne⟩
    rw [pointers_eq_threads, hm, List.filterMap_append, List.filterMap_cons_some hp] at hnd
    have hperm := (List.perm_middle (a := p)).nodup_iff.mp hnd
    have hout := (List.nodup_cons.mp hperm).1
    rw [← List.filterMap_append] at hout
    rw [hm] at hmem
    rcases List.mem_cons.mp (List.perm_middle.mem_iff.mp hmem) with rfl | hmem
    · exact hne
    · exact absurd (List.mem_filterMap.mpr ⟨hw', hmem, hp'⟩) hout
  · intro hne
    refine ⟨hw, ?_, hp, hne⟩
    rw [hm]
    exact List.mem_append_right _ (List.mem_cons_self ..)

/-- On a compact machine the threads in use are the counted ones. -/
theorem Translates.running {m : Machine} {p : PcbPtr} (h : m.Translates p) (hc : m.Compact) :
    p ∈ m.running := by
  obtain ⟨hw, hmem, hp, _⟩ := h
  rw [← hc.pointers_eq, pointers_eq_threads]
  exact List.mem_filterMap.mpr ⟨hw, hmem, hp⟩

end Machine

section
variable (e : ExecState) {p q : PcbPtr} (instruction : Word)

theorem get_executeInstruction_ne (hqp : q ≠ p) :
    (executeInstruction e p instruction).pcbs.get q = e.pcbs.get q := by
  rw [executeInstruction_pcbs]
  split
  · exact PcbHeap.get_set_ne _ hqp _
  · rfl

theorem live_executeInstruction :
    (executeInstruction e p instruction).pcbs.Live q ↔ e.pcbs.Live q := by
  rw [executeInstruction_pcbs]
  split
  · exact PcbHeap.live_set ..
  · rfl

/-- An instruction that does not end its process leaves its PCB as it is. -/
theorem get_executeInstruction_self (hlive : e.pcbs.Live p)
    (h : ((executeInstruction e p instruction).pcbs.get p).state ≠ .terminated) :
    (executeInstruction e p instruction).pcbs.get p = e.pcbs.get p := by
  rw [executeInstruction_pcbs] at h ⊢
  split at h
  · exact absurd (congrArg PCB.state (PcbHeap.get_set_self hlive _)) h
  · rename_i hhalts
    rw [if_neg hhalts]

end

/-- What the visit of the thread of `p` makes of `s`. -/
structure ThreadVisited (s : Sys) (p : PcbPtr) (t : Sys) : Prop where
  sched : t.sched = s.sched
  others : ∀ q, q ≠ p → t.pcbs.get q = s.pcbs.get q
  live : ∀ q, t.pcbs.Live q ↔ s.pcbs.Live q
  connected : t.clockPmRef.isSome = s.clockPmRef.isSome
  translates : ∀ q, t.machine.Translates q ↔ s.machine.Translates q
  paid : (t.pcbs.get p).state ≠ .terminated → (s.pcbs.get p).state ≠ .terminated ∧
    (t.pcbs.get p).ttl = (s.pcbs.get p).decrementTtl.ttl
  log : (s.Executing p ∧ ∃ pid instruction, t.log = s.log ++ [.exec p pid instruction]) ∨
    (¬ s.Executing p ∧ t.log = s.log)

theorem tickThread_visited {s : Sys} (hnd : s.machine.pointers.Nodup) {i j k : Nat} {core : Core}
    {hw : HardwareThread} {p : PcbPtr} (hslot : s.machine.slot? i j k = some (core, hw, p))
    (hlive : s.pcbs.Live p) : ThreadVisited s p (tickThread i j k s) := by
  have hage : (s.pcbs.age p).get p = (s.pcbs.get p).decrementTtl := PcbHeap.get_set_self hlive _
  have hstate : ((s.pcbs.age p).get p).state = (s.pcbs.get p).state := by
    rw [hage, PCB.decrementTtl_state]
  have hothers : ∀ q, q ≠ p → (s.pcbs.age p).get q = s.pcbs.get q := fun q hqp =>
    PcbHeap.get_set_ne _ hqp _
  have hpaid : ((s.pcbs.age p).get p).state ≠ .terminated → (s.pcbs.get p).state ≠ .terminated ∧
      ((s.pcbs.age p).get p).ttl = (s.pcbs.get p).decrementTtl.ttl := fun hst =>
    ⟨hstate ▸ hst, by rw [hage]⟩
  rcases tickThread_cases i j k s with
    ⟨hnone, _⟩ | ⟨core', hw', p', hslot', hidle, he⟩ |
      ⟨core', hw', p', pm, base, hslot', hpm, hst, hbase, he⟩
  · rw [hslot] at hnone
    cases hnone
  · obtain ⟨rfl, rfl, rfl⟩ : core = core' ∧ hw = hw' ∧ p = p' := by
      simpa using hslot.symm.trans hslot'
    rw [he]
    refine ⟨rfl, hothers, s.pcbs.live_age p, rfl, fun _ => Iff.rfl, hpaid,
      .inr ⟨fun hexec => ?_, rfl⟩⟩
    rcases hidle with hnone | hst | hptbr
    · have hsome := hexec.connected
      rw [hnone] at hsome
      cases hsome
    · exact hexec.live (hstate.symm.trans hst)
    · exact (Machine.translates_iff hnd hslot).mp hexec.thread hptbr
  · obtain ⟨rfl, rfl, rfl⟩ : core = core' ∧ hw = hw' ∧ p = p' := by
      simpa using hslot.symm.trans hslot'
    obtain ⟨hcore, hk, _⟩ := Machine.slot?_eq_some.mp hslot
    have hagedLive : (s.pcbs.age p).Live p := (s.pcbs.live_age p p).mpr hlive
    have hptbr : hw.ptbr ≠ none := by
      rw [hbase]
      exact Option.some_ne_none _
    rw [he]
    refine ⟨rfl, fun q hqp => ?_, fun q => ?_, by rw [hpm]; rfl,
      Machine.translates_setThread hcore hk (executeInstruction_hw_pcb ..)
        (executeInstruction_hw_ptbr ..), fun hrun => ?_, .inl ⟨⟨?_, ?_, ?_⟩, _, _, exec_log⟩⟩
    · exact (get_executeInstruction_ne _ _ hqp).trans (hothers q hqp)
    · exact (live_executeInstruction _ _).trans (s.pcbs.live_age p q)
    · have hsame := get_executeInstruction_self _ _ hagedLive hrun
      have hget : ((executeInstruction _ _ _).pcbs.get p).ttl = _ := congrArg PCB.ttl hsame
      have hgoes := (congrArg PCB.state hsame).symm.trans_ne hrun
      exact ⟨(hpaid hgoes).1, hget.trans (hpaid hgoes).2⟩
    · rw [hpm]
      rfl
    · exact hstate ▸ hst
    · exact (Machine.translates_iff hnd hslot).mpr hptbr

/-- Between two visits of a tick that began in `s`, with the processes `todo`
still to visit. -/
structure Ticking (s : Sys) (todo : List PcbPtr) (t : Sys) : Prop where
  nodup : todo.Nodup
  sched : t.sched = s.sched
  running : t.running = s.running
  untouched : ∀ p, p ∈ todo ∨ p ∉ s.running → t.pcbs.get p = s.pcbs.get p
  live : ∀ p, t.pcbs.Live p ↔ s.pcbs.Live p
  connected : t.clockPmRef.isSome = s.clockPmRef.isSome
  translates : ∀ p, t.machine.Translates p ↔ s.machine.Translates p
  paid : ∀ p ∈ s.running, p ∉ todo → (t.pcbs.get p).state ≠ .terminated →
    (s.pcbs.get p).state ≠ .terminated ∧ (t.pcbs.get p).ttl = (s.pcbs.get p).decrementTtl.ttl
  log : ∃ events, t.log = s.log ++ events ∧ ∀ p,
    (∃ pid instruction, Event.exec p pid instruction ∈ events) ↔
      s.Executing p ∧ p ∈ s.running ∧ p ∉ todo

namespace Ticking

variable {s t : Sys} {todo : List PcbPtr}

theorem executing_iff (h : Ticking s todo t) {p : PcbPtr} (hp : p ∈ todo) :
    t.Executing p ↔ s.Executing p := by
  have hget := h.untouched p (.inl hp)
  constructor
  · rintro ⟨hconnected, hlive, hthread⟩
    exact ⟨h.connected ▸ hconnected, hget ▸ hlive, (h.translates p).mp hthread⟩
  · rintro ⟨hconnected, hlive, hthread⟩
    exact ⟨h.connected.symm ▸ hconnected, hget.symm ▸ hlive, (h.translates p).mpr hthread⟩

theorem pointers (h : Ticking s todo t) (hrunning : s.running.Nodup) (hc : t.machine.Compact) :
    t.machine.pointers.Nodup := by
  rw [hc.pointers_eq]
  show t.running.Nodup
  rw [h.running]
  exact hrunning

theorem visit {p : PcbPtr} (h : Ticking s (p :: todo) t) (hrunning : s.running.Nodup)
    (hlive : ∀ q ∈ s.running, s.pcbs.Live q) (hc : t.machine.Compact) {i j k : Nat} {core : Core}
    {hw : HardwareThread} (hslot : t.machine.slot? i j k = some (core, hw, p)) :
    Ticking s todo (tickThread i j k t) := by
  have hpointers := h.pointers hrunning hc
  have hmem : p ∈ s.running := h.running ▸ Machine.mem_running_of_slot hc hslot
  have hvisited := tickThread_visited hpointers hslot ((h.live p).mpr (hlive p hmem))
  have hsame := h.untouched p (.inl (List.mem_cons_self ..))
  have hexecuting := h.executing_iff (List.mem_cons_self ..)
  obtain ⟨hout, hnd⟩ := List.nodup_cons.mp h.nodup
  obtain ⟨events, hlog, hevents⟩ := h.log
  have hcons : ∀ q, q ≠ p → (q ∉ p :: todo ↔ q ∉ todo) := fun q hqp => by
    rw [List.mem_cons, or_iff_right hqp]
  refine ⟨hnd, hvisited.sched.trans h.sched, (tickThread_machine hc i j k).2.trans h.running,
    fun q hq => ?_, fun q => (hvisited.live q).trans (h.live q),
    hvisited.connected.trans h.connected,
    fun q => (hvisited.translates q).trans (h.translates q), fun q hq hnot hst => ?_, ?_⟩
  · have hqp : q ≠ p := by
      rintro rfl
      exact hq.elim hout fun hn => hn hmem
    rw [hvisited.others q hqp]
    exact h.untouched q (hq.imp_left (List.mem_cons_of_mem p))
  · by_cases hqp : q = p
    · subst hqp
      rw [← hsame]
      exact hvisited.paid hst
    · rw [hvisited.others q hqp] at hst ⊢
      exact h.paid q hq ((hcons q hqp).mpr hnot) hst
  · rcases hvisited.log with ⟨hexec, pid, instruction, he⟩ | ⟨hidle, he⟩
    · refine ⟨events ++ [.exec p pid instruction], ?_, fun q => ?_⟩
      · rw [he, hlog, List.append_assoc]
      · by_cases hqp : q = p
        · subst hqp
          exact iff_of_true ⟨pid, instruction, List.mem_append_right _ (List.mem_singleton_self _)⟩
            ⟨hexecuting.mp hexec, hmem, hout⟩
        · have hq := hevents q
          rw [hcons q hqp] at hq
          rw [← hq]
          simp [hqp]
    · refine ⟨events, he.trans hlog, fun q => ?_⟩
      rw [hevents q]
      by_cases hqp : q = p
      · subst hqp
        exact iff_of_false (fun hq => hq.2.2 (List.mem_cons_self ..))
          fun hq => hidle (hexecuting.mpr hq.1)
      · rw [hcons q hqp]

theorem start (hrunning : s.running.Nodup) : Ticking s s.machine.running (s.micro .count) where
  nodup := hrunning
  sched := rfl
  running := rfl
  untouched := fun _ _ => rfl
  live := fun _ => Iff.rfl
  connected := rfl
  translates := fun _ => Iff.rfl
  paid := fun _ hp hnot => absurd hp hnot
  log := by
    refine ⟨[.tick (s.clkCounter + 1)], rfl, fun p => iff_of_false ?_ fun hp => hp.2.2 hp.2.1⟩
    rintro ⟨pid, instruction, hmem⟩
    cases List.mem_singleton.mp hmem

end Ticking

/-- What a tick does to the processes on the hardware threads. -/
theorem clockTick_ticking {s : Sys} (hrunning : s.running.Nodup)
    (hlive : ∀ p ∈ s.running, s.pcbs.Live p) (hc : s.machine.Compact) :
    Ticking s [] (clockTick s) :=
  (clockTick_visits (Ticking s) (fun _ _ _ _ _ _ _ _ hct hslot ht =>
    ht.visit hrunning hlive hct hslot) hc (.start hrunning)).1

/-- The account of the TTL over a tick that finds no process executing whose
TTL is used up. -/
theorem Lifetime.clockTick {pcbs : List PCB} {s : Sys} (h : Lifetime pcbs s)
    (hrunning : s.running.Nodup) (hlive : ∀ p ∈ s.running, s.pcbs.Live p)
    (hc : s.machine.Compact) (hleft : ∀ p, s.Executing p → 0 < (s.pcbs.get p).ttl) :
    Lifetime pcbs (LocOS.clockTick s) := by
  have hvisits := clockTick_visits (fun todo t => Ticking s todo t ∧ Lifetime pcbs t)
    (fun todo i j k t core hw p hct hslot ⟨ht, hlife⟩ => ?_) hc
    ⟨.start hrunning, h.micro (a := .count) trivial⟩
  · exact hvisits.1.2
  · refine ⟨ht.visit hrunning hlive hct hslot, hlife.tickThread fun q e hcycle hexec => ?_⟩
    obtain ⟨core', hw', pm, hslot', hpm, rfl⟩ := Sys.cycle?_eq_some.mp hcycle
    obtain ⟨rfl, rfl, rfl⟩ : core = core' ∧ hw = hw' ∧ p = q := by
      simpa using hslot.symm.trans hslot'
    rw [ht.untouched p (.inl (List.mem_cons_self ..))]
    refine hleft p ((ht.executing_iff (List.mem_cons_self ..)).mp ⟨by rw [hpm]; rfl, ?_, ?_⟩)
    · have hlive' := hexec.live
      rwa [show ((t.exec hw pm p).pcbs.get p).state = (t.pcbs.get p).state from
        PcbHeap.get_set_congr PCB.state t.pcbs (PCB.decrementTtl_state _) p] at hlive'
    · exact (Machine.translates_iff (ht.pointers hrunning hct) hslot).mpr hexec.ptbr

/-! ## The limit -/

/-- Since the last pass there have been fewer ticks than the TTL it left any
process that the next tick executes. The removals of a pass under BFS fit. -/
def Timely (t : Timed) : Action → Prop
  | .tick => ∀ p ∈ t.sys.machine.pointers, t.sys.Executing p → 0 < t.ticks →
      (t.ticks : Int) < (t.passed.pcbs.get p).ttl
  | .pass => t.sys.sched.policy = .bfs → RemovalsFit t.sys .pass

instance (t : Timed) : (a : Action) → Decidable (Timely t a)
  | .tick => inferInstanceAs (Decidable (∀ p ∈ t.sys.machine.pointers, t.sys.Executing p →
      0 < t.ticks → (t.ticks : Int) < (t.passed.pcbs.get p).ttl))
  | .pass => inferInstanceAs (Decidable (t.sys.sched.policy = .bfs → RemovalsFit t.sys .pass))

/-- What a timely run keeps: since the last pass every process that executes
has paid for every tick. -/
structure InTime (policy : Policy) (threads : Nat) (pcbs : List PCB) (t : Timed) : Prop where
  supplied : Supplied policy threads pcbs (· ∈ t.sys.running) t.sys
  compact : t.sys.machine.Compact
  left : ∀ p, t.sys.Executing p →
    (t.sys.pcbs.get p).ttl = (t.passed.pcbs.get p).ttl - t.ticks
  refilled : t.ticks = 0 → ∀ p, t.sys.Executing p → 0 < (t.sys.pcbs.get p).ttl

namespace Supplied

variable {policy : Policy} {threads : Nat} {pcbs : List PCB} {late : PcbPtr → Prop} {s : Sys}

theorem running (h : Supplied policy threads pcbs late s) (hc : s.machine.Compact) :
    s.running.Nodup ∧ ∀ p ∈ s.running, s.pcbs.Live p := by
  refine ⟨(h.nodup hc).of_append_left, fun p hp => h.safe.owned.heldLive p ?_⟩
  rw [List.nil_append, Sys.references, hc.pointers_eq]
  exact List.mem_append_left _ hp

/-- Only loaded processes execute. -/
theorem executing (h : Supplied policy threads pcbs late s) (hc : s.machine.Compact) {p : PcbPtr}
    (hexec : s.Executing p) : p ∈ s.running ∧ p < pcbs.length := by
  refine ⟨hexec.thread.running hc, ?_⟩
  obtain ⟨hw, hmem, hp, hptbr⟩ := hexec.thread
  obtain ⟨core, hcore, hhw⟩ := List.mem_flatMap.mp hmem
  by_contra hge
  exact hptbr (h.life.references.threads core hcore hw hhw p hp (Nat.le_of_not_lt hge))

/-- A tick spares those whose TTL is used up if and only if none of them is on
a hardware thread and goes on. -/
theorem spares_iff (h : Supplied policy threads pcbs late s) (hc : s.machine.Compact) :
    Spares s ↔ ∀ p, s.Executing p → 0 < (s.pcbs.get p).ttl := by
  obtain ⟨hnd, hlive⟩ := h.running hc
  obtain ⟨events, hlog, hevents⟩ := (clockTick_ticking hnd hlive hc).log
  have hsame : s.tickEvents = events := by
    rw [Sys.tickEvents, hlog, List.drop_left]
  unfold Spares
  rw [hsame]
  constructor
  · intro hspares p hexec
    obtain ⟨pid, instruction, hmem⟩ := (hevents p).mpr
      ⟨hexec, (h.executing hc hexec).1, List.not_mem_nil⟩
    exact hspares p pid instruction hmem
  · intro hleft p pid instruction hmem
    exact hleft p ((hevents p).mp ⟨pid, instruction, hmem⟩).1

theorem clockTick (h : Supplied policy threads pcbs (· ∈ s.running) s) (hc : s.machine.Compact)
    (hleft : ∀ p, s.Executing p → 0 < (s.pcbs.get p).ttl) :
    Supplied policy threads pcbs (· ∈ (LocOS.clockTick s).running) (LocOS.clockTick s) := by
  obtain ⟨hnd, hlive⟩ := h.running hc
  have hticking := clockTick_ticking hnd hlive hc
  refine ⟨h.safe.clockTick, h.life.clockTick hnd hlive hc hleft,
    clockTick_inv Ranges ⟨h.ranges.heap, h.ranges.copies⟩ fun i j k _ ht => ht.tickThread i j k,
    fun p hp hloaded hnot => ?_⟩
  have hout : p ∉ s.running := hticking.running ▸ hnot
  have hwaits : p ∈ s.places := by
    have hw := (List.mem_append.mp hp).resolve_left hnot
    rw [Sys.waiting, hticking.sched] at hw
    exact List.mem_append_right _ hw
  rw [hticking.untouched p (.inr hout)]
  exact h.left p hwaits hloaded hout

end Supplied

/-- What the loader gives every process. -/
theorem Booted.header {cfg : Config} {programs : List Program}
    (hloads : ∀ program ∈ programs, ∃ file draw, loadProgramFromElf file draw = some program)
    {s : Sys} (hb : Booted (cfg.load programs) (loadedPcbs cfg programs) s) (p : PcbPtr)
    (hp : s.pcbs.Live p) : (s.pcbs.get p).InRange ∧ 0 < (s.pcbs.get p).ttl := by
  rw [hb.heap] at hp ⊢
  have hget := List.getElem?_eq_getElem (live_bootHeap.mp hp)
  obtain ⟨program, pid, base, hloaded, hpcb, _⟩ := loadedPcbs_getElem? hget
  obtain ⟨file, draw, hload⟩ :=
    hloads program (createProcesses_program (List.mem_of_getElem? hloaded))
  obtain ⟨_, httl, _⟩ := loaded_header hload
  rw [get_bootHeap hget, hpcb]
  refine ⟨loaded_priority hload, ?_⟩
  show 0 < program.ttl.toInt
  rw [httl, toInt_estimatedTtl]
  have hlow := (estimatedTtl_bounds program.codeSize).1
  omega

/-- `create_machine` leaves no copy of a process. -/
theorem Machine.createMachine_pcbs {numCpus numCores numThreads : Nat} {core : Core} {pcb : PCB}
    (hcore : core ∈ (createMachine numCpus numCores numThreads).cores) (hmem : pcb ∈ core.pcbs) :
    pcb = default := by
  obtain ⟨cpu, hcpu, hcore⟩ := List.mem_flatMap.mp hcore
  rw [List.eq_of_mem_replicate hcpu] at hcore
  rw [List.eq_of_mem_replicate hcore] at hmem
  exact List.eq_of_mem_replicate hmem

namespace InTime

variable {policy : Policy} {threads : Nat} {pcbs : List PCB} {t : Timed}

theorem timely_iff (h : InTime policy threads pcbs t) :
    Timely t .tick ↔ ∀ p, t.sys.Executing p → 0 < (t.sys.pcbs.get p).ttl := by
  constructor
  · intro htimely p hexec
    rcases Nat.eq_zero_or_pos t.ticks with hzero | hpos
    · exact h.refilled hzero p hexec
    · have hmem : p ∈ t.sys.machine.pointers := by
        rw [h.compact.pointers_eq]
        exact (h.supplied.executing h.compact hexec).1
      have hlt := htimely p hmem hexec hpos
      have hleft := h.left p hexec
      omega
  · intro hleft p _ hexec _
    have hpos := hleft p hexec
    rw [h.left p hexec] at hpos
    omega

theorem tick (h : InTime policy threads pcbs t) (htimely : Timely t .tick) :
    InTime policy threads pcbs (t.next .tick) := by
  obtain ⟨hnd, hlive⟩ := h.supplied.running h.compact
  have hticking := clockTick_ticking hnd hlive h.compact
  have hpos := h.timely_iff.mp htimely
  refine ⟨h.supplied.clockTick h.compact hpos, ?_, fun p hexec => ?_,
    fun hzero => absurd hzero (Nat.succ_ne_zero _)⟩
  · exact clockTick_inv (fun s => s.machine.Compact) h.compact
      fun i j k _ hc => (tickThread_machine hc i j k).1
  · -- a process that executes after the tick has paid for it
    have hthread := (hticking.translates p).mp hexec.thread
    have hconnected : t.sys.clockPmRef.isSome := hticking.connected ▸ hexec.connected
    obtain ⟨hstate, hpaid⟩ :=
      hticking.paid p (hthread.running h.compact) List.not_mem_nil hexec.live
    have hbefore : t.sys.Executing p := ⟨hconnected, hstate, hthread⟩
    have hdecrement : (t.sys.pcbs.get p).decrementTtl.ttl = (t.sys.pcbs.get p).ttl - 1 := by
      rw [PCB.decrementTtl, if_pos (hpos p hbefore)]
    show ((clockTick t.sys).pcbs.get p).ttl = (t.passed.pcbs.get p).ttl - (t.ticks + 1 : Nat)
    rw [hpaid, hdecrement, h.left p hbefore]
    omega

theorem pass (h : InTime policy threads pcbs t) (htimely : Timely t .pass) :
    InTime policy threads pcbs (t.next .pass) := by
  obtain ⟨hsupplied, hcompact⟩ := h.supplied.pass h.compact fun hpol =>
    htimely (h.supplied.safe.samePolicy.trans hpol)
  refine ⟨hsupplied.mono fun _ _ hf => hf.elim, hcompact, fun p _ => (Int.sub_zero _).symm,
    fun _ p hexec => ?_⟩
  obtain ⟨hrunning, hloaded⟩ := hsupplied.executing hcompact hexec
  exact hsupplied.left p (List.mem_append_left _ hrunning) hloaded not_false

theorem start {cfg : Config} {programs : List Program} {numCpus numCores numThreads : Nat}
    (hmachine : cfg.machine = createMachine numCpus numCores numThreads)
    (hloads : ∀ program ∈ programs, ∃ file draw, loadProgramFromElf file draw = some program)
    {s : Sys} (hb : boot (cfg.load programs) (loadedPcbs cfg programs) = some s) :
    InTime cfg.policy cfg.machine.threadCount (loadedPcbs cfg programs) ⟨s, s, 0⟩ := by
  have hbooted := boot_spec hb
  have hidle : cfg.machine.Idle := by
    rw [hmachine]
    exact Machine.createMachine_idle numCpus numCores numThreads
  have hrunning : s.running = [] := by
    rw [Sys.running, hbooted.machine]
    exact hidle.running
  have hcompact : s.machine.Compact := hbooted.machine ▸ hidle.compact
  have hheader := hbooted.header hloads
  have hsafe : HeapSafe (cfg.load programs).policy (cfg.load programs).machine.threadCount [] s :=
    .boot hbooted hidle
  have hexecuting : ∀ p, ¬ s.Executing p := by
    intro p hexec
    have hmem : p ∈ s.running := hexec.thread.running hcompact
    rw [hrunning] at hmem
    cases hmem
  refine ⟨⟨hsafe, .boot hbooted hidle loadedPcbs_ttl, ⟨fun p hp => (hheader p hp).1, ?_⟩,
    fun p hp _ _ => (hheader p ?_).2⟩, hcompact, fun p hexec => absurd hexec (hexecuting p),
    fun _ p hexec => absurd hexec (hexecuting p)⟩
  · intro core hcore pcb hmem
    rw [hbooted.machine] at hcore
    have hcore : core ∈ (createMachine numCpus numCores numThreads).cores := hmachine ▸ hcore
    rw [Machine.createMachine_pcbs hcore hmem]
    exact default_inRange
  · refine hsafe.owned.heldLive p ?_
    rw [List.nil_append, Sys.references, hcompact.pointers_eq]
    exact hp

end InTime

/-- In every run in which the ticks between two passes are fewer than the TTL
the first pass has left any process that executes, the TTL of a process bounds
the instructions executed for its PID; and a tick finds nobody executing whose
TTL is used up exactly as long as it meets that condition. -/
theorem ttl_hard_limit {cfg : Config} {programs : List Program}
    {numCpus numCores numThreads : Nat}
    (hmachine : cfg.machine = createMachine numCpus numCores numThreads)
    (hloads : ∀ program ∈ programs, ∃ file draw, loadProgramFromElf file draw = some program)
    {t : Timed} (ht : ((timedRuns cfg programs).restrict Timely).Reachable t) :
    TtlBound (loadedPcbs cfg programs) t.sys.log ∧ (Timely t .tick ↔ Spares t.sys) := by
  have h : InTime cfg.policy cfg.machine.threadCount (loadedPcbs cfg programs) t := by
    refine ht.invariant (InTime cfg.policy cfg.machine.threadCount (loadedPcbs cfg programs)) ?_ ?_
    · rintro t ⟨s, hb, rfl⟩
      exact .start hmachine hloads hb
    · rintro t a t' h ⟨htimely, rfl⟩
      cases a with
      | tick => exact h.tick htimely
      | pass => exact h.pass htimely
  exact ⟨h.supplied.life.ttlBound (loadedPcbs_nodup cfg programs),
    h.timely_iff.trans (h.supplied.spares_iff h.compact).symm⟩

/-- `.text 0` and one ADD: the loader gives it the TTL 10, and behind it the
page holds zeros, which are LD instructions. -/
def oneAdd : List Char :=
  textDirective ++ [' ', '0', '\n', '2', '0', '0', '0', '0', '0', '0', '0', '\n']

/-- What the loader makes of it, the priority drawn being 0. -/
def oneAddProgram : List Program := (loadProgramFromElf oneAdd 20).toList

/-- `-sync 1` with a timer every eleven ticks. -/
def elevenTicks : Config := { oneCore 1 .roundRobin 11 with syncMode := .timer }

/-- Ten ticks after the scheduler's first pass the TTL is used up, and the
eleventh executes an instruction all the same. -/
theorem ttl_hard_limit_oneAdd : ∃ t,
    ((timedRuns elevenTicks oneAddProgram).restrict Timely).Reachable t ∧
      executions t.sys.log 1 = 10 ∧ TtlBound (loadedPcbs elevenTicks oneAddProgram) t.sys.log ∧
      ¬ Spares t.sys := by
  have hrun : (boot (elevenTicks.load oneAddProgram)
      (loadedPcbs elevenTicks oneAddProgram)).any (fun s =>
        (Runs.follow Timely Timed.next (.pass :: List.replicate 10 .tick) ⟨s, s, 0⟩).any
          fun t => decide (¬ Timely t .tick ∧ executions t.sys.log 1 = 10)) = true := by
    decide +kernel
  obtain ⟨s, hs, hfollow⟩ := (Option.any_eq_true ..).mp hrun
  obtain ⟨t, ht, hcheck⟩ := (Option.any_eq_true ..).mp hfollow
  obtain ⟨hlate, hcount⟩ := of_decide_eq_true hcheck
  have hboot := Runs.Reachable.init
    (S := (timedRuns elevenTicks oneAddProgram).restrict Timely) ⟨s, hs, rfl⟩
  have hreach : ((timedRuns elevenTicks oneAddProgram).restrict Timely).Reachable t :=
    hboot.follow ht
  have hmachine : elevenTicks.machine = createMachine 1 1 1 := rfl
  obtain ⟨hbound, hspares⟩ := ttl_hard_limit hmachine
    (fun program hmem => ⟨oneAdd, 20, Option.mem_toList.mp hmem⟩) hreach
  exact ⟨t, hreach, hcount, hbound, mt hspares.mpr hlate⟩

/-- Eleven instructions for a TTL of ten. -/
theorem ttl_exceeded : ∃ t, (timedRuns elevenTicks oneAddProgram).Reachable t ∧
    ¬ TtlBound (loadedPcbs elevenTicks oneAddProgram) t.sys.log := by
  have hrun : (boot (elevenTicks.load oneAddProgram)
      (loadedPcbs elevenTicks oneAddProgram)).any (fun s =>
        decide (executions ((.pass :: List.replicate 11 .tick).foldl Timed.next
          ⟨s, s, 0⟩).sys.log 1 = 11)) = true := by
    decide +kernel
  obtain ⟨s, hs, hcheck⟩ := (Option.any_eq_true ..).mp hrun
  have hcount := of_decide_eq_true hcheck
  have hboot := Runs.Reachable.init (S := timedRuns elevenTicks oneAddProgram) ⟨s, hs, rfl⟩
  refine ⟨_, hboot.foldl (fun _ _ => rfl) (.pass :: List.replicate 11 .tick), fun hbound => ?_⟩
  have httl : ∀ pcb ∈ loadedPcbs elevenTicks oneAddProgram, pcb.initialTtl = 10 := by
    decide +kernel
  obtain ⟨pcb, hmem, _, hle⟩ := hbound 1 (by rw [hcount]; decide)
  rw [httl pcb hmem] at hle
  exact absurd (hcount.symm.trans_le hle) (by decide)

end LocOS
