import LocOS.Handshake
import LocOS.Isolation
import LocOS.RoundRobin

/-!
# Quantum

The quantum in `SCHED_SYNC_CLOCK` mode. The clock executes one instruction of
every busy thread at a tick; the scheduler counts one against the quantum in
its pass, which it makes when it finds the counter changed. A pass for every
tick keeps the two in step. Nothing makes the clock wait for that pass: it
waits for a timer.
-/

namespace LocOS

open scoped List

/-! ## The visits of a tick -/

namespace Machine

/-- The executing processes of some cores. -/
def runningOf (m : Machine) (ijs : List (Nat × Nat)) : List PcbPtr :=
  ijs.flatMap fun ij => ((m.core? ij.1 ij.2).map Core.running).getD []

theorem runningOf_coreIndices (m : Machine) : m.runningOf m.coreIndices = m.running :=
  m.flatMap_coreIndices Core.running

end Machine

/-- A visit of a tick leaves the processes of every core where they are. -/
theorem tickThread_core {s : Sys} (hc : s.machine.Compact) (i j k : Nat) :
    (tickThread i j k s).machine.Compact ∧
      ∀ (ij : Nat × Nat), ((tickThread i j k s).machine.core? ij.1 ij.2).map Core.running =
        (s.machine.core? ij.1 ij.2).map Core.running := by
  have hcompact := (tickThread_machine hc i j k).1
  refine ⟨hcompact, fun ij => ?_⟩
  rcases tickThread_cases i j k s with
    ⟨_, he⟩ | ⟨core, hw, p, _, _, he⟩ | ⟨core, hw, p, pm, base, hslot, _, _, _, he⟩
  · rw [he]
  · rw [he]
  · obtain ⟨hcore, hk, hp⟩ := Machine.slot?_eq_some.mp hslot
    have hthread := (hc.core hcore).setThread hk (executeInstruction
      (fetched (s.exec hw pm p) p) p (fetch (s.exec hw pm p))).hw
      (executeInstruction_hw_pcb ..)
    rw [he]
    show (Machine.core? (s.machine.setCore i j _) ij.1 ij.2).map _ = _
    by_cases hij : ij = (i, j)
    · subst hij
      rw [Machine.core?_setCore_self _ hcore, hcore, Option.map_some, Option.map_some,
        hthread.running_eq]
    · rw [Machine.core?_setCore_ne _ _ hij]

section
variable (P : List PcbPtr → Sys → Prop)
  (hstep : ∀ (todo : List PcbPtr) (i j k : Nat) (t : Sys) (core : Core) (hw : HardwareThread)
    (p : PcbPtr), t.machine.Compact → t.machine.slot? i j k = some (core, hw, p) →
    P (p :: todo) t → P todo (tickThread i j k t))
include hstep

/-- One core: the visits go up its slots. -/
theorem tickCore_inv {s : Sys} {i j : Nat} {core : Core} {rest : List PcbPtr}
    (hc : s.machine.Compact) (hcore : s.machine.core? i j = some core)
    (h0 : P (core.running ++ rest) s) :
    P rest (tickCore s (i, j)) ∧ (tickCore s (i, j)).machine.Compact ∧
      ∀ (ij : Nat × Nat), ((tickCore s (i, j)).machine.core? ij.1 ij.2).map Core.running =
        (s.machine.core? ij.1 ij.2).map Core.running := by
  have hinv := @Loop.up_inv _ (tickThread i j) core.numKernelThreads s
    (fun n t => t.machine.Compact ∧
      (∀ (ij : Nat × Nat), (t.machine.core? ij.1 ij.2).map Core.running =
        (s.machine.core? ij.1 ij.2).map Core.running) ∧ P (core.running.drop n ++ rest) t)
    ⟨hc, fun _ => rfl, h0⟩ ?_
  · obtain ⟨hcompact, hsame, hP⟩ := hinv
    rw [List.drop_eq_nil_of_le (hc.core hcore).le] at hP
    simp only [tickCore, hcore]
    exact ⟨hP, hcompact, hsame⟩
  · rintro n t - ⟨hcompact, hsame, hP⟩
    have hcoreEq := hsame (i, j)
    rw [hcore, Option.map_some] at hcoreEq
    obtain ⟨c, hc', hrun⟩ := Option.map_eq_some_iff.mp hcoreEq
    have hh := hcompact.core hc'
    rw [hrun] at hh
    obtain ⟨hcompact', hsame'⟩ := tickThread_core hcompact i j n
    refine ⟨hcompact', fun ij => (hsame' ij).trans (hsame ij), ?_⟩
    by_cases hn : n < core.running.length
    · obtain ⟨hw, hhw, hp⟩ := hh.counts.slot n _ (List.getElem?_eq_getElem hn)
      refine hstep _ i j n t c hw core.running[n] hcompact
        (Machine.slot?_eq_some.mpr ⟨hc', hhw, hp⟩) ?_
      rw [List.drop_eq_getElem_cons hn] at hP
      exact hP
    -- an idle slot
    · rw [List.drop_eq_nil_of_le (Nat.le_of_not_lt hn)] at hP
      rw [List.drop_eq_nil_of_le (by omega)]
      have hidle : ∀ core hw p, t.machine.slot? i j n ≠ some (core, hw, p) := by
        intro core' hw p hslot
        obtain ⟨hcore', hk, hp⟩ := Machine.slot?_eq_some.mp hslot
        obtain rfl := Option.some.inj (hc'.symm.trans hcore')
        rw [hh.slot n hw hk, List.getElem?_eq_none (Nat.le_of_not_lt hn)] at hp
        cases hp
      rcases tickThread_cases i j n t with
        ⟨_, he⟩ | ⟨core', hw, p, hslot, _⟩ | ⟨core', hw, p, _, _, hslot, _⟩
      · rwa [he]
      · exact absurd hslot (hidle core' hw p)
      · exact absurd hslot (hidle core' hw p)

/-- The visit rule of a tick: `P todo` holds when exactly `todo` is left to
visit. -/
theorem clockTick_visits {s : Sys} (hc : s.machine.Compact)
    (h0 : P s.machine.running (s.micro .count)) :
    P [] (clockTick s) ∧ (clockTick s).machine.Compact := by
  have hinv := @Loop.foldl_rest_inv _ _ tickCore s.machine.coreIndices (s.micro .count)
    (fun ijs t => t.machine.Compact ∧ P (t.machine.runningOf ijs) t) ?_ ?_
  · exact ⟨hinv.2, hinv.1⟩
  · refine ⟨hc, ?_⟩
    rw [show (s.micro .count).machine = s.machine from rfl, Machine.runningOf_coreIndices]
    exact h0
  · rintro ⟨i, j⟩ rest t - ⟨hcompact, hP⟩
    rw [Machine.runningOf, List.flatMap_cons] at hP
    cases hcore : t.machine.core? i j with
    | none =>
        simp only [hcore] at hP
        simp only [tickCore, hcore]
        exact ⟨hcompact, hP⟩
    | some core =>
        simp only [hcore] at hP
        obtain ⟨hP', hcompact', hsame⟩ := tickCore_inv P hstep hcompact hcore hP
        refine ⟨hcompact', ?_⟩
        have hruns : (tickCore t (i, j)).machine.runningOf rest = t.machine.runningOf rest :=
          List.flatMap_congr fun ij _ => by rw [hsame ij]
        rw [hruns]
        exact hP'

end

/-! ## Stints -/

/-- What an event does to the number of instructions a process has executed
since it was assigned to its hardware thread; `none` off the machine. -/
def stintStep (p : PcbPtr) (stint : Option Nat) : Event → Option Nat
  | .assigned q _ => if q = p then some 0 else stint
  | .exec q _ _ => if q = p then stint.map (· + 1) else stint
  | .completed q _ => if q = p then none else stint
  | .expired q _ _ => if q = p then none else stint
  | _ => stint

/-- The number at the end of a log. -/
def stint (log : List Event) (p : PcbPtr) : Option Nat := log.foldl (stintStep p) none

/-- At no moment of the run has a process on its hardware thread executed
more than `quantum` instructions since it was assigned to it. -/
def QuantumBound (quantum : Int) (log : List Event) : Prop :=
  ∀ past, past <+: log → ∀ p (n : Nat), stint past p = some n → (n : Int) ≤ quantum

@[simp] theorem stint_append (log : List Event) (e : Event) (p : PcbPtr) :
    stint (log ++ [e]) p = stintStep p (stint log p) e := by
  simp [stint]

theorem QuantumBound.append {quantum : Int} {log : List Event} (h : QuantumBound quantum log)
    {e : Event} (he : ∀ p (n : Nat), stint (log ++ [e]) p = some n → (n : Int) ≤ quantum) :
    QuantumBound quantum (log ++ [e]) := by
  intro past hpast
  rcases List.prefix_concat_iff.mp hpast with rfl | hpast
  · exact he
  · exact h past hpast

/-- The account of the quantum: a process on its thread has executed no more
than the scheduler has counted, and one more where `late` says so. -/
structure Stints (quantum : Int) (late : PcbPtr → Prop) (s : Sys) : Prop where
  configured : s.sched.quantum = quantum
  syncMode : s.sched.syncMode = .clock
  bound : QuantumBound quantum s.log
  closed : ∀ p, p ∉ s.running → stint s.log p = none
  counted : ∀ p ∈ s.running, ∀ n : Nat, stint s.log p = some n →
    (n : Int) ≤ (s.pcbs.get p).quantumCounter + 1 ∧
      (¬ late p → (n : Int) ≤ (s.pcbs.get p).quantumCounter)
  below : ∀ p ∈ s.running, (s.pcbs.get p).quantumCounter < quantum

namespace Stints

variable {quantum : Int} {late late' : PcbPtr → Prop} {s s' : Sys}

theorem mono (h : Stints quantum late s) (hlate : ∀ p ∈ s.running, late p → late' p) :
    Stints quantum late' s where
  configured := h.configured
  syncMode := h.syncMode
  bound := h.bound
  closed := h.closed
  counted := fun p hp n hn =>
    ⟨(h.counted p hp n hn).1, fun hnot => (h.counted p hp n hn).2 fun hl => hnot (hlate p hp hl)⟩
  below := h.below

/-- A step without an event that changes no quantum counter. -/
theorem touch (h : Stints quantum late s) (hsched : s'.sched = s.sched)
    (hlog : s'.log = s.log) (hrun : s'.running = s.running)
    (hcounter : ∀ p, (s'.pcbs.get p).quantumCounter = (s.pcbs.get p).quantumCounter) :
    Stints quantum late s' where
  configured := hsched ▸ h.configured
  syncMode := hsched ▸ h.syncMode
  bound := hlog ▸ h.bound
  closed := by
    rw [hrun, hlog]
    exact h.closed
  counted := by
    intro p hp n hn
    rw [hrun] at hp
    rw [hlog] at hn
    rw [hcounter]
    exact h.counted p hp n hn
  below := by
    intro p hp
    rw [hrun] at hp
    rw [hcounter]
    exact h.below p hp

/-- A step with an event about process `p`. -/
theorem step (h : Stints quantum late s) {e : Event} (p : PcbPtr)
    (hquantum : s'.sched.quantum = s.sched.quantum)
    (hmode : s'.sched.syncMode = s.sched.syncMode) (hlog : s'.log = s.log ++ [e])
    (hother : ∀ q, q ≠ p → stintStep q (stint s.log q) e = stint s.log q ∧
      (q ∈ s'.running ↔ q ∈ s.running) ∧
      (s'.pcbs.get q).quantumCounter = (s.pcbs.get q).quantumCounter ∧ (late q → late' q))
    (hclosed : p ∉ s'.running → stintStep p (stint s.log p) e = none)
    (hcounted : ∀ n : Nat, stintStep p (stint s.log p) e = some n → (n : Int) ≤ quantum ∧
      (n : Int) ≤ (s'.pcbs.get p).quantumCounter + 1 ∧
      (¬ late' p → (n : Int) ≤ (s'.pcbs.get p).quantumCounter))
    (hbelow : p ∈ s'.running → (s'.pcbs.get p).quantumCounter < quantum) :
    Stints quantum late' s' where
  configured := hquantum.trans h.configured
  syncMode := hmode.trans h.syncMode
  bound := by
    rw [hlog]
    refine h.bound.append fun q n hn => ?_
    rw [stint_append] at hn
    by_cases hq : q = p
    · subst hq
      exact (hcounted n hn).1
    · rw [(hother q hq).1] at hn
      exact h.bound s.log List.prefix_rfl q n hn
  closed := by
    intro q hq
    rw [hlog, stint_append]
    by_cases hqp : q = p
    · subst hqp
      exact hclosed hq
    · obtain ⟨hsame, hrun, _⟩ := hother q hqp
      rw [hsame]
      exact h.closed q fun hr => hq (hrun.mpr hr)
  counted := by
    intro q hq n hn
    rw [hlog, stint_append] at hn
    by_cases hqp : q = p
    · subst hqp
      exact (hcounted n hn).2
    · obtain ⟨hsame, hrun, hcounter, hlate⟩ := hother q hqp
      rw [hsame] at hn
      obtain ⟨hone, hzero⟩ := h.counted q (hrun.mp hq) n hn
      rw [hcounter]
      exact ⟨hone, fun hnot => hzero fun hl => hnot (hlate hl)⟩
  below := by
    intro q hq
    by_cases hqp : q = p
    · subst hqp
      exact hbelow hq
    · obtain ⟨_, hrun, hcounter, _⟩ := hother q hqp
      rw [hcounter]
      exact h.below q (hrun.mp hq)

/-- A step by which process `p` leaves its thread. -/
theorem leave (h : Stints quantum late s) {e : Event} (p : PcbPtr)
    (hquantum : s'.sched.quantum = s.sched.quantum)
    (hmode : s'.sched.syncMode = s.sched.syncMode) (hlog : s'.log = s.log ++ [e])
    (hends : ∀ m, stintStep p m e = none) (hothers : ∀ q m, q ≠ p → stintStep q m e = m)
    (hgone : p ∉ s'.running) (hstay : ∀ q, q ≠ p → (q ∈ s'.running ↔ q ∈ s.running))
    (hcounter : ∀ q, q ≠ p → (s'.pcbs.get q).quantumCounter = (s.pcbs.get q).quantumCounter)
    (hlate : ∀ q, q ≠ p → late q → late' q) : Stints quantum late' s' := by
  refine h.step p hquantum hmode hlog (fun q hqp => ?_) (fun _ => hends _) (fun n hn => ?_)
    fun hrun => absurd hrun hgone
  · exact ⟨hothers q _ hqp, hstay q hqp, hcounter q hqp, hlate q hqp⟩
  · rw [hends] at hn
    cases hn

/-! ### A tick executes -/

theorem age_quantumCounter (h : PcbHeap) (p q : PcbPtr) :
    ((h.age p).get q).quantumCounter = (h.get q).quantumCounter := by
  refine PcbHeap.get_set_congr PCB.quantumCounter h ?_ q
  unfold PCB.decrementTtl
  split <;> rfl

theorem exec_quantumCounter (s : ExecState) (p : PcbPtr) (instruction : Word) (q : PcbPtr) :
    ((executeInstruction s p instruction).pcbs.get q).quantumCounter =
      (s.pcbs.get q).quantumCounter := by
  rw [executeInstruction_pcbs]
  split
  · refine PcbHeap.get_set_congr PCB.quantumCounter s.pcbs ?_ q
    simp only [PCB.halt]
  · rfl

/-- The visit of a process whose stint the scheduler has counted. -/
theorem tickThread {todo : List PcbPtr} {i j k : Nat} {core : Core} {hw : HardwareThread}
    {p : PcbPtr} (hc : s.machine.Compact) (hslot : s.machine.slot? i j k = some (core, hw, p))
    (hp : p ∉ todo) (h : Stints quantum (· ∉ p :: todo) s) :
    Stints quantum (· ∉ todo) (tickThread i j k s) := by
  have hrun := (tickThread_machine hc i j k).2
  have hmem := Machine.mem_running_of_slot hc hslot
  have hlate : ∀ q, q ∉ p :: todo → q ∉ todo := fun q hq ht => hq (List.mem_cons_of_mem p ht)
  rcases tickThread_cases i j k s with
    ⟨_, he⟩ | ⟨core', hw', p', _, _, he⟩ | ⟨core', hw', p', pm, base, hslot', _, _, _, he⟩
  · rw [he]
    exact h.mono fun q _ hq => hlate q hq
  · have haged : Stints quantum (· ∉ p :: todo) { s with pcbs := s.pcbs.age p' } :=
      h.touch rfl rfl rfl (age_quantumCounter s.pcbs p')
    rw [he]
    exact haged.mono fun q _ hq => hlate q hq
  · obtain ⟨rfl, rfl, rfl⟩ : core = core' ∧ hw = hw' ∧ p = p' := by
      simpa using hslot.symm.trans hslot'
    rw [he] at hrun ⊢
    have hcounter : ∀ q, ((executeInstruction (fetched (s.exec hw pm p) p) p
        (fetch (s.exec hw pm p))).pcbs.get q).quantumCounter =
          (s.pcbs.get q).quantumCounter := fun q =>
      (exec_quantumCounter ..).trans (age_quantumCounter s.pcbs p q)
    refine h.step p rfl rfl exec_log (fun q hqp => ⟨?_, ?_, hcounter q, hlate q⟩) ?_ ?_ ?_
    · exact if_neg (Ne.symm hqp)
    · rw [Sys.running, hrun]
      rfl
    · intro hnot
      rw [Sys.running, hrun] at hnot
      exact absurd hmem hnot
    · intro n hn
      obtain ⟨m, hm, rfl⟩ : ∃ m, stint s.log p = some m ∧ m + 1 = n := by
        simpa [stintStep] using hn
      have hle := (h.counted p hmem m hm).2 (not_not_intro (List.mem_cons_self ..))
      have hlt := h.below p hmem
      have hsame : (((s.absorb i j k core (executeInstruction (fetched (s.exec hw pm p) p) p
          (fetch (s.exec hw pm p)))).pcbs.get p).quantumCounter) =
          (s.pcbs.get p).quantumCounter := hcounter p
      rw [hsame]
      exact ⟨by omega, by omega, fun hnot => absurd hp hnot⟩
    · intro _
      show ((executeInstruction _ _ _).pcbs.get p).quantumCounter < quantum
      rw [hcounter]
      exact h.below p hmem

/-- The clock counts. -/
theorem count (h : Stints quantum late s) : Stints quantum late (s.micro .count) where
  configured := h.configured
  syncMode := h.syncMode
  bound := by
    refine h.bound.append fun p n hn => ?_
    rw [stint_append] at hn
    exact h.bound s.log List.prefix_rfl p n hn
  closed := by
    intro p hp
    show stint (s.log ++ [_]) p = none
    rw [stint_append]
    exact h.closed p hp
  counted := by
    intro p hp n hn
    have hn : stint (s.log ++ [_]) p = some n := hn
    rw [stint_append] at hn
    exact h.counted p hp n hn
  below := h.below

/-! ### A pass counts -/

theorem charge_quantumCounter (s : Sys) {p q : PcbPtr} (hqp : q ≠ p) :
    ((s.charge p).pcbs.get q).quantumCounter = (s.pcbs.get q).quantumCounter := by
  simp only [Sys.charge, PcbHeap.get_set_ne _ hqp]

/-- A process that keeps its thread is counted. -/
theorem charge {todo : List PcbPtr} {p : PcbPtr} (h : Stints quantum (· ∈ p :: todo) s)
    (hpl : s.pcbs.Live p)
    (hexpired : quantumExpired s.sched (s.pcbs.get p).charge = false) :
    Stints quantum (· ∈ todo) (s.charge p) := by
  have hself : ((s.charge p).pcbs.get p).quantumCounter = (s.pcbs.get p).quantumCounter + 1 :=
    congrArg PCB.quantumCounter (PcbHeap.get_set_self hpl _)
  refine ⟨h.configured, h.syncMode, h.bound, h.closed, fun q hq n hn => ?_, fun q hq => ?_⟩
  · obtain ⟨hone, hzero⟩ := h.counted q hq n hn
    by_cases hqp : q = p
    · rw [hqp] at hone ⊢
      rw [hself]
      exact ⟨by omega, fun _ => hone⟩
    · rw [charge_quantumCounter s hqp]
      exact ⟨hone, fun hnot => hzero fun hl => hnot ((List.mem_cons.mp hl).resolve_left hqp)⟩
  · by_cases hqp : q = p
    · rw [hqp, hself]
      have hnot : ¬ s.sched.quantum ≤ (s.pcbs.get p).quantumCounter + 1 := by
        simp only [quantumExpired, h.syncMode, PCB.charge] at hexpired
        exact of_decide_eq_false hexpired
      rw [h.configured] at hnot
      omega
    · rw [charge_quantumCounter s hqp]
      exact h.below q hq

/-- A process on its thread is counted, or leaves it. -/
theorem scanThread {todo : List PcbPtr} {i j k : Nat} {core : Core} {hw : HardwareThread}
    {p : PcbPtr} (hwf : s.sched.WF) (hnd : s.running.Nodup) (hpl : s.pcbs.Live p)
    (hc : s.machine.Compact) (hslot : s.machine.slot? i j k = some (core, hw, p))
    (h : Stints quantum (· ∈ p :: todo) s) :
    Stints quantum (· ∈ todo) (scanThread i j k s) := by
  have hrem : ∀ q, q ∈ (s.machine.setCore i j (core.removeThread k)).running ↔
      q ∈ s.running ∧ q ≠ p := fun q => Machine.mem_running_removeThread hc hnd hslot
  have hgone : p ∉ (s.machine.setCore i j (core.removeThread k)).running :=
    fun hp => ((hrem p).mp hp).2 rfl
  have hstay : ∀ q, q ≠ p →
      (q ∈ (s.machine.setCore i j (core.removeThread k)).running ↔ q ∈ s.running) :=
    fun q hqp => (hrem q).trans (and_iff_left hqp)
  have hlate : ∀ q, q ≠ p → q ∈ p :: todo → q ∈ todo :=
    fun q hqp hq => (List.mem_cons.mp hq).resolve_left hqp
  rcases scanThread_cases hslot with ⟨_, he⟩ | ⟨_, _, he⟩ | ⟨_, hexpired, he⟩
  · rw [he]
    refine h.leave p rfl rfl rfl (fun _ => if_pos rfl) (fun q _ hqp => if_neg (Ne.symm hqp))
      hgone hstay (fun q hqp => ?_) hlate
    simp only [completeThread, PcbHeap.get_destroyPcb_ne _ hqp]
    exact charge_quantumCounter s hqp
  · have hset : ∀ q, q ≠ p → (((s.charge p).pcbs.set p (expiredPcb (s.charge p) hw p)).get
        q).quantumCounter = (s.pcbs.get q).quantumCounter := fun q hqp => by
      rw [PcbHeap.get_set_ne _ hqp]
      exact charge_quantumCounter s hqp
    rw [he]
    rcases expireThread_cases (s := s.charge p) hwf i j k core hw p with
      ⟨sched, _, _, hsame, _, hexp⟩ | ⟨_, hexp⟩
    · rw [hexp]
      exact h.leave p hsame.quantum hsame.syncMode rfl (fun _ => if_pos rfl)
        (fun q _ hqp => if_neg (Ne.symm hqp)) hgone hstay hset hlate
    · rw [hexp]
      exact h.leave p rfl rfl rfl (fun _ => if_pos rfl) (fun q _ hqp => if_neg (Ne.symm hqp))
        hgone hstay hset hlate
  · rw [he]
    exact h.charge hpl hexpired

theorem start_quantumCounter (pcb : PCB) (sched : Scheduler) (clkCounter : Int) :
    (pcb.start sched clkCounter).quantumCounter = 0 := by
  simp only [PCB.start]
  split <;> rfl

/-- A dispatch opens a stint. -/
theorem dispatched {p : PcbPtr} {sched : Scheduler} {i j : Nat} {core : Core}
    (hpos : 0 < quantum) (hc : s.machine.Compact) (hcore : s.machine.core? i j = some core)
    (hspace : core.hasSpace = true) (hsame : Scheduler.SameConfig s.sched sched)
    (hpl : s.pcbs.Live p) (h : Stints quantum late s) :
    Stints quantum late (s.dispatched sched p i j core) := by
  have hrun := s.running_dispatched hc.counted hcore hspace sched p
  have hself : ((s.dispatched sched p i j core).pcbs.get p).quantumCounter = 0 := by
    show ((s.started sched p).get p).quantumCounter = 0
    rw [Sys.started, PcbHeap.get_set_self hpl]
    exact start_quantumCounter ..
  refine h.step p hsame.quantum hsame.syncMode rfl (fun q hqp => ⟨if_neg (Ne.symm hqp), ?_, ?_,
    id⟩) (fun hnot => ?_) (fun n hn => ?_) fun _ => ?_
  · rw [← hrun.mem_iff, List.mem_cons]
    exact ⟨fun hq => hq.resolve_left hqp, .inr⟩
  · show ((s.started sched p).get q).quantumCounter = _
    rw [Sys.started, PcbHeap.get_set_ne _ hqp]
  · exact absurd (hrun.mem_iff.mp (List.mem_cons_self ..)) hnot
  · obtain rfl : 0 = n := by simpa [stintStep] using hn
    rw [hself]
    exact ⟨Int.le_of_lt hpos, by decide, fun _ => Int.le_refl 0⟩
  · rw [hself]
    exact hpos

/-! ### Ticks and passes -/

/-- A tick puts the clock one ahead of the scheduler. -/
theorem clockTick (h : Stints quantum (fun _ => False) s) (hnd : s.running.Nodup)
    (hc : s.machine.Compact) : Stints quantum (fun _ => True) (clockTick s) := by
  have hvisits := clockTick_visits
    (fun todo t => todo.Nodup ∧ Stints quantum (· ∉ todo) t)
    (fun todo i j k t core hw p hct hslot ht => ⟨(List.nodup_cons.mp ht.1).2,
      ht.2.tickThread hct hslot (List.nodup_cons.mp ht.1).1⟩) hc
    ⟨hnd, h.count.mono fun _ _ hf => hf.elim⟩
  exact hvisits.1.2.mono fun _ _ _ => trivial

/-- A tick at which nobody executes. -/
theorem clockTick_idle (h : Stints quantum late s) (hidle : s.running = [])
    (hc : s.machine.Compact) : Stints quantum (fun _ => True) (LocOS.clockTick s) := by
  refine clockTick (h.mono fun p hp _ => ?_) ?_ hc
  · rw [hidle] at hp
    cases hp
  · rw [hidle]
    exact .nil

/-- A pass draws level. -/
theorem schedulerPass {pids : List Int} (h : Stints quantum (fun _ => True) s)
    (hpos : 0 < quantum) (hr : RoundRobin pids s) (hnd : pids.Nodup) (hc : s.machine.Compact) :
    Stints quantum (fun _ => False) (schedulerPass s) := by
  have hpass := hr.schedulerPass_inv hnd hc (fun todo => Stints quantum (· ∈ todo))
    (fun todo i j k t core hw p hrt hct hslot ht =>
      ht.scanThread hrt.conserved.queues (hrt.conserved.nodup_running hnd)
        (hrt.conserved.live p (List.mem_append_left _ (Machine.mem_running_of_slot hct hslot)))
        hct hslot)
    (fun t p sched i j core hrt hct _ hcore hspace hsame hperm _ ht =>
      ht.dispatched hpos hct hcore hspace hsame (hrt.conserved.live p
        (List.mem_append_right _ (hperm.mem_iff.mpr (List.mem_cons_self ..)))))
    (h.mono fun p hp _ => s.machine.scanOrder_perm.mem_iff.mpr hp)
  exact hpass.2.2.mono fun p _ hp => by cases hp

end Stints

end LocOS
