import LocOS.Transfer
import LocOS.Virtual

/-!
# Output

What the system prints is written, never read: a step adds the same events to
every output, and does the same otherwise.
-/

namespace LocOS

/-- The same state with another output. -/
def Sys.withLog (s : Sys) (log : List Event) : Sys := { s with log }

/-- The step adds the same events to every output, and looks at none. -/
def Prints (f : Sys → Sys) : Prop :=
  ∀ s, ∃ events, ∀ log, f (s.withLog log) = (f s).withLog (log ++ events)

/-- The transfer loop with `p` in hand: it preempts if no core has space. -/
def Sys.makeRoom (s : Sys) (p : PcbPtr) (rq : ProcessQueue) : Sys :=
  let s := { s with sched := { s.sched with readyQueue := rq } }
  if canCpuExecuteProcess s.machine then s else preemptLowerPriorityProcesses s p

theorem transferReady_taken {s : Sys} (n : Nat) {p : PcbPtr} {rq : ProcessQueue}
    (hdq : s.sched.readyQueue.dequeueProcess = some (p, rq)) :
    transferReady (n + 1) s =
      ((enqueueToScheduler (s.makeRoom p rq).sched (s.makeRoom p rq).pcbs p).map fun sched =>
        transferReady n { s.makeRoom p rq with sched }).getD
          { s.makeRoom p rq with sched := { (s.makeRoom p rq).sched with
            readyQueue := ((s.makeRoom p rq).sched.readyQueue.enqueueProcess p).getD
              (s.makeRoom p rq).sched.readyQueue } } := by
  cases henq : enqueueToScheduler (s.makeRoom p rq).sched (s.makeRoom p rq).pcbs p with
  | none =>
      unfold transferReady
      rw [hdq]
      dsimp only
      erw [henq]
      rfl
  | some sched =>
      rw [transferReady, hdq]
      dsimp only
      erw [henq]
      rfl

theorem executeInstruction_prints (e : ExecState) (p : PcbPtr) (instruction : Word)
    (log : List Event) :
    executeInstruction { e with log } p instruction =
      { executeInstruction e p instruction with log } := by
  unfold executeInstruction
  split_ifs <;> rfl

theorem executeInstructionCycle_prints (e : ExecState) :
    ∃ events, ∀ log, executeInstructionCycle { e with log } =
      { executeInstructionCycle e with log := log ++ events } := by
  by_cases hrun : ∃ p, Executes e p
  · obtain ⟨p, hrun⟩ := hrun
    refine ⟨[Event.exec p (e.pcbs.get p).pid (fetch e)], fun log => ?_⟩
    have hrun' : Executes { e with log } p := ⟨hrun.pcb, hrun.live, hrun.ptbr⟩
    rw [executeInstructionCycle_executes hrun, executeInstructionCycle_executes hrun']
    exact executeInstruction_prints (fetched e p) p (fetch e) _
  · refine ⟨[], fun log => ?_⟩
    have hnone : ∀ p, ¬ Executes { e with log } p := fun p hrun' =>
      hrun ⟨p, hrun'.pcb, hrun'.live, hrun'.ptbr⟩
    rw [executeInstructionCycle_skips hnone,
      executeInstructionCycle_skips fun p hrun' => hrun ⟨p, hrun'⟩, List.append_nil]

namespace Prints

theorem comp {f g : Sys → Sys} (hf : Prints f) (hg : Prints g) : Prints fun s => g (f s) := by
  intro s
  obtain ⟨events, he⟩ := hf s
  obtain ⟨more, hm⟩ := hg (f s)
  refine ⟨events ++ more, fun log => ?_⟩
  show g (f _) = _
  rw [he, hm, List.append_assoc]

/-- Nothing printed is taken back. -/
theorem prefix_log {f : Sys → Sys} (hf : Prints f) (s : Sys) : s.log <+: (f s).log := by
  obtain ⟨events, he⟩ := hf s
  exact ⟨events, (congrArg Sys.log (he s.log)).symm⟩

theorem silent {f : Sys → Sys} (h : ∀ s log, f (s.withLog log) = (f s).withLog log) : Prints f :=
  fun s => ⟨[], fun log => by rw [h, List.append_nil]⟩

theorem foldl {α : Type*} {body : Sys → α → Sys} (h : ∀ a, Prints fun s => body s a)
    (l : List α) : Prints fun s => l.foldl body s := by
  induction l with
  | nil => exact silent fun _ _ => rfl
  | cons a l ih => exact (h a).comp ih

theorem up {body : Nat → Sys → Sys} (h : ∀ k, Prints (body k)) (n : Nat) :
    Prints (Loop.up body n) := by
  induction n with
  | zero => exact silent fun _ _ => rfl
  | succ n ih => exact ih.comp (h n)

theorem down {body : Nat → Sys → Sys} (h : ∀ k, Prints (body k)) (n : Nat) :
    Prints (Loop.down body n) := by
  induction n with
  | zero => exact silent fun _ _ => rfl
  | succ n ih => exact (h n).comp ih

theorem tickThread (i j k : Nat) : Prints (tickThread i j k) := by
  intro s
  cases hslot : s.machine.slot? i j k with
  | none =>
      refine ⟨[], fun log => ?_⟩
      simp only [LocOS.tickThread, Sys.withLog, hslot, List.append_nil]
  | some slot =>
      obtain ⟨core, hw, p⟩ := slot
      have hbusy := fun log => tickThread_busy (s := s.withLog log) hslot
      cases hpm : s.clockPmRef with
      | none =>
          refine ⟨[], fun log => ?_⟩
          rw [hbusy, tickThread_busy hslot]
          simp only [Sys.withLog, hpm, List.append_nil]
      | some pm =>
          obtain ⟨events, he⟩ := executeInstructionCycle_prints (s.exec hw pm p)
          by_cases hst : ((s.pcbs.age p).get p).state = .terminated
          · refine ⟨[], fun log => ?_⟩
            rw [hbusy, tickThread_busy hslot]
            simp only [Sys.withLog, hpm, hst, if_true, List.append_nil]
          · refine ⟨events, fun log => ?_⟩
            have hcycle : executeInstructionCycle ((s.withLog log).exec hw pm p) = _ := he log
            rw [hbusy, tickThread_busy hslot]
            simp only [Sys.withLog, hpm, hst, if_false, Sys.absorb] at hcycle ⊢
            rw [hcycle]

theorem clockTick : Prints clockTick := by
  have hcount : Prints fun s => { s with
      clkCounter := s.clkCounter + 1
      log := s.log ++ [Event.tick (s.clkCounter + 1)] } :=
    fun s => ⟨[Event.tick (s.clkCounter + 1)], fun _ => rfl⟩
  have hcore : ∀ ij : Nat × Nat, Prints fun s => tickCore s ij := by
    intro ij s
    cases hcore : s.machine.core? ij.1 ij.2 with
    | none =>
        refine ⟨[], fun log => ?_⟩
        simp only [tickCore, Sys.withLog, hcore, List.append_nil]
    | some core =>
        obtain ⟨events, he⟩ := up (tickThread ij.1 ij.2) core.numKernelThreads s
        refine ⟨events, fun log => ?_⟩
        have hcore' : (s.withLog log).machine.core? ij.1 ij.2 = some core := hcore
        simp only [tickCore, hcore, hcore']
        exact he log
  have hcores : Prints fun s => s.machine.coreIndices.foldl tickCore s :=
    fun s => foldl hcore s.machine.coreIndices s
  exact hcount.comp hcores

theorem scanThread (i j k : Nat) : Prints (scanThread i j k) := by
  intro s
  cases hslot : s.machine.slot? i j k with
  | none =>
      refine ⟨[], fun log => ?_⟩
      simp only [LocOS.scanThread, Sys.withLog, hslot, List.append_nil]
  | some slot =>
      obtain ⟨core, hw, p⟩ := slot
      have hcases := fun log => scanThread_cases (s := s.withLog log) hslot
      rcases scanThread_cases hslot with ⟨hfin, he⟩ | ⟨hfin, hq, he⟩ | ⟨hfin, hq, he⟩
      · refine ⟨[Event.completed p ((s.charge p).pcbs.get p).pid], fun log => ?_⟩
        rcases hcases log with ⟨_, he'⟩ | ⟨h', _, _⟩ | ⟨h', _, _⟩
        · rw [he, he']
          rfl
        · cases h'.symm.trans hfin
        · cases h'.symm.trans hfin
      · refine ⟨[Event.expired p (expiredPcb (s.charge p) hw p).pid
          (enqueueToScheduler s.sched ((s.charge p).pcbs.set p (expiredPcb (s.charge p) hw p))
            p).isSome], fun log => ?_⟩
        rcases hcases log with ⟨h', _⟩ | ⟨_, _, he'⟩ | ⟨_, h', _⟩
        · cases h'.symm.trans hfin
        · rw [he, he']
          rfl
        · cases h'.symm.trans hq
      · refine ⟨[], fun log => ?_⟩
        rcases hcases log with ⟨h', _⟩ | ⟨_, h', _⟩ | ⟨_, _, he'⟩
        · cases h'.symm.trans hfin
        · cases h'.symm.trans hq
        · rw [he, he', List.append_nil]
          rfl

theorem scanMachine : Prints scanMachine := by
  intro s
  refine @foldl _ scanCore (fun ij t => ?_) s.machine.coreIndices s
  cases hcore : t.machine.core? ij.1 ij.2 with
  | none =>
      refine ⟨[], fun log => ?_⟩
      simp only [scanCore, Sys.withLog, hcore, List.append_nil]
  | some core =>
      obtain ⟨events, he⟩ := down (scanThread ij.1 ij.2) core.currentPcbCount.toNat t
      refine ⟨events, fun log => ?_⟩
      have hcore' : (t.withLog log).machine.core? ij.1 ij.2 = some core := hcore
      simp only [scanCore, hcore, hcore']
      exact he log

theorem preempt (p : PcbPtr) : Prints fun s => preemptLowerPriorityProcesses s p := by
  intro s
  refine ⟨(preemptLowerPriorityProcesses (s.withLog []) p).log, fun log => ?_⟩
  by_cases hpol : s.sched.policy = .preemptivePrio
  · by_cases hlow : ¬(getLowestPriorityExecuting s.machine).priority = maxPriority + 1 ∧
        (s.pcbs.get p).priority < (getLowestPriorityExecuting s.machine).priority
    · cases hcore : s.machine.core? (getLowestPriorityExecuting s.machine).cpuIdx.toNat
          (getLowestPriorityExecuting s.machine).coreIdx.toNat with
      | none =>
          simp only [preemptLowerPriorityProcesses, Sys.withLog, ne_eq, hpol, not_true_eq_false,
            if_false, if_pos hlow, hcore, List.append_nil]
      | some core =>
          simp only [preemptLowerPriorityProcesses, Sys.withLog, ne_eq, hpol, not_true_eq_false,
            if_false, if_pos hlow, hcore, List.nil_append]
    · have hsame : ∀ log, preemptLowerPriorityProcesses (s.withLog log) p = s.withLog log := by
        intro log
        unfold preemptLowerPriorityProcesses
        exact (if_neg (not_not.mpr hpol)).trans (if_neg hlow)
      dsimp only
      rw [hsame, hsame, show preemptLowerPriorityProcesses s p = s from hsame s.log]
      simp only [Sys.withLog, List.append_nil]
  · simp only [preemptLowerPriorityProcesses, Sys.withLog, ne_eq, hpol, not_false_eq_true,
      if_true, List.append_nil]

theorem makeRoom (p : PcbPtr) (rq : ProcessQueue) : Prints fun s => s.makeRoom p rq := by
  intro s
  by_cases hcan : canCpuExecuteProcess s.machine = true
  · exact ⟨[], fun log => by simp only [Sys.makeRoom, Sys.withLog, hcan, if_true, List.append_nil]⟩
  · obtain ⟨events, he⟩ := preempt p { s with sched := { s.sched with readyQueue := rq } }
    refine ⟨events, fun log => ?_⟩
    simp only [Sys.makeRoom, Sys.withLog, hcan, if_false, Bool.false_eq_true]
    exact he log

theorem transferReady (n : Nat) : Prints (transferReady n) := by
  induction n with
  | zero => exact silent fun _ _ => rfl
  | succ n ih =>
      intro s
      cases hdq : s.sched.readyQueue.dequeueProcess with
      | none =>
          refine ⟨[], fun log => ?_⟩
          simp only [LocOS.transferReady, Sys.withLog, hdq, List.append_nil]
      | some taken =>
          obtain ⟨p, rq⟩ := taken
          obtain ⟨events, he⟩ := makeRoom p rq s
          dsimp only at he
          cases henq : enqueueToScheduler (s.makeRoom p rq).sched (s.makeRoom p rq).pcbs p with
          | none =>
              refine ⟨events, fun log => ?_⟩
              rw [transferReady_taken n hdq, transferReady_taken (s := s.withLog log) n hdq, he log]
              simp only [Sys.withLog, henq, Option.map_none, Option.getD_none]
          | some sched =>
              obtain ⟨more, hm⟩ := ih { s.makeRoom p rq with sched }
              refine ⟨events ++ more, fun log => ?_⟩
              rw [transferReady_taken n hdq, transferReady_taken (s := s.withLog log) n hdq, he log]
              simp only [Sys.withLog, henq, Option.map_some, Option.getD_some]
              rw [← List.append_assoc]
              exact hm (log ++ events)

theorem dispatchReady (n : Nat) : Prints (dispatchReady n) := by
  induction n with
  | zero => exact silent fun _ _ => rfl
  | succ n ih =>
      intro s
      by_cases hguard : (hasReadyProcesses s.sched && canCpuExecuteProcess s.machine) = true
      · cases hsel : selectNextProcess s.sched s.pcbs with
        | none =>
            refine ⟨[], fun log => ?_⟩
            simp only [LocOS.dispatchReady, Sys.withLog, hguard, hsel, if_true, List.append_nil]
        | some selected =>
            obtain ⟨p, sched⟩ := selected
            set pcb := (s.pcbs.get p).start sched s.clkCounter with hpcb
            cases hassign : assignProcessToCore s.machine (s.pcbs.set p pcb) p with
            | none =>
                refine ⟨[Event.putBack p pcb.pid
                  (enqueueToScheduler sched (s.pcbs.set p pcb) p).isSome], fun log => ?_⟩
                simp only [LocOS.dispatchReady, Sys.withLog, hguard, hsel, if_true, ← hpcb, hassign]
            | some machine =>
                obtain ⟨events, he⟩ := ih { s with
                  machine
                  sched
                  pcbs := s.pcbs.set p pcb
                  log := s.log ++ [Event.assigned p pcb.pid] }
                refine ⟨Event.assigned p pcb.pid :: events, fun log => ?_⟩
                have hnext := he (log ++ [Event.assigned p pcb.pid])
                rw [List.append_assoc, List.singleton_append] at hnext
                simp only [LocOS.dispatchReady, Sys.withLog, hguard, hsel, if_true, ← hpcb, hassign]
                exact hnext
      · refine ⟨[], fun log => ?_⟩
        simp only [LocOS.dispatchReady, Sys.withLog, hguard, if_false, List.append_nil,
          Bool.false_eq_true]

theorem schedulerPass : Prints schedulerPass := by
  have hfiled : Prints fun s : Sys => if s.sched.policy = .preemptivePrio then
      LocOS.transferReady s.sched.readyQueue.currentSize s else s := by
    intro s
    by_cases hpol : s.sched.policy = .preemptivePrio
    · obtain ⟨events, he⟩ := transferReady s.sched.readyQueue.currentSize s
      exact ⟨events, fun log => (if_pos hpol).trans
        ((he log).trans (congrArg (Sys.withLog · (log ++ events)) (if_pos hpol).symm))⟩
    · refine ⟨[], fun log => (if_neg hpol).trans ?_⟩
      rw [List.append_nil]
      exact congrArg (Sys.withLog · log) (if_neg hpol).symm
  have hdispatched : Prints fun s : Sys => LocOS.dispatchReady s.sched.waitingCount s :=
    fun s => dispatchReady s.sched.waitingCount s
  exact (scanMachine.comp hfiled).comp hdispatched

theorem next (a : Action) : Prints fun s => s.next a := by
  cases a with
  | tick => exact clockTick
  | pass => exact schedulerPass

end Prints

end LocOS
