import LocOS.Quantum

/-!
# ClockMode

The threads in `SCHED_SYNC_CLOCK` mode: the scheduler beside the clock and the
timers, all under `clk_mutex`. The scheduler passes when it finds
`clk_counter` changed and waits on `clk_cond` otherwise; it confirms nothing,
so the clock may count on before the scheduler gets the mutex.
-/

namespace LocOS

/-! ## The threads -/

/-- Where the scheduler is in its loop. -/
inductive ClockModePhase where
  | notStarted
  /-- At the top of its loop, before it locks `clk_mutex`. -/
  | ready
  /-- On `clk_cond`. -/
  | waiting
  /-- Woken, before it gets `clk_mutex` back. -/
  | woken
  deriving DecidableEq, Repr

/-- What a broadcast of `clk_cond` does to the scheduler. -/
def ClockModePhase.wake : ClockModePhase → ClockModePhase
  | .waiting => .woken
  | phase => phase

/-- `lastTick` is the scheduler's local variable. -/
structure ClockMode where
  handshake : Handshake
  sys : Sys
  scheduler : ClockModePhase
  lastTick : Int

/-- A step of the threads of the handshake, or of the scheduler. -/
inductive ClockModeAction where
  /-- A step of the clock, of `main` creating timers, or of a timer. -/
  | timers (a : HandshakeAction)
  /-- `main` calls `start_scheduler`. -/
  | start
  /-- The scheduler gets `clk_mutex` and tests the counter. -/
  | lock
  deriving DecidableEq, Repr

/-- A pass broadcasts `clk_cond` for every process that goes back to a
priority queue. -/
def Sys.passBroadcasts (s : Sys) : Bool :=
  decide (s.sched.policy = .preemptivePrio) &&
    ((schedulerPass s).log.drop s.log.length).any fun
      | .expired _ _ _ => true
      | _ => false

namespace ClockMode

/-- The thread of the step is at it. -/
def Enabled (s : ClockMode) : ClockModeAction → Prop
  | .timers a => s.handshake.Enabled a
  | .start => s.scheduler = .notStarted ∧ s.handshake.toCreate = []
  | .lock => s.scheduler = .ready ∨ s.scheduler = .woken

instance (s : ClockMode) (a : ClockModeAction) : Decidable (s.Enabled a) := by
  cases a <;> unfold Enabled <;> infer_instance

/-- The step itself: a tick with what the clock executes, a pass when the
counter has moved. -/
def next (s : ClockMode) : ClockModeAction → ClockMode
  | .timers .tick =>
      { s with
        handshake := s.handshake.next .tick
        sys := clockTick s.sys
        scheduler := s.scheduler.wake }
  | .timers a => { s with handshake := s.handshake.next a }
  | .start => { s with scheduler := .ready }
  | .lock =>
      if s.sys.clkCounter = s.lastTick then { s with scheduler := .waiting }
      else
        { handshake := if s.sys.passBroadcasts then s.handshake.broadcast else s.handshake
          sys := schedulerPass s.sys
          scheduler := .ready
          lastTick := s.sys.clkCounter }

/-- The clock runs, the processes are loaded, and `main` has neither created
a timer nor started the scheduler. -/
def start (sys : Sys) (specs : List TimerSpec) : ClockMode where
  handshake := .start specs
  sys := sys
  scheduler := .notStarted
  lastTick := 0

end ClockMode

/-- The runs of all threads, over every interleaving. -/
def clockModeRuns (cfg : Config) (programs : List Program) (specs : List TimerSpec) :
    Runs ClockMode ClockModeAction :=
  .guarded
    (fun s => ∃ sys, boot (cfg.load programs) (loadedPcbs cfg programs) = some sys ∧
      s = .start sys specs)
    ClockMode.Enabled ClockMode.next

/-! ## The bound -/

namespace ClockMode

/-- A tick comes only when the scheduler has made its pass for the last one,
or when nothing executes. -/
def PassMade (s : ClockMode) (a : ClockModeAction) : Prop :=
  a = .timers .tick → s.lastTick = s.sys.clkCounter ∨ s.sys.running = []

instance (s : ClockMode) (a : ClockModeAction) : Decidable (s.PassMade a) := by
  unfold PassMade
  infer_instance

theorem clkCounter_clockTick (s : Sys) : (clockTick s).clkCounter = s.clkCounter + 1 := by
  refine clockTick_inv (fun t => t.clkCounter = s.clkCounter + 1) rfl fun i j k t ht => ?_
  rcases tickThread_cases i j k t with
    ⟨_, he⟩ | ⟨_, _, _, _, _, he⟩ | ⟨_, _, _, _, _, _, _, _, _, he⟩
  all_goals
    rw [he]
    exact ht

/-- What the threads keep: the account of the quantum is level when the
scheduler has seen the last tick, and one behind otherwise. -/
structure Level (quantum : Int) (pids : List Int) (s : ClockMode) : Prop where
  roundRobin : RoundRobin pids s.sys
  compact : s.sys.machine.Compact
  seen : s.lastTick ≤ s.sys.clkCounter
  behind : Stints quantum (fun _ => True) s.sys
  level : s.lastTick = s.sys.clkCounter → Stints quantum (fun _ => False) s.sys

namespace Level

variable {quantum : Int} {pids : List Int} {s : ClockMode}

theorem tick (h : Level quantum pids s) (hnd : pids.Nodup)
    (hmade : s.PassMade (.timers .tick)) : Level quantum pids (s.next (.timers .tick)) := by
  obtain ⟨hr, hc⟩ := h.roundRobin.next hnd h.compact .tick
  have hbehind : Stints quantum (fun _ => True) (clockTick s.sys) := by
    rcases hmade rfl with hseen | hidle
    · exact (h.level hseen).clockTick (h.roundRobin.conserved.nodup_running hnd) h.compact
    · exact h.behind.clockTick_idle hidle h.compact
  have hcounter := clkCounter_clockTick s.sys
  have hseen := h.seen
  refine ⟨hr, hc, ?_, hbehind, fun heq => ?_⟩
  · show s.lastTick ≤ (clockTick s.sys).clkCounter
    omega
  · have heq : s.lastTick = (clockTick s.sys).clkCounter := heq
    omega

theorem lock (h : Level quantum pids s) (hnd : pids.Nodup) (hpos : 0 < quantum) :
    Level quantum pids (s.next .lock) := by
  by_cases heq : s.sys.clkCounter = s.lastTick
  · rw [next, if_pos heq]
    exact ⟨h.roundRobin, h.compact, h.seen, h.behind, h.level⟩
  · have hlevel := h.behind.schedulerPass hpos h.roundRobin hnd h.compact
    obtain ⟨hr, hc⟩ := h.roundRobin.next hnd h.compact .pass
    have hcounter := (PassKeeps.clkCounter s.sys.clkCounter).schedulerPass rfl
    rw [next, if_neg heq]
    exact ⟨hr, hc, Int.le_of_eq hcounter.symm, hlevel.mono fun _ _ hf => hf.elim,
      fun _ => hlevel⟩

theorem boot {cfg : Config} {programs : List Program} {specs : List TimerSpec} {sys : Sys}
    (hpol : cfg.policy = .roundRobin) (hsync : cfg.syncMode = .clock) (hidle : cfg.machine.Idle)
    (h : LocOS.boot (cfg.load programs) (loadedPcbs cfg programs) = some sys) :
    Level cfg.quantum ((loadedPcbs cfg programs).map PCB.pid) (.start sys specs) := by
  have hb := boot_spec h
  have hstints : Stints cfg.quantum (fun _ => False) sys := by
    have hnone : sys.running = [] := by
      rw [Sys.running, hb.machine]
      exact hidle.running
    refine ⟨hb.quantum, hb.syncMode.trans hsync, fun past hpast p n hn => ?_, fun p _ => ?_,
      fun p hp => ?_, fun p hp => ?_⟩
    · rw [hb.log, List.prefix_nil] at hpast
      rw [hpast] at hn
      cases hn
    · rw [hb.log]
      rfl
    · rw [hnone] at hp
      cases hp
    · rw [hnone] at hp
      cases hp
  refine ⟨.boot hb hpol hidle, ?_, ?_, hstints.mono fun _ _ hf => hf.elim, fun _ => hstints⟩
  · rw [show (ClockMode.start sys specs).sys.machine = sys.machine from rfl, hb.machine]
    exact hidle.compact
  · exact Int.le_of_eq (boot_clkCounter h).symm

theorem next (h : Level quantum pids s) (hnd : pids.Nodup) (hpos : 0 < quantum)
    {a : ClockModeAction} (hmade : s.PassMade a) : Level quantum pids (s.next a) := by
  cases a with
  | timers a =>
      by_cases ha : a = .tick
      · subst ha
        exact h.tick hnd hmade
      · have hsys : s.next (.timers a) = { s with handshake := s.handshake.next a } := by
          cases a <;> first | rfl | exact absurd rfl ha
        rw [hsys]
        exact ⟨h.roundRobin, h.compact, h.seen, h.behind, h.level⟩
  | start => exact ⟨h.roundRobin, h.compact, h.seen, h.behind, h.level⟩
  | lock => exact h.lock hnd hpos

end Level

end ClockMode

/-- In `SCHED_SYNC_CLOCK` mode under Round Robin no process executes more
instructions than the quantum between its assignment and its removal, for any
timers, machine, programs and interleaving in which every tick comes after
the scheduler's pass for the last one, or finds nothing executing. -/
theorem quantum_bound {cfg : Config} {programs : List Program} {specs : List TimerSpec}
    (hpol : cfg.policy = .roundRobin) (hsync : cfg.syncMode = .clock) (hidle : cfg.machine.Idle)
    {s : ClockMode}
    (hs : ((clockModeRuns cfg programs specs).restrict ClockMode.PassMade).Reachable s) :
    QuantumBound cfg.quantum s.sys.log := by
  have h : ClockMode.Level cfg.quantum ((loadedPcbs cfg programs).map PCB.pid) s ∧
      0 < cfg.quantum := by
    refine hs.invariant (fun s => ClockMode.Level cfg.quantum
      ((loadedPcbs cfg programs).map PCB.pid) s ∧ 0 < cfg.quantum) ?_ ?_
    · rintro s ⟨sys, hb, rfl⟩
      exact ⟨.boot hpol hsync hidle hb, (boot_spec hb).quantumPos⟩
    · rintro s a t ⟨h, hpos⟩ ⟨hmade, _, rfl⟩
      exact ⟨h.next (loadedPcbs_nodup cfg programs) hpos hmade, hpos⟩
  exact h.1.behind.bound

/-- One timer, a quantum of 1 and one process, which the scheduler assigns at
the first tick. -/
def assignedActions : List ClockModeAction :=
  [.timers .createTimer, .timers (.wait 0), .start, .lock, .timers .tick, .lock]

/-- The timer confirms the tick. -/
def confirmActions : List ClockModeAction :=
  [.timers (.check 0), .timers .resume, .timers (.wait 0)]

/-- With a pass for every tick the process executes one instruction. -/
theorem quantum_bound_paced : (oneCore 1 .roundRobin 1).machine.Idle ∧
    ∃ s, ((clockModeRuns (oneCore 1 .roundRobin 1) [oneInstruction 0x20000000#32]
      (mainTimers .clock 1 1 5)).restrict ClockMode.PassMade).Reachable s ∧
      stint s.sys.log 0 = some 1 ∧ QuantumBound 1 s.sys.log := by
  have hrun : (boot ((oneCore 1 .roundRobin 1).load [oneInstruction 0x20000000#32])
      (loadedPcbs (oneCore 1 .roundRobin 1) [oneInstruction 0x20000000#32])).any (fun sys =>
        (Runs.follow (fun s a => ClockMode.PassMade s a ∧ s.Enabled a) ClockMode.next
          (assignedActions ++ confirmActions ++ [.timers .tick])
          (.start sys (mainTimers .clock 1 1 5))).any (fun s =>
            decide (stint s.sys.log 0 = some 1))) = true := by
    decide +kernel
  obtain ⟨sys, hsys, hcheck⟩ := (Option.any_eq_true ..).mp hrun
  obtain ⟨s, hs, hcheck⟩ := (Option.any_eq_true ..).mp hcheck
  have hreach : ((clockModeRuns (oneCore 1 .roundRobin 1) [oneInstruction 0x20000000#32]
      (mainTimers .clock 1 1 5)).restrict ClockMode.PassMade).Reachable s := by
    rw [clockModeRuns, Runs.restrict_guarded]
    exact .follow (.init ⟨sys, hsys, rfl⟩) hs
  exact ⟨Machine.createMachine_idle 1 1 1, s, hreach, of_decide_eq_true hcheck,
    quantum_bound rfl rfl (Machine.createMachine_idle 1 1 1) hreach⟩

/-- The timer confirms a tick before the scheduler gets the mutex: the process
executes a second instruction. -/
theorem quantum_exceeded :
    ∃ s, (clockModeRuns (oneCore 1 .roundRobin 1) [oneInstruction 0x20000000#32]
      (mainTimers .clock 1 1 5)).Reachable s ∧ ¬ QuantumBound 1 s.sys.log := by
  have hrun : (boot ((oneCore 1 .roundRobin 1).load [oneInstruction 0x20000000#32])
      (loadedPcbs (oneCore 1 .roundRobin 1) [oneInstruction 0x20000000#32])).any (fun sys =>
        (Runs.follow ClockMode.Enabled ClockMode.next
          (assignedActions ++ confirmActions ++ .timers .tick :: confirmActions ++
            [.timers .tick]) (.start sys (mainTimers .clock 1 1 5))).any (fun s =>
          decide (stint s.sys.log 0 = some 2))) = true := by
    decide +kernel
  obtain ⟨sys, hsys, hcheck⟩ := (Option.any_eq_true ..).mp hrun
  obtain ⟨s, hs, hcheck⟩ := (Option.any_eq_true ..).mp hcheck
  have hstint := of_decide_eq_true hcheck
  refine ⟨s, .follow (.init ⟨sys, hsys, rfl⟩) hs, fun hbound => ?_⟩
  exact absurd (hbound s.sys.log List.prefix_rfl 0 2 hstint) (by decide)

end LocOS
