import LocOS.Handshake

/-!
# Shutdown

The threads from `main` to the end of `cleanup_system` (`sys/kernel.c`,
`sys/clock.c`, `sys/timer.c`, and the stop paths of `sys/process.c`), with
`handle_sigint` at any point. A critical section under `clk_mutex` or
`sched_mutex` is one step, and so is every test of the stop flags, which
nobody reads under a lock that the writer holds. The handler runs on the main
thread here, the one in `pause`, and the signal is blocked while it runs; what
the handlers on the other threads add is in `LocOS.Destroyed`.

`pthread_cancel` acts in `usleep` or in `pthread_cond_wait`. In the wait the
thread gets `clk_mutex` back before it ends, and nobody unlocks it.
-/

namespace LocOS

/-! ## Threads -/

/-- Where the clock is in `clock_function`. -/
inductive ClockStage where
  /-- At `while (running)`. -/
  | testing
  /-- In `usleep`. -/
  | sleeping
  /-- Behind its second test, before it locks `clk_mutex`. -/
  | locking
  /-- On `clk_cond2`. -/
  | waiting
  /-- Woken, before it gets `clk_mutex` back. -/
  | woken
  /-- Returned, or cancelled in `usleep`. -/
  | finished
  /-- Cancelled in its wait: it ended with `clk_mutex` locked. -/
  | cancelled
  deriving DecidableEq, Repr

/-- Where a timer is in `timer_function`. -/
inductive TimerStage where
  /-- At `while (timer->running && running)`. -/
  | testing
  /-- Behind the test, before it locks `clk_mutex` and waits. -/
  | locking
  /-- On `clk_cond`. -/
  | waiting
  /-- Woken, before it gets `clk_mutex` back. -/
  | woken
  /-- In its callback, outside `clk_mutex`. -/
  | callback
  | finished
  deriving DecidableEq, Repr

/-- `running` is `timer->running`. -/
structure TimerThread where
  interval : Int
  callback : Bool
  lastTick : Int
  running : Bool
  stage : TimerStage
  deriving DecidableEq, Repr

/-- Where the scheduler is in `scheduler_function`. -/
inductive SchedulerStage where
  /-- `scheduler_global` is null. -/
  | absent
  /-- Created, its thread not yet. -/
  | created
  /-- At `while (sched->running && running)`. -/
  | testing
  /-- Behind the test, before it locks `sched_mutex`, or `clk_mutex` in clock
  mode. -/
  | locking
  /-- On `sched_cond`, or on `clk_cond` in clock mode. -/
  | waiting
  /-- Woken, before it gets its mutex back. -/
  | woken
  /-- In timer mode behind its second test, before `get_current_tick` and its
  pass, which both lock `clk_mutex`. -/
  | activated
  | finished
  deriving DecidableEq, Repr

/-- `main`, and from `stopScheduler` on `cleanup_system` in it. -/
inductive MainStage where
  | createScheduler
  | createTimers
  | startScheduler
  /-- At `while (running) pause()`. -/
  | pausing
  /-- Before the critical section of `stop_scheduler`. -/
  | stopScheduler
  | joinScheduler
  | destroyScheduler
  | cancelClock
  | joinClock
  /-- Before the broadcast of `clk_cond` behind `stop_clock`. -/
  | wakeTimers
  /-- Before the critical section of `destroy_timer`. -/
  | stopTimer (i : Nat)
  | joinTimer (i : Nat)
  | finished
  deriving DecidableEq, Repr

/-- Where `handle_sigint` is, one mutex at a time. -/
inductive HandlerStage where
  | idle
  /-- Behind `running = 0`, before it locks `clk_mutex`. -/
  | lockClk
  /-- Before it looks at `scheduler_global`. -/
  | lockSched
  deriving DecidableEq, Repr

/-- `schedRunning` and `schedLastTick` are `sched->running` and the
scheduler's local `last_tick`; `clockCancelled` tells whether a cancellation
of the clock is pending. -/
structure Shutdown where
  syncMode : SyncMode
  policy : Policy
  running : Bool
  clkCounter : Int
  clock : ClockStage
  clockCancelled : Bool
  timers : List TimerThread
  toCreate : List TimerSpec
  scheduler : SchedulerStage
  schedRunning : Bool
  schedLastTick : Int
  destroyed : Bool
  main : MainStage
  handler : HandlerStage
  deriving DecidableEq, Repr

/-! ## Condition variables -/

/-- What a broadcast of `clk_cond` does to a timer. -/
def TimerStage.wake : TimerStage → TimerStage
  | .waiting => .woken
  | stage => stage

/-- See `TimerStage.wake`. -/
def TimerThread.wake (t : TimerThread) : TimerThread := { t with stage := t.stage.wake }

/-- What a broadcast does to a scheduler that waits on the variable. -/
def SchedulerStage.wake : SchedulerStage → SchedulerStage
  | .waiting => .woken
  | stage => stage

/-- What a broadcast of `clk_cond2` does to the clock. -/
def ClockStage.wake : ClockStage → ClockStage
  | .waiting => .woken
  | stage => stage

theorem TimerStage.wake_ne_waiting (stage : TimerStage) : stage.wake ≠ .waiting := by
  cases stage <;> decide

theorem TimerStage.wake_eq_locking {stage : TimerStage} :
    stage.wake = .locking ↔ stage = .locking := by
  cases stage <;> decide

theorem TimerStage.wake_eq_callback {stage : TimerStage} :
    stage.wake = .callback ↔ stage = .callback := by
  cases stage <;> decide

@[simp] theorem ClockStage.wake_eq_cancelled {stage : ClockStage} :
    stage.wake = .cancelled ↔ stage = .cancelled := by
  cases stage <;> decide

@[simp] theorem SchedulerStage.wake_ne_waiting (stage : SchedulerStage) :
    stage.wake ≠ .waiting := by
  cases stage <;> decide

@[simp] theorem SchedulerStage.wake_eq_locking {stage : SchedulerStage} :
    stage.wake = .locking ↔ stage = .locking := by
  cases stage <;> decide

/-- Nobody wakes a thread that is not there. -/
theorem SchedulerStage.eq_of_wake {stage stage' : SchedulerStage}
    (h : stage' = stage ∨ stage' = stage.wake)
    (hgone : stage = .absent ∨ stage = .created ∨ stage = .finished) : stage' = stage := by
  rcases hgone with rfl | rfl | rfl <;> exact h.elim id id

namespace Shutdown

/-- No thread has ended with `clk_mutex` locked. -/
def clkFree (s : Shutdown) : Bool := decide (s.clock ≠ .cancelled)

/-- `pthread_cond_broadcast(&clk_cond)`. -/
def broadcastClk (s : Shutdown) : Shutdown :=
  { s with
    timers := s.timers.map TimerThread.wake
    scheduler := if s.syncMode = .clock then s.scheduler.wake else s.scheduler }

section
variable (s : Shutdown)

@[simp] theorem broadcastClk_running : s.broadcastClk.running = s.running := rfl
@[simp] theorem broadcastClk_clock : s.broadcastClk.clock = s.clock := rfl
@[simp] theorem broadcastClk_clockCancelled :
    s.broadcastClk.clockCancelled = s.clockCancelled := rfl
@[simp] theorem broadcastClk_destroyed : s.broadcastClk.destroyed = s.destroyed := rfl

end

/-- A signal or broadcast on `sched_cond`; only the scheduler waits there. -/
def signalSched (s : Shutdown) : Shutdown :=
  { s with scheduler := if s.syncMode = .timer then s.scheduler.wake else s.scheduler }

/-! ## Steps -/

/-- `create_timer`. -/
def createTimer (s : Shutdown) (spec : TimerSpec) : TimerThread where
  interval := spec.interval
  callback := spec.callback
  lastTick := s.clkCounter
  running := true
  stage := .testing

/-- The loop of `clock_function`, where no cancellation acts. -/
def clockNext (s : Shutdown) : Shutdown :=
  match s.clock with
  | .testing => { s with clock := if s.running then .sleeping else .finished }
  | .sleeping => { s with clock := if s.running then .locking else .finished }
  | .locking => { s.broadcastClk with clkCounter := s.clkCounter + 1, clock := .waiting }
  | .woken => { s with clock := .testing }
  | _ => s

/-- The pending cancellation acts. -/
def cancelNext (s : Shutdown) : Shutdown :=
  { s with clock := if s.clock = .sleeping then .finished else .cancelled }

/-- The critical section behind the wait. -/
def checkTimer (s : Shutdown) (t : TimerThread) : TimerThread :=
  if !t.running || !s.running then { t with stage := .finished }
  else if s.clkCounter - t.lastTick ≥ t.interval then
    { t with
      lastTick := s.clkCounter
      stage := if t.callback then .callback else .testing }
  else { t with stage := .testing }

/-- The loop of `timer_function`; the callback is `timer_scheduler_callback`. -/
def timerNext (s : Shutdown) (i : Nat) : Shutdown :=
  match s.timers[i]? with
  | none => s
  | some t =>
      match t.stage with
      | .testing =>
          { s with
            timers := s.timers.set i
              { t with stage := if t.running && s.running then .locking else .finished } }
      | .locking => { s with timers := s.timers.set i { t with stage := .waiting } }
      | .woken => { s with timers := s.timers.set i (s.checkTimer t), clock := s.clock.wake }
      | .callback =>
          { s.signalSched with timers := s.timers.set i { t with stage := .testing } }
      | _ => s

/-- The pass, from `clk_mutex` on; `broadcasts` tells whether a process goes
back to a priority queue in it, which broadcasts `clk_cond`. -/
def pass (s : Shutdown) (broadcasts : Bool) : Shutdown :=
  { if broadcasts then s.broadcastClk else s with scheduler := .testing }

/-- Neither flag stops the scheduler. -/
def schedulerRuns (s : Shutdown) : Bool := s.schedRunning && s.running

/-- The loop of `scheduler_function`. In timer mode it waits for a signal and then
looks at the flags again; in clock mode it looks at them, and at the counter,
whenever it has `clk_mutex`. -/
def schedulerNext (s : Shutdown) (broadcasts : Bool) : Shutdown :=
  match s.syncMode, s.scheduler with
  | _, .testing => { s with scheduler := if s.schedulerRuns then .locking else .finished }
  | .timer, .locking => { s with scheduler := .waiting }
  | .timer, .woken => { s with scheduler := if s.schedulerRuns then .activated else .finished }
  | .timer, .activated => s.pass broadcasts
  | .clock, .locking | .clock, .woken =>
      if s.schedulerRuns then
        if s.clkCounter = s.schedLastTick then { s with scheduler := .waiting }
        else { s.pass broadcasts with schedLastTick := s.clkCounter }
      else { s with scheduler := .finished }
  | _, _ => s

/-- Where `cleanup_system` goes behind timer `i - 1`. -/
def timerFrom (s : Shutdown) (i : Nat) : MainStage :=
  if i < s.timers.length then .stopTimer i else .finished

/-- `main` from the creation of the scheduler on, and `cleanup_system`: the
joins wait for a thread, the other calls are one step each. -/
def mainNext (s : Shutdown) : Shutdown :=
  match s.main with
  | .createScheduler => { s with scheduler := .created, main := .createTimers }
  | .createTimers =>
      match s.toCreate with
      | [] => { s with main := .startScheduler }
      | spec :: specs =>
          { s with timers := s.timers ++ [s.createTimer spec], toCreate := specs }
  | .startScheduler => { s with schedRunning := true, scheduler := .testing, main := .pausing }
  | .pausing => { s with main := .stopScheduler }
  | .stopScheduler => { s.broadcastClk with schedRunning := false, main := .joinScheduler }
  | .joinScheduler => { s with main := .destroyScheduler }
  | .destroyScheduler => { s with destroyed := true, main := .cancelClock }
  | .cancelClock => { s with clockCancelled := true, main := .joinClock }
  | .joinClock => { s with main := .wakeTimers }
  | .wakeTimers => { s.broadcastClk with main := s.timerFrom 0 }
  | .stopTimer i =>
      let stopped := { s with timers := s.timers.modify i fun t => { t with running := false } }
      { stopped.broadcastClk with main := .joinTimer i }
  | .joinTimer i => { s with main := s.timerFrom (i + 1) }
  | .finished => s

/-- `handle_sigint` behind `running = 0`: it broadcasts `clk_cond`, then signals
the scheduler if there is one. -/
def handlerNext (s : Shutdown) : Shutdown :=
  match s.handler with
  | .lockClk => { s.broadcastClk with handler := .lockSched }
  | .lockSched =>
      { if s.scheduler ≠ .absent then s.signalSched else s with handler := .idle }
  | .idle => s

end Shutdown

/-- A step of a thread, or a signal. -/
inductive ShutdownAction where
  /-- SIGINT arrives, and the handler clears `running`. -/
  | sigint
  | handler
  | main
  | clock
  | cancel
  | timer (i : Nat)
  | scheduler (broadcasts : Bool)
  deriving DecidableEq, Repr

namespace Shutdown

/-- Where timer `i` is, if it was created. -/
def stage? (s : Shutdown) (i : Nat) : Option TimerStage := (s.timers[i]?).map TimerThread.stage

/-- Main can go on: `pause` has returned, the thread it joins has ended, or
`clk_mutex` is there to be locked. -/
def mainReady (s : Shutdown) : Bool :=
  match s.main with
  | .pausing => !s.running
  | .stopScheduler | .wakeTimers | .stopTimer _ => s.clkFree
  | .joinScheduler => decide (s.scheduler = .finished)
  | .joinClock => decide (s.clock = .finished ∨ s.clock = .cancelled)
  | .joinTimer i => decide (s.stage? i = some .finished)
  | .finished => false
  | _ => true

/-- The clock can go on by itself. -/
def clockReady (s : Shutdown) : Bool :=
  match s.clock with
  | .testing | .sleeping | .locking | .woken => true
  | .waiting | .finished | .cancelled => false

/-- Timer `i` can go on; a timer that waits needs a broadcast first. -/
def timerReady (s : Shutdown) (i : Nat) : Bool :=
  match s.stage? i with
  | some .testing | some .callback => true
  | some .locking | some .woken => s.clkFree
  | _ => false

/-- The scheduler can go on. In timer mode only its pass needs `clk_mutex`. -/
def schedulerReady (s : Shutdown) : Bool :=
  match s.scheduler with
  | .testing => true
  | .locking | .woken => decide (s.syncMode = .timer) || s.clkFree
  | .activated => s.clkFree
  | _ => false

/-- The step can be taken. -/
def Enabled (s : Shutdown) : ShutdownAction → Prop
  | .sigint => s.handler = .idle
  | .handler => (s.handler = .lockClk ∧ s.clkFree = true) ∨ s.handler = .lockSched
  -- the handler runs on the main thread
  | .main => s.handler = .idle ∧ s.mainReady = true
  | .clock => s.clockReady = true
  | .cancel => s.clockCancelled = true ∧
      (s.clock = .sleeping ∨ s.clock = .waiting ∨ s.clock = .woken)
  | .timer i => s.timerReady i = true
  | .scheduler broadcasts =>
      s.schedulerReady = true ∧ (broadcasts = true → s.policy = .preemptivePrio)

instance (s : Shutdown) (a : ShutdownAction) : Decidable (s.Enabled a) := by
  cases a <;> unfold Enabled <;> infer_instance

/-- The step itself. -/
def next (s : Shutdown) : ShutdownAction → Shutdown
  | .sigint => { s with running := false, handler := .lockClk }
  | .handler => s.handlerNext
  | .main => s.mainNext
  | .clock => s.clockNext
  | .cancel => s.cancelNext
  | .timer i => s.timerNext i
  | .scheduler broadcasts => s.schedulerNext broadcasts

/-- `main` behind `start_clock`. -/
def start (syncMode : SyncMode) (policy : Policy) (specs : List TimerSpec) : Shutdown where
  syncMode := syncMode
  policy := policy
  running := true
  clkCounter := 0
  clock := .testing
  clockCancelled := false
  timers := []
  toCreate := specs
  scheduler := .absent
  schedRunning := false
  schedLastTick := 0
  destroyed := false
  main := .createScheduler
  handler := .idle

end Shutdown

/-- The runs of all threads, over every interleaving. -/
def shutdownRuns (syncMode : SyncMode) (policy : Policy) (specs : List TimerSpec) :
    Runs Shutdown ShutdownAction :=
  .guarded (· = .start syncMode policy specs) Shutdown.Enabled Shutdown.next

/-- Their steps without a further SIGINT. -/
def quietRuns : Runs Shutdown ShutdownAction :=
  .guarded (fun _ => True) (fun s a => s.Enabled a ∧ a ≠ .sigint) Shutdown.next

namespace Shutdown

/-! ## What a step leaves alone -/

/-- What the clock, the timers and the scheduler only read. -/
structure SameFlags (s t : Shutdown) : Prop where
  syncMode : t.syncMode = s.syncMode
  running : t.running = s.running
  schedRunning : t.schedRunning = s.schedRunning
  clockCancelled : t.clockCancelled = s.clockCancelled
  destroyed : t.destroyed = s.destroyed
  main : t.main = s.main
  handler : t.handler = s.handler
  length : t.timers.length = s.timers.length

variable {s : Shutdown}

theorem sameFlags_clockNext (s : Shutdown) : SameFlags s s.clockNext := by
  unfold clockNext
  split
  all_goals first
    | exact ⟨rfl, rfl, rfl, rfl, rfl, rfl, rfl, rfl⟩
    | exact ⟨rfl, rfl, rfl, rfl, rfl, rfl, rfl, List.length_map ..⟩

theorem sameFlags_cancelNext (s : Shutdown) : SameFlags s s.cancelNext :=
  ⟨rfl, rfl, rfl, rfl, rfl, rfl, rfl, rfl⟩

theorem sameFlags_timerNext (s : Shutdown) (i : Nat) : SameFlags s (s.timerNext i) := by
  unfold timerNext
  split
  · exact ⟨rfl, rfl, rfl, rfl, rfl, rfl, rfl, rfl⟩
  · split
    all_goals first
      | exact ⟨rfl, rfl, rfl, rfl, rfl, rfl, rfl, rfl⟩
      | exact ⟨rfl, rfl, rfl, rfl, rfl, rfl, rfl, List.length_set ..⟩

theorem sameFlags_pass (s : Shutdown) (broadcasts : Bool) : SameFlags s (s.pass broadcasts) := by
  cases broadcasts with
  | false => exact ⟨rfl, rfl, rfl, rfl, rfl, rfl, rfl, rfl⟩
  | true => exact ⟨rfl, rfl, rfl, rfl, rfl, rfl, rfl, List.length_map ..⟩

theorem sameFlags_schedulerNext (s : Shutdown) (broadcasts : Bool) :
    SameFlags s (s.schedulerNext broadcasts) := by
  have hpass := sameFlags_pass s broadcasts
  have hclock : SameFlags s { s.pass broadcasts with schedLastTick := s.clkCounter } :=
    ⟨hpass.1, hpass.2, hpass.3, hpass.4, hpass.5, hpass.6, hpass.7, hpass.8⟩
  unfold schedulerNext
  repeat' split
  all_goals first
    | exact ⟨rfl, rfl, rfl, rfl, rfl, rfl, rfl, rfl⟩
    | exact hpass
    | exact hclock

theorem clockNext_ne_cancelled (s : Shutdown) (he : s.Enabled .clock) :
    s.clockNext.clock ≠ .cancelled := by
  cases hstage : s.clock with
  | testing | sleeping => cases hrun : s.running <;> simp [clockNext, hstage, hrun]
  | locking | woken => simp [clockNext, hstage]
  | waiting | finished | cancelled => simp [Enabled, clockReady, hstage] at he

/-! ## What a step does to the waiting threads -/

/-- A thread other than the clock may wake it. -/
theorem timerNext_clock (s : Shutdown) (i : Nat) :
    (s.timerNext i).clock = s.clock ∨ (s.timerNext i).clock = s.clock.wake := by
  unfold timerNext
  split
  · exact .inl rfl
  · split
    all_goals first
      | exact .inl rfl
      | exact .inr rfl

theorem schedulerNext_clock (s : Shutdown) (broadcasts : Bool) :
    (s.schedulerNext broadcasts).clock = s.clock := by
  have hpass : (s.pass broadcasts).clock = s.clock := by
    cases broadcasts <;> rfl
  unfold schedulerNext
  repeat' split
  all_goals first
    | rfl
    | exact hpass

/-- A broadcast wakes the scheduler or does not concern it. -/
theorem broadcastClk_scheduler (s : Shutdown) :
    s.broadcastClk.scheduler = s.scheduler ∨ s.broadcastClk.scheduler = s.scheduler.wake := by
  unfold broadcastClk
  dsimp only
  split
  · exact .inr rfl
  · exact .inl rfl

theorem signalSched_scheduler (s : Shutdown) :
    s.signalSched.scheduler = s.scheduler ∨ s.signalSched.scheduler = s.scheduler.wake := by
  unfold signalSched
  dsimp only
  split
  · exact .inr rfl
  · exact .inl rfl

theorem clockNext_scheduler (s : Shutdown) :
    s.clockNext.scheduler = s.scheduler ∨ s.clockNext.scheduler = s.scheduler.wake := by
  unfold clockNext
  split
  case h_3 => exact s.broadcastClk_scheduler
  all_goals exact .inl rfl

theorem timerNext_scheduler (s : Shutdown) (i : Nat) :
    (s.timerNext i).scheduler = s.scheduler ∨
      (s.timerNext i).scheduler = s.scheduler.wake := by
  unfold timerNext
  split
  · exact .inl rfl
  · split
    case h_4 => exact s.signalSched_scheduler
    all_goals exact .inl rfl

theorem clockNext_timers (s : Shutdown) :
    s.clockNext.timers = s.timers ∨ s.clockNext.timers = s.timers.map TimerThread.wake := by
  unfold clockNext
  split
  case h_3 => exact .inr rfl
  all_goals exact .inl rfl

theorem schedulerNext_timers (s : Shutdown) (broadcasts : Bool) :
    (s.schedulerNext broadcasts).timers = s.timers ∨
      (s.schedulerNext broadcasts).timers = s.timers.map TimerThread.wake := by
  have hpass : (s.pass broadcasts).timers = s.timers ∨
      (s.pass broadcasts).timers = s.timers.map TimerThread.wake := by
    cases broadcasts with
    | false => exact .inl rfl
    | true => exact .inr rfl
  unfold schedulerNext
  repeat' split
  all_goals first
    | exact .inl rfl
    | exact hpass

theorem timerFrom_cases (s : Shutdown) (i : Nat) :
    (i < s.timers.length ∧ s.timerFrom i = .stopTimer i) ∨ s.timerFrom i = .finished := by
  unfold timerFrom
  split
  · rename_i hi
    exact .inl ⟨hi, rfl⟩
  · exact .inr rfl

theorem timerFrom_stopTimer (s : Shutdown) {i j : Nat} (h : s.timerFrom i = .stopTimer j) :
    j < s.timers.length := by
  rcases s.timerFrom_cases i with ⟨hi, he⟩ | he
  · obtain rfl := MainStage.stopTimer.inj (he.symm.trans h)
    exact hi
  · cases he.symm.trans h

theorem timerFrom_ne_joinTimer (s : Shutdown) (i j : Nat) : s.timerFrom i ≠ .joinTimer j := by
  rcases s.timerFrom_cases i with ⟨_, he⟩ | he <;> rw [he] <;> exact MainStage.noConfusion

/-! ## Callbacks -/

/-- No timer is in its callback. -/
def NoCallback (s : Shutdown) : Prop := ∀ t ∈ s.timers, t.stage ≠ .callback

theorem NoCallback.wake (h : NoCallback s) :
    ∀ t ∈ s.timers.map TimerThread.wake, t.stage ≠ .callback := by
  intro t ht
  obtain ⟨u, hu, rfl⟩ := List.mem_map.mp ht
  exact fun hc => h u hu (TimerStage.wake_eq_callback.mp hc)

theorem NoCallback.keep (h : NoCallback s) {t : Shutdown}
    (htimers : t.timers = s.timers ∨ t.timers = s.timers.map TimerThread.wake) :
    NoCallback t := by
  unfold NoCallback
  rcases htimers with he | he <;> rw [he]
  · exact h
  · exact h.wake

/-- Without `running` a timer finishes where it would call. -/
theorem NoCallback.timerNext (h : NoCallback s) (hrun : s.running = false) (i : Nat) :
    NoCallback (s.timerNext i) := by
  have hset : ∀ u : TimerThread, u.stage ≠ .callback →
      ∀ t ∈ s.timers.set i u, t.stage ≠ .callback := by
    intro u hu t ht
    rcases List.mem_or_eq_of_mem_set ht with ht | rfl
    · exact h t ht
    · exact hu
  unfold Shutdown.timerNext
  split
  · exact h
  · rename_i t _
    split
    · exact hset _ (by simp [hrun])
    · exact hset _ TimerStage.noConfusion
    · exact hset _ (by simp [checkTimer, hrun])
    · exact hset _ TimerStage.noConfusion
    · exact h

theorem NoCallback.mainNext (h : NoCallback s) : NoCallback s.mainNext := by
  cases hstage : s.main with
  | createTimers =>
      simp only [Shutdown.mainNext, hstage]
      split
      · exact h
      · intro t ht
        rcases List.mem_append.mp ht with ht | ht
        · exact h t ht
        · obtain rfl := List.mem_singleton.mp ht
          exact TimerStage.noConfusion
  | stopTimer i =>
      simp only [Shutdown.mainNext, hstage]
      refine NoCallback.wake fun t ht => ?_
      obtain ⟨j, hj⟩ := List.getElem?_of_mem ht
      rw [List.getElem?_modify] at hj
      obtain ⟨u, hu, rfl⟩ := Option.map_eq_some_iff.mp hj
      have hold := h u (List.mem_of_getElem? hu)
      split
      · exact hold
      · exact hold
  | stopScheduler | wakeTimers =>
      simp only [Shutdown.mainNext, hstage]
      exact h.keep (.inr rfl)
  | _ =>
      simp only [Shutdown.mainNext, hstage]
      exact h.keep (.inl rfl)

theorem NoCallback.handlerNext (h : NoCallback s) : NoCallback s.handlerNext := by
  unfold Shutdown.handlerNext
  split
  · exact h.keep (.inr rfl)
  · split
    · exact h
    · exact h
  · exact h

/-- Without `running` no callback begins. -/
theorem NoCallback.next (h : NoCallback s) (hrun : s.running = false) (a : ShutdownAction) :
    NoCallback (s.next a) := by
  cases a with
  | sigint => exact h
  | handler => exact h.handlerNext
  | main => exact h.mainNext
  | clock => exact h.keep s.clockNext_timers
  | cancel => exact h
  | timer i => exact h.timerNext hrun i
  | scheduler broadcasts => exact h.keep (s.schedulerNext_timers broadcasts)

/-! ## Where `main` is -/

end Shutdown

/-- `main` has called `cleanup_system`. -/
def MainStage.inCleanup : MainStage → Bool
  | .createScheduler | .createTimers | .startScheduler | .pausing => false
  | _ => true

/-- The stages in the order of `main`, from `createScheduler` on. -/
def MainStage.rank : MainStage → Nat
  | .createScheduler => 0
  | .createTimers => 1
  | .startScheduler => 2
  | .pausing => 3
  | .stopScheduler => 4
  | .joinScheduler => 5
  | .destroyScheduler => 6
  | .cancelClock => 7
  | .joinClock => 8
  | .wakeTimers => 9
  | .stopTimer _ => 10
  | .joinTimer _ => 10
  | .finished => 11

theorem Shutdown.le_rank_timerFrom (s : Shutdown) (i : Nat) : 10 ≤ (s.timerFrom i).rank := by
  rcases s.timerFrom_cases i with ⟨_, he⟩ | he <;> rw [he]
  · exact Nat.le_refl 10
  · exact Nat.le_succ 10

namespace Shutdown

/-- What `main` has got behind it, in every state. -/
structure Staged (s : Shutdown) : Prop where
  running : 4 ≤ s.main.rank ∨ s.handler ≠ .idle → s.running = false
  notStarted : s.main.rank < 3 → s.scheduler = .absent ∨ s.scheduler = .created
  stopped : 5 ≤ s.main.rank → s.schedRunning = false
  joined : 6 ≤ s.main.rank → s.scheduler = .finished
  destroyed : s.destroyed = true → 7 ≤ s.main.rank
  cancelled : s.clockCancelled = true ↔ 8 ≤ s.main.rank
  held : s.clock = .cancelled → s.clockCancelled = true
  clockJoined : 9 ≤ s.main.rank → s.clock = .finished ∨ s.clock = .cancelled
  inRange : ∀ i, s.main = .stopTimer i → i < s.timers.length

namespace Staged

theorem start (syncMode : SyncMode) (policy : Policy) (specs : List TimerSpec) :
    Staged (.start syncMode policy specs) where
  running := by simp [Shutdown.start, MainStage.rank]
  notStarted := fun _ => .inl rfl
  stopped := fun _ => rfl
  joined := by simp [Shutdown.start, MainStage.rank]
  destroyed := by simp [Shutdown.start]
  cancelled := by simp [Shutdown.start, MainStage.rank]
  held := by simp [Shutdown.start]
  clockJoined := by simp [Shutdown.start, MainStage.rank]
  inRange := by simp [Shutdown.start]

/-- A step of another thread, which leaves a thread that is gone alone. -/
theorem keep (h : Staged s) {t : Shutdown} (hmain : t.main = s.main)
    (hrun : 4 ≤ s.main.rank ∨ t.handler ≠ .idle → t.running = false)
    (hstopped : t.schedRunning = s.schedRunning) (hdestroyed : t.destroyed = s.destroyed)
    (hcancel : t.clockCancelled = s.clockCancelled) (hlength : t.timers.length = s.timers.length)
    (hscheduler : s.scheduler = .absent ∨ s.scheduler = .created ∨ s.scheduler = .finished →
      t.scheduler = s.scheduler)
    (hclock : s.clock = .finished ∨ s.clock = .cancelled → t.clock = s.clock)
    (hheld : t.clock = .cancelled → s.clock = .cancelled ∨ s.clockCancelled = true) :
    Staged t := by
  refine ⟨fun hp => hrun (hmain ▸ hp), fun hr => ?_, fun hr => ?_, fun hr => ?_, fun hd => ?_, ?_,
    fun hc => ?_, fun hr => ?_, fun i hm => ?_⟩
  · have hold := h.notStarted (hmain ▸ hr)
    rwa [hscheduler (by tauto)]
  · exact hstopped.trans (h.stopped (hmain ▸ hr))
  · have hold := h.joined (hmain ▸ hr)
    rwa [hscheduler (by tauto)]
  · rw [hmain]
    exact h.destroyed (hdestroyed ▸ hd)
  · rw [hcancel, hmain]
    exact h.cancelled
  · rw [hcancel]
    exact (hheld hc).elim h.held id
  · have hold := h.clockJoined (hmain ▸ hr)
    rwa [hclock hold]
  · rw [hlength]
    exact h.inRange i (hmain ▸ hm)

/-- A step of `main` among the timers. -/
theorem late (h : Staged s) (hrank : 9 ≤ s.main.rank) {t : Shutdown} (hrank' : 10 ≤ t.main.rank)
    (hrun : t.running = s.running) (hstopped : t.schedRunning = s.schedRunning)
    (hclock : t.clock = s.clock) (hcancel : t.clockCancelled = s.clockCancelled)
    (hscheduler : s.scheduler = .finished → t.scheduler = .finished)
    (hrange : ∀ i, t.main = .stopTimer i → i < t.timers.length) : Staged t where
  running := fun _ => hrun.trans (h.running (.inl (by omega)))
  notStarted := fun _ => by omega
  stopped := fun _ => hstopped.trans (h.stopped (by omega))
  joined := fun _ => hscheduler (h.joined (by omega))
  destroyed := fun _ => by omega
  cancelled := ⟨fun _ => by omega, fun _ => hcancel.trans (h.cancelled.mpr (by omega))⟩
  held := fun hc => hcancel.trans (h.held (hclock ▸ hc))
  clockJoined := fun _ => hclock ▸ h.clockJoined hrank
  inRange := hrange

theorem mainNext (h : Staged s) (he : s.Enabled .main) : Staged s.mainNext := by
  obtain ⟨hidle, hready⟩ := he
  have hbroadcast : ∀ u : Shutdown, u.scheduler = .finished →
      u.broadcastClk.scheduler = .finished := by
    intro u hu
    rcases u.broadcastClk_scheduler with he | he <;> rw [he, hu]
    rfl
  cases hstage : s.main with
  | wakeTimers =>
      simp only [Shutdown.mainNext, hstage]
      exact h.late (by rw [hstage]; decide) (s.le_rank_timerFrom 0) rfl rfl rfl rfl (hbroadcast s)
        fun i hm => by
          rw [broadcastClk, List.length_map]
          exact s.timerFrom_stopTimer hm
  | stopTimer i =>
      simp only [Shutdown.mainNext, hstage]
      exact h.late (by rw [hstage]; exact Nat.le_succ 9) (Nat.le_refl 10) rfl rfl rfl rfl
        (hbroadcast _) fun i hm => by cases hm
  | joinTimer i =>
      simp only [Shutdown.mainNext, hstage]
      exact h.late (by rw [hstage]; exact Nat.le_succ 9) (s.le_rank_timerFrom (i + 1)) rfl rfl rfl
        rfl id fun i hm => s.timerFrom_stopTimer hm
  | finished => simp [mainReady, hstage] at hready
  | createTimers =>
      obtain ⟨hrun, hnot, hstop, hjoin, hdes, hcan, hheld, hclk, hrange⟩ := h
      rw [hstage] at hrun hnot hstop hjoin hdes hcan hclk hrange
      simp only [Shutdown.mainNext, hstage]
      split
      all_goals
        refine ⟨?_, ?_, ?_, ?_, ?_, ?_, hheld, ?_, ?_⟩ <;> simp_all [MainStage.rank]
  | _ =>
      obtain ⟨hrun, hnot, hstop, hjoin, hdes, hcan, hheld, hclk, hrange⟩ := h
      rw [hstage] at hrun hnot hstop hjoin hdes hcan hclk hrange
      simp only [Shutdown.mainNext, hstage]
      refine ⟨?_, ?_, ?_, ?_, ?_, ?_, ?_, ?_, ?_⟩ <;> simp_all [MainStage.rank, mainReady]

theorem keepFlags (h : Staged s) {t : Shutdown} (hf : SameFlags s t)
    (hscheduler : s.scheduler = .absent ∨ s.scheduler = .created ∨ s.scheduler = .finished →
      t.scheduler = s.scheduler)
    (hclock : s.clock = .finished ∨ s.clock = .cancelled → t.clock = s.clock)
    (hheld : t.clock = .cancelled → s.clock = .cancelled ∨ s.clockCancelled = true) :
    Staged t :=
  h.keep hf.main (fun hp => hf.running.trans (h.running (hf.handler ▸ hp))) hf.schedRunning
    hf.destroyed hf.clockCancelled hf.length hscheduler hclock hheld

theorem handlerNext (h : Staged s) : Staged s.handlerNext := by
  unfold Shutdown.handlerNext
  split
  · rename_i hstage
    exact h.keep rfl (fun _ => h.running (.inr (by rw [hstage]; exact HandlerStage.noConfusion)))
      rfl rfl rfl (List.length_map ..) (SchedulerStage.eq_of_wake s.broadcastClk_scheduler)
      (fun _ => rfl) .inl
  · rename_i hstage
    have hrun := h.running (.inr (by rw [hstage]; exact HandlerStage.noConfusion))
    split
    · exact h.keep rfl (fun _ => hrun) rfl rfl rfl rfl
        (SchedulerStage.eq_of_wake s.signalSched_scheduler) (fun _ => rfl) .inl
    · exact h.keep rfl (fun _ => hrun) rfl rfl rfl rfl (fun _ => rfl) (fun _ => rfl) .inl
  · exact h

theorem next (h : Staged s) {a : ShutdownAction} (he : s.Enabled a) : Staged (s.next a) := by
  cases a with
  | sigint =>
      exact h.keep rfl (fun _ => rfl) rfl rfl rfl rfl (fun _ => rfl) (fun _ => rfl) .inl
  | handler => exact h.handlerNext
  | main => exact h.mainNext he
  | clock =>
      refine h.keepFlags (sameFlags_clockNext s) (SchedulerStage.eq_of_wake s.clockNext_scheduler)
        (fun hc => ?_) fun hc => ?_
      · rcases hc with hc | hc <;> simp [Enabled, clockReady, hc] at he
      · exact absurd hc (s.clockNext_ne_cancelled he)
  | cancel =>
      refine h.keepFlags (sameFlags_cancelNext s) (fun _ => rfl) (fun hc => ?_) fun _ => .inr he.1
      rcases hc with hc | hc
      · simp [Enabled, hc] at he
      · simp [Enabled, hc] at he
  | timer i =>
      refine h.keepFlags (sameFlags_timerNext s i)
        (SchedulerStage.eq_of_wake (s.timerNext_scheduler i)) (fun hc => ?_) fun hc => .inl ?_
      · rcases s.timerNext_clock i with he | he
        · exact he
        · refine he.trans ?_
          rcases hc with hc | hc <;> rw [hc] <;> rfl
      · rcases s.timerNext_clock i with he | he
        · exact he.symm.trans hc
        · exact ClockStage.wake_eq_cancelled.mp (he.symm.trans hc)
  | scheduler broadcasts =>
      refine h.keepFlags (sameFlags_schedulerNext s broadcasts) (fun hgone => ?_)
        (fun _ => s.schedulerNext_clock broadcasts)
        fun hc => .inl ((s.schedulerNext_clock broadcasts).symm.trans hc)
      rcases hgone with hg | hg | hg <;> simp [Enabled, schedulerReady, hg] at he

end Staged

theorem staged_of_reachable {syncMode : SyncMode} {policy : Policy} {specs : List TimerSpec}
    (hs : (shutdownRuns syncMode policy specs).Reachable s) : Staged s := by
  refine hs.invariant Staged ?_ ?_
  · rintro s rfl
    exact .start syncMode policy specs
  · rintro s a t h ⟨he, rfl⟩
    exact h.next he

end Shutdown
end LocOS
