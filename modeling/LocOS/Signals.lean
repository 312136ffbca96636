import LocOS.Handshake

/-!
# Signals

The scheduler thread in `SCHED_SYNC_TIMER` mode beside the clock and the
timers. A timer interrupt is a signal on `sched_cond` and nothing else: no
flag or counter remembers it, so it reaches the scheduler only when it waits,
or has not begun the pass it was woken for.
-/

namespace LocOS

/-! ## The scheduler thread -/

/-- Where the scheduler is in its loop, in timer mode. -/
inductive SchedulerPhase where
  | notStarted
  /-- At the top of its loop, before it locks `sched_mutex`. -/
  | ready
  /-- On `sched_cond`. -/
  | waiting
  /-- Woken, before it gets `sched_mutex` back. -/
  | woken
  /-- Back from its wait, before it locks `clk_mutex`. -/
  | activated
  /-- In its pass, under `clk_mutex`. -/
  | passing
  deriving DecidableEq, Repr

/-- `pthread_cond_signal(&sched->sched_cond)`. -/
def SchedulerPhase.signal : SchedulerPhase → SchedulerPhase
  | .waiting => .woken
  | phase => phase

/-- All threads. `pending` is history: a callback has run since
`start_scheduler`, and no pass has begun since. -/
structure Threads where
  handshake : Handshake
  scheduler : SchedulerPhase
  pending : Bool
  deriving DecidableEq, Repr

/-- A step of the threads of the handshake, or of the scheduler. -/
inductive ThreadsAction where
  /-- A step of the clock, of `main` creating timers, or of a timer; the
  callback of a timer is `timer_scheduler_callback`. -/
  | timers (a : HandshakeAction)
  /-- `main` calls `start_scheduler`. -/
  | start
  /-- The scheduler waits on `sched_cond`. -/
  | wait
  /-- It returns from its wait and unlocks `sched_mutex`. -/
  | resume
  /-- It locks `clk_mutex` and begins its pass; `broadcasts` tells whether a
  process goes back to a priority queue in it, which broadcasts `clk_cond`. -/
  | pass (broadcasts : Bool)
  /-- It unlocks `clk_mutex`. -/
  | finish
  deriving DecidableEq, Repr

/-- The steps that are critical sections under `clk_mutex`. -/
def HandshakeAction.locksClkMutex : HandshakeAction → Bool
  | .createTimer => false
  | .callback _ => false
  | _ => true

/-- A timer returns from its callback. -/
def ThreadsAction.isCallback : ThreadsAction → Bool
  | .timers (.callback _) => true
  | _ => false

namespace Threads

/-- The thread of the step is at it, and `clk_mutex` is free if it locks it. -/
def Enabled (policy : Policy) (s : Threads) : ThreadsAction → Prop
  | .timers a => s.handshake.Enabled a ∧ (a.locksClkMutex = true → s.scheduler ≠ .passing)
  | .start => s.scheduler = .notStarted ∧ s.handshake.toCreate = []
  | .wait => s.scheduler = .ready
  | .resume => s.scheduler = .woken
  | .pass broadcasts => s.scheduler = .activated ∧ (broadcasts = true → policy = .preemptivePrio)
  | .finish => s.scheduler = .passing

instance (policy : Policy) (s : Threads) (a : ThreadsAction) : Decidable (s.Enabled policy a) := by
  cases a <;> unfold Enabled <;> infer_instance

/-- The step itself. -/
def next (s : Threads) : ThreadsAction → Threads
  | .timers a =>
      let s := { s with handshake := s.handshake.next a }
      match a with
      | .callback _ =>
          { s with
            scheduler := s.scheduler.signal
            pending := s.pending || decide (s.scheduler ≠ .notStarted) }
      | _ => s
  | .start => { s with scheduler := .ready }
  | .wait => { s with scheduler := .waiting }
  | .resume => { s with scheduler := .activated }
  | .pass broadcasts =>
      { handshake := if broadcasts then s.handshake.broadcast else s.handshake
        scheduler := .passing
        pending := false }
  | .finish => { s with scheduler := .ready }

/-- The clock runs, and `main` has neither created a timer nor started the
scheduler. -/
def start (specs : List TimerSpec) : Threads where
  handshake := .start specs
  scheduler := .notStarted
  pending := false

end Threads

/-- The runs of all threads, over every interleaving. -/
def threadsRuns (policy : Policy) (specs : List TimerSpec) : Runs Threads ThreadsAction :=
  .guarded (· = .start specs) (Threads.Enabled policy) Threads.next

/-! ## What is remembered -/

namespace Threads

/-- A callback comes when the scheduler waits, or has not begun the pass it
was woken for, or has not been started. -/
def Received (s : Threads) (a : ThreadsAction) : Prop :=
  a.isCallback = true → s.scheduler ≠ .ready ∧ s.scheduler ≠ .passing

instance (s : Threads) (a : ThreadsAction) : Decidable (s.Received a) := by
  unfold Received
  infer_instance

/-- The scheduler waits although a callback has run since its last pass
began. -/
def Lost (s : Threads) : Prop := s.scheduler = .waiting ∧ s.pending = true

instance (s : Threads) : Decidable s.Lost := by
  unfold Lost
  infer_instance

/-- Behind every callback a pass is about to begin. -/
def Remembers (s : Threads) : Prop :=
  s.pending = true → s.scheduler = .woken ∨ s.scheduler = .activated

variable {s : Threads}

theorem Remembers.not_lost (h : s.Remembers) : ¬ s.Lost := by
  rintro ⟨hwaiting, hpending⟩
  rcases h hpending with hphase | hphase <;> rw [hwaiting] at hphase <;> cases hphase

theorem next_timers {a : HandshakeAction} (h : (ThreadsAction.timers a).isCallback = false) :
    s.next (.timers a) = { s with handshake := s.handshake.next a } := by
  cases a <;> first | rfl | cases h

/-- A callback wakes a waiting scheduler and leaves one about to pass. -/
theorem Remembers.callback {i : Nat} (hr : s.Received (.timers (.callback i)))
    (h : s.Remembers) : (s.next (.timers (.callback i))).Remembers := by
  obtain ⟨hready, hpassing⟩ := hr rfl
  intro hpending
  have hnext : (s.next (.timers (.callback i))).scheduler = s.scheduler.signal := rfl
  have hpend : (s.pending || decide (s.scheduler ≠ .notStarted)) = true := hpending
  rw [hnext]
  cases hphase : s.scheduler with
  | notStarted =>
      rw [hphase] at hpend
      rcases h (by simpa using hpend) with hp | hp <;> rw [hphase] at hp <;> cases hp
  | ready => exact absurd hphase hready
  | passing => exact absurd hphase hpassing
  | waiting => exact .inl rfl
  | woken => exact .inl rfl
  | activated => exact .inr rfl

theorem Remembers.next {policy : Policy} {a : ThreadsAction} (h : s.Remembers)
    (he : s.Enabled policy a) (hr : s.Received a) : (s.next a).Remembers := by
  have hphase : ∀ phase, phase ≠ .woken → phase ≠ .activated → s.scheduler = phase →
      s.pending = false := by
    intro phase hwoken hactivated hs
    by_contra hpending
    rcases h (by simpa using hpending) with hp | hp
    · exact hwoken (hs.symm.trans hp)
    · exact hactivated (hs.symm.trans hp)
  cases a with
  | timers a =>
      cases hcallback : (ThreadsAction.timers a).isCallback with
      | false =>
          rw [next_timers hcallback]
          exact h
      | true =>
          cases a with
          | callback i => exact h.callback hr
          | _ => cases hcallback
  | start =>
      intro hpending
      have hnone := hphase _ (by decide) (by decide) he.1
      rw [show (s.next .start).pending = s.pending from rfl, hnone] at hpending
      cases hpending
  | wait =>
      intro hpending
      have hnone := hphase _ (by decide) (by decide) he
      rw [show (s.next .wait).pending = s.pending from rfl, hnone] at hpending
      cases hpending
  | resume => exact fun _ => .inr rfl
  | pass broadcasts =>
      intro hpending
      cases hpending
  | finish =>
      intro hpending
      have hnone := hphase _ (by decide) (by decide) he
      rw [show (s.next .finish).pending = s.pending from rfl, hnone] at hpending
      cases hpending

/-- A scheduler that has not seen the signal goes on to wait. -/
theorem lost_of_ready (policy : Policy) (specs : List TimerSpec) (hready : s.scheduler = .ready)
    (hpending : s.pending = true) : ∃ t, (threadsRuns policy specs).Steps s t ∧ t.Lost :=
  have hwait : (threadsRuns policy specs).step s .wait (s.next .wait) := ⟨hready, rfl⟩
  ⟨_, .single hwait, rfl, hpending⟩

theorem lost_of_callback {policy : Policy} {specs : List TimerSpec} {a : ThreadsAction}
    (he : s.Enabled policy a) (hr : ¬ s.Received a) :
    ∃ t, (threadsRuns policy specs).Steps s t ∧ t.Lost := by
  obtain ⟨hcallback, hmissed⟩ := Classical.not_imp.mp hr
  cases a with
  | timers a =>
      cases a with
      | callback i =>
          have hstep : (threadsRuns policy specs).step s (.timers (.callback i))
              (s.next (.timers (.callback i))) := ⟨he, rfl⟩
          have hnext : (s.next (.timers (.callback i))).scheduler = s.scheduler.signal := rfl
          have hpending : (s.next (.timers (.callback i))).pending =
              (s.pending || decide (s.scheduler ≠ .notStarted)) := rfl
          by_cases hready : s.scheduler = .ready
          · rw [hready] at hnext hpending
            obtain ⟨t, hsteps, hlost⟩ := lost_of_ready policy specs hnext
              (hpending.trans (by simp))
            exact ⟨t, (Runs.Steps.single hstep).trans hsteps, hlost⟩
          · have hpassing : s.scheduler = .passing := by
              by_contra hne
              exact hmissed ⟨hready, hne⟩
            rw [hpassing] at hnext hpending
            -- the signal finds the scheduler in its pass; it finishes and goes to wait
            have hfinish : (threadsRuns policy specs).step (s.next (.timers (.callback i))) .finish
                ((s.next (.timers (.callback i))).next .finish) := ⟨hnext, rfl⟩
            obtain ⟨t, hsteps, hlost⟩ := lost_of_ready policy specs
              (s := (s.next (.timers (.callback i))).next .finish) rfl
              (hpending.trans (by simp))
            exact ⟨t, ((Runs.Steps.single hstep).trans (.single hfinish)).trans hsteps, hlost⟩
      | _ => cases hcallback
  | _ => cases hcallback

end Threads

/-- A timer interrupt is lost only when it is not received: while every
callback is, a waiting scheduler owes no pass; and a callback that is not
received can leave the scheduler waiting with its pass never begun. -/
theorem interrupts_lost (policy : Policy) (specs : List TimerSpec) :
    (∀ s, ((threadsRuns policy specs).restrict Threads.Received).Reachable s → ¬ s.Lost) ∧
      ∀ s a, s.Enabled policy a → ¬ s.Received a →
        ∃ t, (threadsRuns policy specs).Steps s t ∧ t.Lost := by
  constructor
  · intro s hs
    refine Threads.Remembers.not_lost (hs.invariant Threads.Remembers ?_ ?_)
    · rintro s rfl hpending
      cases hpending
    · rintro s a t h ⟨hr, he, rfl⟩
      exact h.next he hr
  · exact fun s a he hr => Threads.lost_of_callback he hr

/-- The first callback of a timer that interrupts at every tick comes when the
scheduler waits, and before it first waits. -/
theorem interrupts_lost_or_not :
    (∃ s, ((threadsRuns .roundRobin (mainTimers .timer 0 1 5)).restrict
        Threads.Received).Reachable s ∧ s.pending = true ∧ ¬ s.Lost) ∧
      ∃ s, (threadsRuns .roundRobin (mainTimers .timer 0 1 5)).Reachable s ∧
        ∃ t, (threadsRuns .roundRobin (mainTimers .timer 0 1 5)).Steps s t ∧ t.Lost := by
  have hreceived : (Runs.follow (fun s a => Threads.Received s a ∧ s.Enabled .roundRobin a)
      Threads.next [.timers .createTimer, .timers (.wait 0), .start, .wait, .timers .tick,
        .timers (.check 0), .timers (.callback 0)] (.start (mainTimers .timer 0 1 5))).any
      (fun s => s.pending) = true := by decide
  have hearly : (Runs.follow (Threads.Enabled .roundRobin) Threads.next
      [.timers .createTimer, .timers (.wait 0), .start, .timers .tick, .timers (.check 0)]
      (.start (mainTimers .timer 0 1 5))).any (fun s =>
        decide (s.Enabled .roundRobin (.timers (.callback 0)) ∧
          ¬ s.Received (.timers (.callback 0)))) = true := by decide
  obtain ⟨s, hs, hpending⟩ := (Option.any_eq_true ..).mp hreceived
  obtain ⟨s', hs', hcheck⟩ := (Option.any_eq_true ..).mp hearly
  obtain ⟨he, hmissed⟩ := of_decide_eq_true hcheck
  have hreach : ((threadsRuns .roundRobin (mainTimers .timer 0 1 5)).restrict
      Threads.Received).Reachable s := by
    rw [threadsRuns, Runs.restrict_guarded]
    exact .follow (.init rfl) hs
  exact ⟨⟨s, hreach, hpending, (interrupts_lost .roundRobin (mainTimers .timer 0 1 5)).1 s hreach⟩,
    s', .follow (.init rfl) hs',
    (interrupts_lost .roundRobin (mainTimers .timer 0 1 5)).2 s' _ he hmissed⟩

/-- The scheduler starts to wait when the only signal is gone. -/
theorem interrupt_gets_lost :
    ∃ s, (threadsRuns .roundRobin (mainTimers .timer 0 1 5)).Reachable s ∧ s.Lost := by
  have hlost : (Runs.follow (Threads.Enabled .roundRobin) Threads.next
      [.timers .createTimer, .timers (.wait 0), .start, .timers .tick, .timers (.check 0),
        .timers (.callback 0), .wait] (.start (mainTimers .timer 0 1 5))).any
      (fun s => decide s.Lost) = true := by decide
  obtain ⟨s, hs, h⟩ := (Option.any_eq_true ..).mp hlost
  exact ⟨s, .follow (.init rfl) hs, of_decide_eq_true h⟩

end LocOS
