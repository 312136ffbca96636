import LocOS.Lib.Runs
import LocOS.Lib.Split
import LocOS.System

/-!
# Handshake

The threads behind the ticks: the clock and the timers of `sys/clock.c` and
`sys/timer.c`, and `main`, which creates the timers one by one while the clock
already runs. A critical section under `clk_mutex` is one step; a thread on a
condition variable moves only when a broadcast has woken it. `running` and
every `timer->running` stay 1.

Neither wait tests a predicate, so a tick is confirmed only by a timer that
was on `clk_cond` when it was broadcast, or had not yet run since an earlier
broadcast.
-/

namespace LocOS

/-! ## Threads -/

/-- The arguments of `create_timer`; `callback` tells whether there is one. -/
structure TimerSpec where
  interval : Int
  callback : Bool
  deriving DecidableEq, Repr

/-- Where a timer is in its loop. -/
inductive TimerPhase where
  /-- At the top of its loop, before it locks `clk_mutex`. -/
  | ready
  /-- On `clk_cond`. -/
  | waiting
  /-- Woken, before it gets `clk_mutex` back. -/
  | woken
  /-- In its callback, outside `clk_mutex`. -/
  | callback
  deriving DecidableEq, Repr

/-- `evaluatedAt` and `interrupts` are history, read by no step: the counter
at the last interval test, and at every interrupt. -/
structure Timer where
  interval : Int
  callback : Bool
  lastTick : Int
  phase : TimerPhase
  evaluatedAt : Option Int
  interrupts : List Int
  deriving DecidableEq, Repr

/-- Where the clock is in its loop. -/
inductive ClockPhase where
  /-- In `usleep`, before it locks `clk_mutex`. -/
  | sleeping
  /-- On `clk_cond2`. -/
  | waiting
  /-- Woken, before it gets `clk_mutex` back. -/
  | woken
  deriving DecidableEq, Repr

/-- `toCreate` are the timers `main` has still to create. -/
structure Handshake where
  clkCounter : Int
  clock : ClockPhase
  timers : List Timer
  toCreate : List TimerSpec
  deriving DecidableEq, Repr

/-! ## Steps -/

/-- `create_timer`: the timer starts from the counter it finds. -/
def createTimer (spec : TimerSpec) (clkCounter : Int) : Timer where
  interval := spec.interval
  callback := spec.callback
  lastTick := clkCounter
  phase := .ready
  evaluatedAt := none
  interrupts := []

/-- What a broadcast of `clk_cond` does to a timer. -/
def TimerPhase.wake : TimerPhase → TimerPhase
  | .waiting => .woken
  | phase => phase

namespace Timer

/-- What a broadcast of `clk_cond` does to a timer, its data apart. -/
def wake (t : Timer) : Timer := { t with phase := t.phase.wake }

/-- The critical section behind the wait. -/
def check (t : Timer) (clkCounter : Int) : Timer :=
  if clkCounter - t.lastTick ≥ t.interval then
    { t with
      -- the counter itself, not a multiple of the interval
      lastTick := clkCounter
      phase := if t.callback then .callback else .ready
      evaluatedAt := some clkCounter
      interrupts := t.interrupts ++ [clkCounter] }
  else { t with phase := .ready, evaluatedAt := some clkCounter }

end Timer

/-- What a broadcast of `clk_cond2` does to the clock. -/
def ClockPhase.wake : ClockPhase → ClockPhase
  | .waiting => .woken
  | phase => phase

/-- The steps of the threads, each up to its next wait or lock. -/
inductive HandshakeAction where
  /-- The clock counts, broadcasts `clk_cond` and waits on `clk_cond2`. -/
  | tick
  /-- The clock returns from its wait. -/
  | resume
  /-- `main` creates its next timer. -/
  | createTimer
  /-- Timer `i` waits on `clk_cond`. -/
  | wait (i : Nat)
  /-- Timer `i` returns from its wait, tests its interval and broadcasts
  `clk_cond2`. -/
  | check (i : Nat)
  /-- Timer `i` returns from its callback. -/
  | callback (i : Nat)
  deriving DecidableEq, Repr

namespace Handshake

/-- Where timer `i` is, if it was created. -/
def phase? (s : Handshake) (i : Nat) : Option TimerPhase := (s.timers[i]?).map Timer.phase

/-- The thread of the step is at it. -/
def Enabled (s : Handshake) : HandshakeAction → Prop
  | .tick => s.clock = .sleeping
  | .resume => s.clock = .woken
  | .createTimer => s.toCreate ≠ []
  | .wait i => s.phase? i = some .ready
  | .check i => s.phase? i = some .woken
  | .callback i => s.phase? i = some .callback

instance (s : Handshake) (a : HandshakeAction) : Decidable (s.Enabled a) := by
  cases a <;> unfold Enabled <;> infer_instance

/-- `pthread_cond_broadcast(&clk_cond)`. -/
def broadcast (s : Handshake) : Handshake := { s with timers := s.timers.map Timer.wake }

/-- Timer `i` goes on. -/
def setPhase (s : Handshake) (i : Nat) (phase : TimerPhase) : Handshake :=
  { s with timers := s.timers.modify i fun t => { t with phase } }

/-- The step itself. -/
def next (s : Handshake) : HandshakeAction → Handshake
  | .tick => { s.broadcast with clkCounter := s.clkCounter + 1, clock := .waiting }
  | .resume => { s with clock := .sleeping }
  | .createTimer =>
      { s with
        timers := s.timers ++ (s.toCreate.take 1).map (LocOS.createTimer · s.clkCounter)
        toCreate := s.toCreate.drop 1 }
  | .wait i => s.setPhase i .waiting
  | .check i =>
      { s with
        timers := s.timers.modify i (·.check s.clkCounter)
        clock := s.clock.wake }
  | .callback i => s.setPhase i .ready

/-- The clock runs, and no timer has been created. -/
def start (specs : List TimerSpec) : Handshake where
  clkCounter := 0
  clock := .sleeping
  timers := []
  toCreate := specs

end Handshake

/-- The runs from a state, over every interleaving. -/
def handshakeRuns (s₀ : Handshake) : Runs Handshake HandshakeAction :=
  .guarded (· = s₀) Handshake.Enabled Handshake.next

/-- The state a list of actions leads to. -/
def Handshake.after (s : Handshake) (as : List HandshakeAction) : Option Handshake :=
  Runs.follow Handshake.Enabled Handshake.next as s

/-- `timers_to_create`, one more for the scheduler in timer mode. The sum is an
`int`: behind the greatest it is negative. -/
def timersToCreate (sync : SyncMode) (numTimers : Int) : Int :=
  match sync with
  | .timer => if numTimers < 1 then 1 else (BitVec.ofInt 32 (numTimers + 1)).toInt
  | .clock => numTimers

/-- The timers `main` creates: in timer mode the first activates the scheduler,
every quantum. -/
def mainTimers (sync : SyncMode) (numTimers quantum timerInterval : Int) : List TimerSpec :=
  (List.range (timersToCreate sync numTimers).toNat).map fun i =>
    if i = 0 ∧ sync = .timer then ⟨quantum, true⟩ else ⟨timerInterval, false⟩

/-! ## Phases after a step -/

namespace Handshake

variable (s : Handshake)

theorem phase?_setPhase (i j : Nat) (phase : TimerPhase) :
    (s.setPhase i phase).phase? j =
      if i = j then (s.phase? j).map fun _ => phase else s.phase? j := by
  simp only [phase?, setPhase, List.getElem?_modify]
  split <;> cases s.timers[j]? <;> rfl

theorem phase?_broadcast (j : Nat) : s.broadcast.phase? j = (s.phase? j).map TimerPhase.wake := by
  simp only [phase?, broadcast, List.getElem?_map, Option.map_map]
  rfl

theorem phase?_createTimer {j : Nat} {phase : TimerPhase} (h : s.phase? j = some phase) :
    (s.next .createTimer).phase? j = some phase := by
  obtain ⟨t, ht, rfl⟩ := Option.map_eq_some_iff.mp h
  have hlt := (List.getElem?_eq_some_iff.mp ht).1
  simp only [phase?, next, List.getElem?_append_left hlt, ht, Option.map_some]

theorem phase?_eq_some {s : Handshake} {i : Nat} {phase : TimerPhase} :
    s.phase? i = some phase ↔ ∃ t, s.timers[i]? = some t ∧ t.phase = phase :=
  Option.map_eq_some_iff

end Handshake

theorem ClockPhase.wake_ne_waiting (phase : ClockPhase) : phase.wake ≠ .waiting := by
  cases phase <;> decide

/-! ## The clock is confirmed -/

namespace Handshake

/-- The clock waits for a confirmation nobody will send. -/
def Stuck (s : Handshake) : Prop :=
  s.clock = .waiting ∧ s.toCreate = [] ∧ ∀ t ∈ s.timers, t.phase = .waiting

instance (s : Handshake) : Decidable s.Stuck := by
  unfold Stuck
  infer_instance

/-- Some timer will return from its wait behind the tick. -/
def Heard (s : Handshake) (a : HandshakeAction) : Prop :=
  a = .tick → ∃ i, s.phase? i = some .waiting ∨ s.phase? i = some .woken

/-- While the clock waits, a woken timer is about to confirm. -/
def Confirmed (s : Handshake) : Prop := s.clock = .waiting → ∃ i, s.phase? i = some .woken

theorem Confirmed.not_stuck {s : Handshake} (h : s.Confirmed) : ¬ s.Stuck := by
  rintro ⟨hclock, _, hall⟩
  obtain ⟨i, hi⟩ := h hclock
  obtain ⟨t, ht, hphase⟩ := phase?_eq_some.mp hi
  have hwaiting := hall t (List.mem_of_getElem? ht)
  rw [hphase] at hwaiting
  cases hwaiting

/-- A step of another timer leaves a woken one woken. -/
theorem phase?_setPhase_woken {s : Handshake} {i j : Nat} {phase phase' : TimerPhase}
    (hi : s.phase? i = some .woken) (hj : s.phase? j = some phase) (hne : phase ≠ .woken) :
    (s.setPhase j phase').phase? i = some .woken := by
  have hij : j ≠ i := by
    rintro rfl
    exact hne (Option.some.inj (hj.symm.trans hi))
  rw [phase?_setPhase, if_neg hij]
  exact hi

theorem Confirmed.next {s : Handshake} (h : s.Confirmed) {a : HandshakeAction}
    (he : s.Enabled a) (hheard : s.Heard a) : (s.next a).Confirmed := by
  intro hclock
  cases a with
  | tick =>
      obtain ⟨i, hi⟩ := hheard rfl
      refine ⟨i, (s.phase?_broadcast i).trans ?_⟩
      rcases hi with hi | hi <;> rw [hi] <;> rfl
  | resume => cases hclock
  | createTimer =>
      obtain ⟨i, hi⟩ := h hclock
      exact ⟨i, s.phase?_createTimer hi⟩
  | wait j =>
      obtain ⟨i, hi⟩ := h hclock
      exact ⟨i, phase?_setPhase_woken hi he (by decide)⟩
  | check j => exact absurd hclock (ClockPhase.wake_ne_waiting _)
  | callback j =>
      obtain ⟨i, hi⟩ := h hclock
      exact ⟨i, phase?_setPhase_woken hi he (by decide)⟩

/-! ## A tick nobody hears -/

/-- The clock waits, and no timer will wake it. -/
structure Unheard (s : Handshake) : Prop where
  clock : s.clock = .waiting
  woken : ∀ i, s.phase? i ≠ some .woken

variable {s : Handshake}

theorem Unheard.tick (hun : ¬ s.Heard .tick) : (s.next .tick).Unheard := by
  have hnone : ¬ ∃ i, s.phase? i = some .waiting ∨ s.phase? i = some .woken :=
    fun h => hun fun _ => h
  refine ⟨rfl, fun i hi => hnone ⟨i, ?_⟩⟩
  obtain ⟨phase, hphase, hwake⟩ := Option.map_eq_some_iff.mp ((s.phase?_broadcast i).symm.trans hi)
  rw [hphase]
  cases phase with
  | waiting => exact .inl rfl
  | woken => exact .inr rfl
  | ready => cases hwake
  | callback => cases hwake

theorem Unheard.setPhase (h : s.Unheard) (i : Nat) {phase : TimerPhase} (hne : phase ≠ .woken) :
    (s.setPhase i phase).Unheard := by
  refine ⟨h.clock, fun j hj => ?_⟩
  rw [phase?_setPhase] at hj
  split at hj
  · obtain ⟨_, _, rfl⟩ := Option.map_eq_some_iff.mp hj
    exact hne rfl
  · exact h.woken j hj

/-- `main` creates the timers it still has to create. -/
theorem Unheard.create (h : s.Unheard) (s₀ : Handshake) :
    ∃ t, (handshakeRuns s₀).Steps s t ∧ t.Unheard ∧ t.toCreate = [] := by
  generalize hspecs : s.toCreate = specs
  induction specs generalizing s with
  | nil => exact ⟨s, .refl s, h, hspecs⟩
  | cons spec specs ih =>
      have hnext : (s.next .createTimer).Unheard := by
        refine ⟨h.clock, fun i hi => ?_⟩
        obtain ⟨t, ht, hphase⟩ := phase?_eq_some.mp hi
        simp only [Handshake.next, List.getElem?_append] at ht
        split at ht
        · exact h.woken i (phase?_eq_some.mpr ⟨t, ht, hphase⟩)
        -- a timer just created is at the top of its loop
        · have hnew := List.mem_of_getElem? ht
          obtain ⟨spec, _, rfl⟩ := List.mem_map.mp hnew
          cases hphase
      obtain ⟨t, hsteps, ht, hdone⟩ := ih hnext (by simp [Handshake.next, hspecs])
      have hstep : (handshakeRuns s₀).step s .createTimer (s.next .createTimer) :=
        ⟨by rw [Enabled, hspecs]; exact List.cons_ne_nil _ _, rfl⟩
      exact ⟨t, (Runs.Steps.single hstep).trans hsteps, ht, hdone⟩

/-- In `t`, timer `i` waits; otherwise it is `s`. -/
structure Settled (s t : Handshake) (i : Nat) : Prop where
  unheard : t.Unheard
  toCreate : t.toCreate = s.toCreate
  length : t.timers.length = s.timers.length
  here : t.phase? i = some .waiting
  elsewhere : ∀ j, j ≠ i → t.phase? j = s.phase? j

/-- One timer goes to wait for a tick. -/
theorem Unheard.settle (h : s.Unheard) (s₀ : Handshake) {i : Nat} (hi : i < s.timers.length) :
    ∃ t, (handshakeRuns s₀).Steps s t ∧ Settled s t i := by
  have hset : ∀ (u : Handshake) phase phase', u.phase? i = some phase →
      (u.setPhase i phase').phase? i = some phase' := by
    intro u phase phase' hphase
    rw [phase?_setPhase, if_pos rfl, hphase]
    rfl
  have hother : ∀ (u : Handshake) phase j, j ≠ i → (u.setPhase i phase).phase? j = u.phase? j :=
    fun u phase j hj => (u.phase?_setPhase i j phase).trans (if_neg (Ne.symm hj))
  have hlength : ∀ (u : Handshake) phase, (u.setPhase i phase).timers.length = u.timers.length :=
    fun u phase => List.length_modify ..
  obtain ⟨phase, hphase⟩ : ∃ phase, s.phase? i = some phase :=
    ⟨_, phase?_eq_some.mpr ⟨_, List.getElem?_eq_getElem hi, rfl⟩⟩
  cases phase with
  | waiting => exact ⟨s, .refl s, h, rfl, rfl, hphase, fun _ _ => rfl⟩
  | woken => exact absurd hphase (h.woken i)
  | ready =>
      have hwait : (handshakeRuns s₀).step s (.wait i) (s.setPhase i .waiting) := ⟨hphase, rfl⟩
      exact ⟨_, .single hwait, h.setPhase i (by decide), rfl, hlength s _, hset s _ _ hphase,
        hother s _⟩
  | callback =>
      have hready := hset s _ .ready hphase
      have hcall : (handshakeRuns s₀).step s (.callback i) (s.setPhase i .ready) := ⟨hphase, rfl⟩
      -- out of the callback first, then to the wait
      have hwait : (handshakeRuns s₀).step (s.setPhase i .ready) (.wait i)
          ((s.setPhase i .ready).setPhase i .waiting) := ⟨hready, rfl⟩
      refine ⟨_, (Runs.Steps.single hcall).trans (.single hwait),
        (h.setPhase i (by decide)).setPhase i (by decide), rfl,
        (hlength _ _).trans (hlength _ _), hset _ _ _ hready, fun j hj => ?_⟩
      exact (hother _ _ j hj).trans (hother _ _ j hj)

/-- All timers go to wait for a tick. -/
theorem Unheard.settle_all (h : s.Unheard) (s₀ : Handshake) (hdone : s.toCreate = []) :
    ∃ t, (handshakeRuns s₀).Steps s t ∧ t.Stuck := by
  have hfirst : ∀ k, k ≤ s.timers.length → ∃ t, (handshakeRuns s₀).Steps s t ∧ t.Unheard ∧
      t.toCreate = [] ∧ t.timers.length = s.timers.length ∧
      ∀ i, i < k → t.phase? i = some .waiting := by
    intro k hk
    induction k with
    | zero => exact ⟨s, .refl s, h, hdone, rfl, fun i hi => absurd hi (Nat.not_lt_zero i)⟩
    | succ k ih =>
        obtain ⟨t, hsteps, hun, htc, hlen, hwait⟩ := ih (Nat.le_of_succ_le hk)
        obtain ⟨u, hsteps', hu⟩ := hun.settle s₀ (i := k) (by omega)
        refine ⟨u, hsteps.trans hsteps', hu.unheard, hu.toCreate.trans htc,
          hu.length.trans hlen, fun i hi => ?_⟩
        by_cases hik : i = k
        · exact hik ▸ hu.here
        · exact (hu.elsewhere i hik).trans (hwait i (by omega))
  obtain ⟨t, hsteps, hun, htc, hlen, hwait⟩ := hfirst _ (Nat.le_refl _)
  refine ⟨t, hsteps, hun.clock, htc, fun timer hmem => ?_⟩
  obtain ⟨i, hi⟩ := List.getElem?_of_mem hmem
  have hphase := hwait i (hlen ▸ (List.getElem?_eq_some_iff.mp hi).1)
  obtain ⟨timer', hi', hphase⟩ := phase?_eq_some.mp hphase
  rwa [Option.some.inj (hi.symm.trans hi')]

end Handshake

/-- The handshake gets stuck only behind a tick that no timer heard: while
every tick is heard, the clock is always confirmed; and once one is not, main
and the timers can all go on to where nobody wakes anybody. -/
theorem handshake_stuck (specs : List TimerSpec) :
    (∀ s, ((handshakeRuns (.start specs)).restrict Handshake.Heard).Reachable s → ¬ s.Stuck) ∧
      ∀ s, s.clock = .sleeping → ¬ s.Heard .tick →
        ∃ t, (handshakeRuns (.start specs)).Steps s t ∧ t.Stuck := by
  constructor
  · intro s hs
    refine Handshake.Confirmed.not_stuck (hs.invariant Handshake.Confirmed ?_ ?_)
    · rintro s rfl hclock
      cases hclock
    · rintro s a t h ⟨hheard, he, rfl⟩
      exact h.next he hheard
  · intro s hclock hun
    have htick : (handshakeRuns (.start specs)).step s .tick (s.next .tick) := ⟨hclock, rfl⟩
    obtain ⟨t, hcreate, ht, hdone⟩ := (Handshake.Unheard.tick hun).create (.start specs)
    obtain ⟨u, hsettle, hu⟩ := ht.settle_all (.start specs) hdone
    exact ⟨u, ((Runs.Steps.single htick).trans hcreate).trans hsettle, hu⟩

/-- One timer on `clk_cond` before the tick, and none at all. -/
theorem handshake_stuck_or_not :
    (∃ s, ((handshakeRuns (.start [⟨5, false⟩])).restrict Handshake.Heard).Reachable s ∧
      s.clock = .waiting ∧ ¬ s.Stuck) ∧
      ∃ t, (handshakeRuns (.start [])).Steps (.start []) t ∧ t.Stuck := by
  constructor
  · have hstart : ((handshakeRuns (.start [⟨5, false⟩])).restrict Handshake.Heard).Reachable
      (.start [⟨5, false⟩]) := .init rfl
    have hcreate := hstart.step (a := .createTimer) ⟨fun h => (by cases h), by decide, rfl⟩
    have hwait := hcreate.step (a := .wait 0) ⟨fun h => (by cases h), by decide, rfl⟩
    have htick := hwait.step (a := .tick) ⟨fun _ => ⟨0, .inl rfl⟩, by decide, rfl⟩
    exact ⟨_, htick, rfl, (handshake_stuck [⟨5, false⟩]).1 _ htick⟩
  · refine (handshake_stuck []).2 _ rfl fun h => ?_
    obtain ⟨i, hi⟩ := h rfl
    simp [Handshake.phase?, Handshake.start] at hi

/-- With `-t 0` the first tick is the last. With one timer it is so when the
timer is created a clock period late. -/
theorem handshake_gets_stuck :
    (∃ s, (handshakeRuns (.start (mainTimers .clock 0 3 5))).Reachable s ∧ s.Stuck) ∧
      ∃ s, (handshakeRuns (.start (mainTimers .clock 1 3 5))).Reachable s ∧ s.Stuck := by
  have hnone : ((Handshake.start (mainTimers .clock 0 3 5)).after [.tick]).any
      (fun s => decide s.Stuck) = true := by decide
  have hlate : ((Handshake.start (mainTimers .clock 1 3 5)).after
      [.tick, .createTimer, .wait 0]).any (fun s => decide s.Stuck) = true := by decide
  obtain ⟨s, hs, hstuck⟩ := (Option.any_eq_true ..).mp hnone
  obtain ⟨s', hs', hstuck'⟩ := (Option.any_eq_true ..).mp hlate
  exact ⟨⟨s, Runs.Reachable.follow (.init rfl) hs, of_decide_eq_true hstuck⟩,
    s', Runs.Reachable.follow (.init rfl) hs', of_decide_eq_true hstuck'⟩

end LocOS
