import LocOS.Shutdown

/-!
# Hangs

When the shutdown hangs. Every thread has one place where nobody wakes it any
more: the scheduler in timer mode and the timers between the test of their
flags and their wait, and the clock anywhere but in `usleep`, since it takes
`clk_mutex` with it. Whoever is there at the wrong moment stays there, and
whoever is not leaves its loop.
-/

namespace LocOS

/-! ## Hanging -/

namespace Shutdown

/-- `main` joins a thread that is on a condition variable. -/
def JoinsWaiting (s : Shutdown) : Prop :=
  match s.main with
  | .joinScheduler => s.scheduler = .waiting
  | .joinClock => s.clock = .waiting
  | .joinTimer i => s.stage? i = some .waiting
  | _ => False

/-- `main`, or the handler on its thread, locks `clk_mutex` in
`cleanup_system` when the cancelled clock has it. -/
def LocksHeld (s : Shutdown) : Prop :=
  s.clock = .cancelled ∧ s.main.inCleanup = true ∧
    (s.handler = .lockClk ∨
      s.handler = .idle ∧ (s.main = .stopScheduler ∨ s.main = .wakeTimers ∨
        ∃ i, s.main = .stopTimer i))

/-- The shutdown hangs: without another SIGINT `main` joins a waiting thread
for ever, or it has to lock a mutex that nobody unlocks. -/
def Hung (s : Shutdown) : Prop :=
  (∀ t, quietRuns.Steps s t → t.JoinsWaiting) ∨ s.LocksHeld

/-- The steps behind which nothing hangs. The handler broadcasts `sched_cond`
when the scheduler is not between its test and its wait, `main` cancels the
clock when it is in `usleep` or leaves its loop, and stops a timer when that
one is not between its test and its wait. -/
def Clean (s : Shutdown) : ShutdownAction → Prop
  | .handler => s.handler = .lockSched → s.syncMode = .timer → s.scheduler ≠ .locking
  | .main =>
      match s.main with
      | .cancelClock => s.clock = .testing ∨ s.clock = .sleeping ∨ s.clock = .finished
      | .stopTimer i => s.stage? i ≠ some .locking
      | _ => True
  | _ => True

variable {s : Shutdown}

/-! ## The clock -/

/-- Nobody cancels the clock in its wait. -/
structure ClockStops (s : Shutdown) : Prop where
  free : s.clock ≠ .cancelled
  leaving : s.clockCancelled = true →
    s.clock = .testing ∨ s.clock = .sleeping ∨ s.clock = .finished

namespace ClockStops

/-- A step that at most wakes the clock. -/
theorem keep (h : ClockStops s) {t : Shutdown} (hcancel : t.clockCancelled = s.clockCancelled)
    (hclock : t.clock = s.clock ∨ t.clock = s.clock.wake) : ClockStops t := by
  refine ⟨fun hc => ?_, fun hc => ?_⟩
  · rcases hclock with he | he
    · exact h.free (he.symm.trans hc)
    · exact h.free (ClockStage.wake_eq_cancelled.mp (he.symm.trans hc))
  · have hleave := h.leaving (hcancel ▸ hc)
    have hwake : s.clock.wake = s.clock := by
      rcases hleave with hs | hs | hs <;> rw [hs] <;> rfl
    rw [hwake, or_self] at hclock
    rwa [hclock]

theorem handlerNext (h : ClockStops s) : ClockStops s.handlerNext := by
  unfold Shutdown.handlerNext
  split
  · exact h.keep rfl (.inl rfl)
  · split
    · exact h.keep rfl (.inl rfl)
    · exact h.keep rfl (.inl rfl)
  · exact h

/-- Without `running` the clock leaves its loop. -/
theorem clockNext (h : ClockStops s) (hs : Staged s) (he : s.Enabled .clock) :
    ClockStops s.clockNext := by
  refine ⟨s.clockNext_ne_cancelled he, fun hc => ?_⟩
  rw [(sameFlags_clockNext s).clockCancelled] at hc
  have hr := hs.running (.inl (Nat.le_of_add_right_le (k := 4) (hs.cancelled.mp hc)))
  rcases h.leaving hc with hstage | hstage | hstage
  · simp [Shutdown.clockNext, hstage, hr]
  · simp [Shutdown.clockNext, hstage, hr]
  · simp [Enabled, clockReady, hstage] at he

theorem cancelNext (h : ClockStops s) (he : s.Enabled .cancel) : ClockStops s.cancelNext := by
  have hstage : s.clock = .sleeping := by
    obtain ⟨hc, hnow⟩ := he
    rcases h.leaving hc with hs | hs | hs
    · simp [hs] at hnow
    · exact hs
    · simp [hs] at hnow
  have hnext : s.cancelNext.clock = .finished := if_pos hstage
  refine ⟨?_, fun _ => .inr (.inr hnext)⟩
  rw [hnext]
  exact ClockStage.noConfusion

theorem mainNext (h : ClockStops s) (hclean : s.Clean .main) : ClockStops s.mainNext := by
  cases hstage : s.main with
  | cancelClock =>
      have hleave : s.clock = .testing ∨ s.clock = .sleeping ∨ s.clock = .finished := by
        simpa [Clean, hstage] using hclean
      simp only [Shutdown.mainNext, hstage]
      exact ⟨h.free, fun _ => hleave⟩
  | createTimers =>
      simp only [Shutdown.mainNext, hstage]
      split
      · exact h.keep rfl (.inl rfl)
      · exact h.keep rfl (.inl rfl)
  | _ =>
      simp only [Shutdown.mainNext, hstage]
      exact h.keep rfl (.inl rfl)

theorem next (h : ClockStops s) (hs : Staged s) {a : ShutdownAction} (he : s.Enabled a)
    (hclean : s.Clean a) : ClockStops (s.next a) := by
  cases a with
  | sigint => exact h.keep rfl (.inl rfl)
  | handler => exact h.handlerNext
  | main => exact h.mainNext hclean
  | clock => exact h.clockNext hs he
  | cancel => exact h.cancelNext he
  | timer i => exact h.keep (sameFlags_timerNext s i).clockCancelled (s.timerNext_clock i)
  | scheduler broadcasts =>
      exact h.keep (sameFlags_schedulerNext s broadcasts).clockCancelled
        (.inl (s.schedulerNext_clock broadcasts))

end ClockStops

/-! ## The scheduler -/

/-- The scheduler does not wait when `main` joins it. In timer mode it is the
handler that wakes it, in clock mode `stop_scheduler`. -/
structure SchedulerStops (s : Shutdown) : Prop where
  timerMode : s.syncMode = .timer → s.running = false →
    s.handler = .idle ∨ 4 ≤ s.main.rank → s.scheduler ≠ .locking ∧ s.scheduler ≠ .waiting
  clockMode : s.syncMode = .clock → s.schedRunning = false → s.scheduler ≠ .waiting

namespace SchedulerStops

/-- A step that at most wakes the scheduler. -/
theorem keep (h : SchedulerStops s) {t : Shutdown} (hsync : t.syncMode = s.syncMode)
    (hpast : t.running = false → t.handler = .idle ∨ 4 ≤ t.main.rank →
      s.running = false ∧ (s.handler = .idle ∨ 4 ≤ s.main.rank))
    (hsched : t.schedRunning = s.schedRunning)
    (hstage : t.scheduler = s.scheduler ∨ t.scheduler = s.scheduler.wake) :
    SchedulerStops t := by
  refine ⟨fun hmode hr hp => ?_, fun hmode hr => ?_⟩
  · obtain ⟨hr, hp⟩ := hpast hr hp
    have hold := h.timerMode (hsync ▸ hmode) hr hp
    rcases hstage with he | he <;> rw [he]
    · exact hold
    · exact ⟨fun hl => hold.1 (SchedulerStage.wake_eq_locking.mp hl),
        SchedulerStage.wake_ne_waiting _⟩
  · have hold := h.clockMode (hsync ▸ hmode) (hsched ▸ hr)
    rcases hstage with he | he <;> rw [he]
    · exact hold
    · exact SchedulerStage.wake_ne_waiting _

theorem keepFlags (h : SchedulerStops s) {t : Shutdown} (hf : SameFlags s t)
    (hstage : t.scheduler = s.scheduler ∨ t.scheduler = s.scheduler.wake) : SchedulerStops t :=
  h.keep hf.syncMode (fun hr hp => ⟨hf.running ▸ hr, hf.handler ▸ hf.main ▸ hp⟩) hf.schedRunning
    hstage

theorem handlerNext (h : SchedulerStops s) (hclean : s.Clean .handler) :
    SchedulerStops s.handlerNext := by
  unfold Shutdown.handlerNext
  split
  · exact h.keep rfl (fun hr hp => ⟨hr, .inr (hp.resolve_left HandlerStage.noConfusion)⟩) rfl
      s.broadcastClk_scheduler
  · rename_i hstage
    split
    · refine ⟨fun hmode _ _ => ?_, fun hmode hr => ?_⟩
      -- the broadcast on `sched_cond`
      · have hwoken : s.signalSched.scheduler = s.scheduler.wake := if_pos hmode
        show s.signalSched.scheduler ≠ _ ∧ s.signalSched.scheduler ≠ _
        rw [hwoken]
        exact ⟨fun hl => hclean hstage hmode (SchedulerStage.wake_eq_locking.mp hl),
          SchedulerStage.wake_ne_waiting _⟩
      · have hsame : s.signalSched.scheduler = s.scheduler :=
          if_neg (by rw [show s.syncMode = .clock from hmode]; decide)
        show s.signalSched.scheduler ≠ _
        rw [hsame]
        exact h.clockMode hmode hr
    · rename_i habsent
      have habsent : s.scheduler = .absent := not_not.mp habsent
      refine ⟨fun _ _ _ => ?_, h.clockMode⟩
      show s.scheduler ≠ _ ∧ s.scheduler ≠ _
      rw [habsent]
      decide
  · exact h

theorem mainNext (h : SchedulerStops s) (he : s.Enabled .main) : SchedulerStops s.mainNext := by
  have hpast : ∀ (t : Shutdown), t.running = s.running → t.running = false →
      s.running = false ∧ (s.handler = .idle ∨ 4 ≤ s.main.rank) :=
    fun t hsame hr => ⟨hsame.symm.trans hr, .inl he.1⟩
  cases hstage : s.main with
  | createScheduler | startScheduler =>
      simp only [Shutdown.mainNext, hstage]
      exact ⟨fun _ _ _ => by simp, fun _ _ => by simp⟩
  | createTimers =>
      simp only [Shutdown.mainNext, hstage]
      split
      · exact h.keep rfl (fun hr _ => hpast _ rfl hr) rfl (.inl rfl)
      · exact h.keep rfl (fun hr _ => hpast _ rfl hr) rfl (.inl rfl)
  | stopScheduler =>
      simp only [Shutdown.mainNext, hstage]
      refine ⟨fun hmode hr _ => ?_, fun hmode _ => ?_⟩
      · have hsame : s.broadcastClk.scheduler = s.scheduler :=
          if_neg (by rw [show s.syncMode = .timer from hmode]; decide)
        show s.broadcastClk.scheduler ≠ _ ∧ s.broadcastClk.scheduler ≠ _
        rw [hsame]
        exact h.timerMode hmode hr (.inl he.1)
      · have hwoken : s.broadcastClk.scheduler = s.scheduler.wake := if_pos hmode
        show s.broadcastClk.scheduler ≠ _
        rw [hwoken]
        exact SchedulerStage.wake_ne_waiting _
  | wakeTimers | stopTimer i =>
      simp only [Shutdown.mainNext, hstage]
      exact h.keep rfl (fun hr _ => hpast _ rfl hr) rfl (broadcastClk_scheduler _)
  | _ =>
      simp only [Shutdown.mainNext, hstage]
      exact h.keep rfl (fun hr _ => hpast _ rfl hr) rfl (.inl rfl)

/-- Without its flags the scheduler leaves its loop. -/
theorem schedulerNext (h : SchedulerStops s) (broadcasts : Bool) :
    SchedulerStops (s.schedulerNext broadcasts) := by
  have hf := sameFlags_schedulerNext s broadcasts
  refine ⟨fun hmode hr hp => ?_, fun hmode hr => ?_⟩
  · rw [hf.syncMode] at hmode
    have hold := h.timerMode hmode (hf.running ▸ hr) (hf.handler ▸ hf.main ▸ hp)
    have hruns : s.schedulerRuns = false := by
      simp [schedulerRuns, hf.running ▸ hr]
    cases hstage : s.scheduler with
    | locking => exact absurd hstage hold.1
    | waiting => exact absurd hstage hold.2
    | _ => simp [Shutdown.schedulerNext, hmode, hstage, hruns, pass]
  · rw [hf.syncMode] at hmode
    have hruns : s.schedulerRuns = false := by
      simp [schedulerRuns, hf.schedRunning ▸ hr]
    have hold := h.clockMode hmode (hf.schedRunning ▸ hr)
    cases hstage : s.scheduler with
    | waiting => exact absurd hstage hold
    | _ => simp [Shutdown.schedulerNext, hmode, hstage, hruns]

theorem next (h : SchedulerStops s) (hs : Staged s) {a : ShutdownAction} (he : s.Enabled a)
    (hclean : s.Clean a) : SchedulerStops (s.next a) := by
  cases a with
  | sigint =>
      refine h.keep rfl (fun _ hp => ?_) rfl (.inl rfl)
      have hm : 4 ≤ s.main.rank := hp.resolve_left HandlerStage.noConfusion
      exact ⟨hs.running (.inl hm), .inr hm⟩
  | handler => exact h.handlerNext hclean
  | main => exact h.mainNext he
  | clock => exact h.keepFlags (sameFlags_clockNext s) s.clockNext_scheduler
  | cancel => exact h.keepFlags (sameFlags_cancelNext s) (.inl rfl)
  | timer i => exact h.keepFlags (sameFlags_timerNext s i) (s.timerNext_scheduler i)
  | scheduler broadcasts => exact h.schedulerNext broadcasts

end SchedulerStops

/-! ## The timers -/

theorem checkTimer_running (s : Shutdown) (t : TimerThread) :
    (s.checkTimer t).running = t.running := by
  unfold checkTimer
  split
  · rfl
  · split <;> rfl

theorem checkTimer_stage (s : Shutdown) (t : TimerThread) :
    (s.checkTimer t).stage ≠ .locking ∧ (s.checkTimer t).stage ≠ .waiting := by
  unfold checkTimer
  split
  · exact ⟨TimerStage.noConfusion, TimerStage.noConfusion⟩
  · split
    · cases t.callback <;> exact ⟨TimerStage.noConfusion, TimerStage.noConfusion⟩
    · exact ⟨TimerStage.noConfusion, TimerStage.noConfusion⟩

/-- A timer does not wait when `main` joins it. -/
structure TimersStop (s : Shutdown) : Prop where
  stopped : ∀ t ∈ s.timers, t.running = false → t.stage ≠ .locking ∧ t.stage ≠ .waiting
  joined : ∀ i, s.main = .joinTimer i → ∃ t, s.timers[i]? = some t ∧ t.running = false

namespace TimersStop

/-- A step that at most wakes the timers. -/
theorem keep (h : TimersStop s) {t : Shutdown}
    (htimers : t.timers = s.timers ∨ t.timers = s.timers.map TimerThread.wake)
    (hjoin : ∀ i, t.main = .joinTimer i → s.main = .joinTimer i) : TimersStop t := by
  rcases htimers with he | he
  · refine ⟨he ▸ h.stopped, fun i hm => ?_⟩
    rw [he]
    exact h.joined i (hjoin i hm)
  · refine ⟨fun u hu hr => ?_, fun i hm => ?_⟩
    · rw [he] at hu
      obtain ⟨v, hv, rfl⟩ := List.mem_map.mp hu
      exact ⟨fun hl => (h.stopped v hv hr).1 (TimerStage.wake_eq_locking.mp hl),
        TimerStage.wake_ne_waiting _⟩
    · obtain ⟨v, hv, hr⟩ := h.joined i (hjoin i hm)
      exact ⟨v.wake, by rw [he, List.getElem?_map, hv]; rfl, hr⟩

theorem keepFlags (h : TimersStop s) {t : Shutdown} (hf : SameFlags s t)
    (htimers : t.timers = s.timers ∨ t.timers = s.timers.map TimerThread.wake) : TimersStop t :=
  h.keep htimers fun _ hm => hf.main ▸ hm

/-- A stopped timer leaves its loop. -/
theorem timerNext (h : TimersStop s) (i : Nat) : TimersStop (s.timerNext i) := by
  have hset : ∀ (t u : TimerThread) (s' : Shutdown), s.timers[i]? = some t →
      s'.timers = s.timers.set i u → s'.main = s.main → u.running = t.running →
      (u.running = false → u.stage ≠ .locking ∧ u.stage ≠ .waiting) → TimersStop s' := by
    intro t u s' ht hs' hmain hrunning hu
    refine ⟨fun v hv hr => ?_, fun j hm => ?_⟩
    · rw [hs'] at hv
      rcases List.mem_or_eq_of_mem_set hv with hv | rfl
      · exact h.stopped v hv hr
      · exact hu hr
    · obtain ⟨v, hv, hr⟩ := h.joined j (hmain ▸ hm)
      rw [hs', List.getElem?_set]
      split
      · rename_i hij
        subst hij
        obtain rfl := Option.some.inj (ht.symm.trans hv)
        rw [if_pos (List.getElem?_eq_some_iff.mp hv).1]
        exact ⟨u, rfl, hrunning.trans hr⟩
      · exact ⟨v, hv, hr⟩
  unfold Shutdown.timerNext
  split
  · exact h
  · rename_i t ht
    have hold := h.stopped t (List.mem_of_getElem? ht)
    split
    · refine hset t _ _ ht rfl rfl rfl fun hr => ?_
      have hr : t.running = false := hr
      simp [hr]
    · rename_i hstage
      exact hset t _ _ ht rfl rfl rfl fun hr => absurd hstage (hold hr).1
    · exact hset t _ _ ht rfl rfl (s.checkTimer_running t) fun _ => s.checkTimer_stage t
    · exact hset t _ _ ht rfl rfl rfl fun _ => by simp
    · exact h

/-- `destroy_timer` wakes a timer that has got to its wait. -/
theorem stopTimer (h : TimersStop s) {i : Nat} (hi : i < s.timers.length)
    (hnot : s.stage? i ≠ some .locking) :
    TimersStop { broadcastClk { s with
        timers := s.timers.modify i fun t => { t with running := false } } with
      main := .joinTimer i } := by
  refine ⟨fun u hu hr => ?_, fun j hm => ?_⟩
  · obtain ⟨v, hv, rfl⟩ := List.mem_map.mp hu
    obtain ⟨j, hj⟩ := List.getElem?_of_mem hv
    rw [List.getElem?_modify] at hj
    obtain ⟨w, hw, rfl⟩ := Option.map_eq_some_iff.mp hj
    refine ⟨fun hl => ?_, TimerStage.wake_ne_waiting _⟩
    have hl := TimerStage.wake_eq_locking.mp hl
    by_cases hij : i = j
    · subst hij
      rw [if_pos rfl] at hl
      exact hnot (by rw [stage?, hw]; exact congrArg some hl)
    · rw [if_neg hij] at hl hr
      exact (h.stopped w (List.mem_of_getElem? hw) hr).1 hl
  · obtain rfl : i = j := MainStage.joinTimer.inj hm
    refine ⟨TimerThread.wake { s.timers[i] with running := false }, ?_, rfl⟩
    show ((s.timers.modify i _).map TimerThread.wake)[i]? = _
    rw [List.getElem?_map, List.getElem?_modify, List.getElem?_eq_getElem hi]
    simp

theorem mainNext (h : TimersStop s) (hs : Staged s) (hclean : s.Clean .main) :
    TimersStop s.mainNext := by
  cases hstage : s.main with
  | createTimers =>
      simp only [Shutdown.mainNext, hstage]
      split
      · exact h.keep (.inl rfl) fun i hm => by cases hm
      · refine ⟨fun t ht hr => ?_, fun i hm => by cases hm⟩
        rcases List.mem_append.mp ht with ht | ht
        · exact h.stopped t ht hr
        · obtain rfl := List.mem_singleton.mp ht
          cases hr
  | stopTimer i =>
      have hnot : s.stage? i ≠ some .locking := by
        simpa [Clean, hstage] using hclean
      simp only [Shutdown.mainNext, hstage]
      exact h.stopTimer (hs.inRange i hstage) hnot
  | stopScheduler =>
      simp only [Shutdown.mainNext, hstage]
      exact h.keep (.inr rfl) fun i hm => by cases hm
  | wakeTimers =>
      simp only [Shutdown.mainNext, hstage]
      exact h.keep (.inr rfl) fun i hm => absurd hm (s.timerFrom_ne_joinTimer 0 i)
  | joinTimer j =>
      simp only [Shutdown.mainNext, hstage]
      exact h.keep (.inl rfl) fun i hm => absurd hm (s.timerFrom_ne_joinTimer (j + 1) i)
  | finished =>
      simp only [Shutdown.mainNext, hstage]
      exact h
  | _ =>
      simp only [Shutdown.mainNext, hstage]
      exact h.keep (.inl rfl) fun i hm => by cases hm

theorem handlerNext (h : TimersStop s) : TimersStop s.handlerNext := by
  unfold Shutdown.handlerNext
  split
  · exact h.keep (.inr rfl) fun _ => id
  · split
    · exact h.keep (.inl rfl) fun _ => id
    · exact h.keep (.inl rfl) fun _ => id
  · exact h

theorem next (h : TimersStop s) (hs : Staged s) {a : ShutdownAction} (hclean : s.Clean a) :
    TimersStop (s.next a) := by
  cases a with
  | sigint => exact h.keep (.inl rfl) fun _ => id
  | handler => exact h.handlerNext
  | main => exact h.mainNext hs hclean
  | clock => exact h.keepFlags (sameFlags_clockNext s) s.clockNext_timers
  | cancel => exact h.keepFlags (sameFlags_cancelNext s) (.inl rfl)
  | timer i => exact h.timerNext i
  | scheduler broadcasts =>
      exact h.keepFlags (sameFlags_schedulerNext s broadcasts)
        (s.schedulerNext_timers broadcasts)

end TimersStop

/-! ## No hang -/

/-- What every state of a clean run satisfies. -/
structure Stops (s : Shutdown) : Prop where
  staged : Staged s
  clock : ClockStops s
  scheduler : SchedulerStops s
  timers : TimersStop s

namespace Stops

theorem start (syncMode : SyncMode) (policy : Policy) (specs : List TimerSpec) :
    Stops (.start syncMode policy specs) where
  staged := .start syncMode policy specs
  clock := ⟨ClockStage.noConfusion, fun hc => (by cases hc)⟩
  scheduler := ⟨fun _ hr => (by cases hr), fun _ _ => SchedulerStage.noConfusion⟩
  timers := ⟨fun _ ht => (by cases ht), fun _ hm => (by cases hm)⟩

theorem next (h : Stops s) {a : ShutdownAction} (he : s.Enabled a) (hclean : s.Clean a) :
    Stops (s.next a) :=
  ⟨h.staged.next he, h.clock.next h.staged he hclean, h.scheduler.next h.staged he hclean,
    h.timers.next h.staged hclean⟩

/-- Nobody waits whom `main` joins, and `clk_mutex` is free. -/
theorem not_hung (h : Stops s) : ¬ s.Hung := by
  rintro (hjoin | ⟨hheld, _⟩)
  · have hwait : s.JoinsWaiting := hjoin s (.refl s)
    unfold JoinsWaiting at hwait
    split at hwait
    · rename_i hm
      have hrank : 4 ≤ s.main.rank := by
        rw [hm]
        decide
      cases hmode : s.syncMode with
      | timer =>
          exact (h.scheduler.timerMode hmode (h.staged.running (.inl hrank)) (.inr hrank)).2 hwait
      | clock =>
          exact h.scheduler.clockMode hmode (h.staged.stopped (by rw [hm]; decide)) hwait
    · rename_i hm
      have hleave := h.clock.leaving (h.staged.cancelled.mpr (by rw [hm]; decide))
      rw [hwait] at hleave
      simp at hleave
    · rename_i i hm
      obtain ⟨t, ht, hr⟩ := h.timers.joined i hm
      rw [stage?, ht] at hwait
      exact (h.timers.stopped t (List.mem_of_getElem? ht) hr).2 (Option.some.inj hwait)
    · exact hwait
  · exact h.clock.free hheld

end Stops

/-! ## Hangs -/

theorem steps_next {a : ShutdownAction} (he : s.Enabled a) (hquiet : a ≠ .sigint) :
    quietRuns.Steps s (s.next a) :=
  .single (a := a) ⟨⟨he, hquiet⟩, rfl⟩

theorem steps_of_quiet {syncMode : SyncMode} {policy : Policy} {specs : List TimerSpec}
    {t : Shutdown} (h : quietRuns.Steps s t) : (shutdownRuns syncMode policy specs).Steps s t := by
  induction h with
  | refl => exact .refl _
  | tail _ hstep ih => exact ih.tail ⟨hstep.1.1, hstep.2⟩

theorem next_main_of_cancelClock (hm : s.main = .cancelClock) :
    s.next .main = { s with clockCancelled := true, main := .joinClock } := by
  simp [next, mainNext, hm]

theorem next_main_of_joinClock (hm : s.main = .joinClock) :
    s.next .main = { s with main := .wakeTimers } := by
  simp [next, mainNext, hm]

theorem next_clock_of_locking (hstage : s.clock = .locking) :
    s.next .clock = { s.broadcastClk with clkCounter := s.clkCounter + 1, clock := .waiting } := by
  simp [next, clockNext, hstage]

/-- `main` waits for ever while something holds in which it waits and which only
a SIGINT ends. -/
theorem hung_of_invariant {P : Shutdown → Prop} (h : P s)
    (hnext : ∀ s a, P s → s.Enabled a → a ≠ .sigint → P (s.next a))
    (hwaits : ∀ s, P s → s.JoinsWaiting) : s.Hung := by
  refine .inl fun t ht => hwaits t (ht.invariant P h fun s a t h hstep => ?_)
  obtain ⟨⟨he, hquiet⟩, rfl⟩ := hstep
  exact hnext s a h he hquiet

/-! ### The clock takes `clk_mutex` with it -/

/-- The cancellation finds the clock in its wait, and `main` goes on to lock
`clk_mutex`. -/
theorem hung_of_cancelled (hcancel : s.clockCancelled = true)
    (hstage : s.clock = .waiting ∨ s.clock = .woken) (hm : s.main = .joinClock)
    (hidle : s.handler = .idle) :
    ∃ t, quietRuns.Steps s t ∧ t.Hung := by
  have hcancels : s.Enabled .cancel := ⟨hcancel, .inr hstage⟩
  have hgone : s.next .cancel = { s with clock := .cancelled } := by
    rcases hstage with hs | hs <;> simp [next, cancelNext, hs]
  have hjoins : (s.next .cancel).Enabled .main := by
    rw [hgone]
    exact ⟨hidle, by simp [mainReady, hm]⟩
  refine ⟨_, (steps_next hcancels (by simp)).trans (steps_next hjoins (by simp)), .inr ?_⟩
  rw [next_main_of_joinClock (by rw [hgone]; exact hm), hgone]
  exact ⟨rfl, rfl, .inr ⟨hidle, .inr (.inl rfl)⟩⟩

theorem hung_of_cancelClock (h : Staged s) (he : s.Enabled .main) (hm : s.main = .cancelClock)
    (hclock : ¬ (s.clock = .testing ∨ s.clock = .sleeping ∨ s.clock = .finished)) :
    ∃ t, quietRuns.Steps s t ∧ t.Hung := by
  have hfree : s.clock ≠ .cancelled := by
    intro hc
    have hrank := h.cancelled.mp (h.held hc)
    rw [hm] at hrank
    exact absurd hrank (by decide)
  have hsteps := steps_next he (by simp)
  have hnext := next_main_of_cancelClock hm
  cases hstage : s.clock with
  | testing | sleeping | finished => simp [hstage] at hclock
  | cancelled => exact absurd hstage hfree
  | waiting | woken =>
      obtain ⟨t, ht, hung⟩ := hung_of_cancelled (s := s.next .main) (by rw [hnext])
        (by rw [hnext]; simp [hstage]) (by rw [hnext]) (by rw [hnext]; exact he.1)
      exact ⟨t, hsteps.trans ht, hung⟩
  -- it still counts, and is cancelled in the wait behind that
  | locking =>
      have hcounts : (s.next .main).Enabled .clock := by
        rw [hnext]
        simp [Enabled, clockReady, hstage]
      have hwaits := next_clock_of_locking (s := s.next .main) (by rw [hnext]; exact hstage)
      obtain ⟨t, ht, hung⟩ := hung_of_cancelled (s := (s.next .main).next .clock)
        (by rw [hwaits, hnext]; rfl) (by rw [hwaits]; exact .inl rfl) (by rw [hwaits, hnext]; rfl)
        (by rw [hwaits, hnext]; exact he.1)
      exact ⟨t, (hsteps.trans (steps_next hcounts (by simp))).trans ht, hung⟩

/-! ### A timer misses the last broadcast -/

theorem stage?_timerNext_ne (s : Shutdown) {i j : Nat} (hij : j ≠ i) :
    (s.timerNext j).stage? i = s.stage? i := by
  unfold timerNext
  split
  · rfl
  · split
    all_goals simp [stage?, List.getElem?_set_ne hij]

/-- `main` joins timer `i`, which waits, and nobody is left to wake it. -/
structure TimerStuck (i : Nat) (s : Shutdown) : Prop where
  main : s.main = .joinTimer i
  handler : s.handler = .idle
  clock : s.clock = .finished
  scheduler : s.scheduler = .finished
  waiting : s.stage? i = some .waiting

theorem TimerStuck.next {i : Nat} (h : TimerStuck i s) {a : ShutdownAction} (he : s.Enabled a)
    (hquiet : a ≠ .sigint) : TimerStuck i (s.next a) := by
  cases a with
  | sigint => exact absurd rfl hquiet
  | handler => simp [Enabled, h.handler] at he
  | main => simp [Enabled, mainReady, h.main, h.waiting] at he
  | clock => simp [Enabled, clockReady, h.clock] at he
  | cancel => simp [Enabled, h.clock] at he
  | scheduler broadcasts => simp [Enabled, schedulerReady, h.scheduler] at he
  | timer j =>
      have hij : j ≠ i := by
        rintro rfl
        simp [Enabled, timerReady, h.waiting] at he
      have hf := sameFlags_timerNext s j
      refine ⟨hf.main.trans h.main, hf.handler.trans h.handler, ?_, ?_,
        (s.stage?_timerNext_ne hij).trans h.waiting⟩
      · have hclock := s.timerNext_clock j
        rw [h.clock] at hclock
        exact hclock.elim id id
      · have hscheduler := s.timerNext_scheduler j
        rw [h.scheduler] at hscheduler
        exact hscheduler.elim id id

theorem TimerStuck.hung {i : Nat} (h : TimerStuck i s) : s.Hung := by
  refine hung_of_invariant h (fun s a h he hquiet => h.next he hquiet) fun s h => ?_
  unfold JoinsWaiting
  rw [h.main]
  exact h.waiting

theorem next_main_of_stopTimer {i : Nat} (hm : s.main = .stopTimer i) :
    s.next .main =
      { broadcastClk { s with
          timers := s.timers.modify i fun t => { t with running := false } } with
        main := .joinTimer i } := by
  simp [next, mainNext, hm]

theorem hung_of_stopTimer (h : Staged s) (he : s.Enabled .main) {i : Nat}
    (hm : s.main = .stopTimer i) (hlocking : s.stage? i = some .locking) :
    ∃ t, quietRuns.Steps s t ∧ t.Hung := by
  obtain ⟨hidle, hready⟩ := id he
  have hnext := next_main_of_stopTimer hm
  have hfinished := h.joined (by rw [hm]; exact Nat.le_add_left 6 4)
  have hclock : s.clock = .finished := by
    refine (h.clockJoined (by rw [hm]; exact Nat.le_succ 9)).resolve_right ?_
    simpa [mainReady, hm, clkFree] using hready
  obtain ⟨t, ht, hstage⟩ := Option.map_eq_some_iff.mp hlocking
  have ht' : (s.next .main).timers[i]? = some { t with running := false } := by
    rw [hnext, broadcastClk, List.getElem?_map, List.getElem?_modify, ht]
    simp [TimerThread.wake, hstage, TimerStage.wake]
  have hwaits : (s.next .main).next (.timer i) =
      { s.next .main with
        timers := (s.next .main).timers.set i { t with running := false, stage := .waiting } } := by
    simp only [next, timerNext] at ht' ⊢
    rw [ht']
    simp [hstage]
  have he' : (s.next .main).Enabled (.timer i) := by
    simp only [Enabled, timerReady, stage?, ht', Option.map_some, hstage]
    rw [hnext]
    simp [clkFree, hclock]
  have hsteps := (steps_next he (by simp)).trans (steps_next he' (by simp))
  refine ⟨_, hsteps, TimerStuck.hung (i := i) ?_⟩
  rw [hwaits]
  refine ⟨by rw [hnext], by rw [hnext]; exact hidle, by rw [hnext]; exact hclock, ?_, ?_⟩
  · rw [hnext]
    rcases broadcastClk_scheduler { s with timers := _ } with he | he
    · exact he.trans hfinished
    · refine he.trans ?_
      show s.scheduler.wake = _
      rw [hfinished]
      rfl
  · simp [stage?, (List.getElem?_eq_some_iff.mp ht').1]

/-! ### The scheduler misses the broadcast -/

/-- `main` joins the scheduler, which waits on `sched_cond`, and no callback
will come. -/
structure SchedulerStuck (s : Shutdown) : Prop where
  syncMode : s.syncMode = .timer
  running : s.running = false
  main : s.main = .joinScheduler
  handler : s.handler = .idle
  waiting : s.scheduler = .waiting
  noCallback : NoCallback s

theorem SchedulerStuck.next (h : SchedulerStuck s) {a : ShutdownAction} (he : s.Enabled a)
    (hquiet : a ≠ .sigint) : SchedulerStuck (s.next a) := by
  have hkeep : SameFlags s (s.next a) → (s.next a).scheduler = s.scheduler →
      SchedulerStuck (s.next a) := fun hf hscheduler =>
    ⟨hf.syncMode.trans h.syncMode, hf.running.trans h.running, hf.main.trans h.main,
      hf.handler.trans h.handler, hscheduler.trans h.waiting, h.noCallback.next h.running a⟩
  have hbroadcast : s.broadcastClk.scheduler = s.scheduler :=
    if_neg (by rw [h.syncMode]; decide)
  cases a with
  | sigint => exact absurd rfl hquiet
  | handler => simp [Enabled, h.handler] at he
  | main => simp [Enabled, mainReady, h.main, h.waiting] at he
  | scheduler broadcasts => simp [Enabled, schedulerReady, h.waiting] at he
  | cancel => exact hkeep (sameFlags_cancelNext s) rfl
  | clock =>
      refine hkeep (sameFlags_clockNext s) ?_
      show s.clockNext.scheduler = _
      unfold clockNext
      split
      case h_3 => exact hbroadcast
      all_goals rfl
  | timer i =>
      refine hkeep (sameFlags_timerNext s i) ?_
      show (s.timerNext i).scheduler = _
      unfold timerNext
      split
      · rfl
      · rename_i t ht
        split
        case h_4 hstage => exact absurd hstage (h.noCallback t (List.mem_of_getElem? ht))
        all_goals rfl

theorem SchedulerStuck.hung (h : SchedulerStuck s) : s.Hung := by
  refine hung_of_invariant h (fun s a h he hquiet => h.next he hquiet) fun s h => ?_
  unfold JoinsWaiting
  rw [h.main]
  exact h.waiting

/-- The timers return from their callbacks, and wake nobody. -/
theorem steps_callbacks (hwake : s.scheduler.wake = s.scheduler) :
    ∃ ts, quietRuns.Steps s { s with timers := ts } ∧
      NoCallback { s with timers := ts } := by
  have hfirst : ∀ k, k ≤ s.timers.length → ∃ ts,
      quietRuns.Steps s { s with timers := ts } ∧
      ts.length = s.timers.length ∧
      ∀ (i : Nat) (t : TimerThread), i < k → ts[i]? = some t → t.stage ≠ .callback := by
    intro k hk
    induction k with
    | zero => exact ⟨s.timers, .refl s, rfl, fun i _ hi => absurd hi (Nat.not_lt_zero i)⟩
    | succ k ih =>
        obtain ⟨ts, hsteps, hlen, hquiet⟩ := ih (Nat.le_of_succ_le hk)
        obtain ⟨u, hu⟩ : ∃ u, ts[k]? = some u :=
          ⟨_, List.getElem?_eq_getElem (by omega)⟩
        by_cases hcall : u.stage = .callback
        · have hreturns : Enabled { s with timers := ts } (.timer k) := by
            simp [Enabled, timerReady, stage?, hu, hcall]
          have hnext : Shutdown.next { s with timers := ts } (.timer k) =
              { s with timers := ts.set k { u with stage := .testing } } := by
            simp [Shutdown.next, timerNext, hu, hcall, signalSched, hwake]
          have hstep := steps_next hreturns (by simp)
          rw [hnext] at hstep
          refine ⟨_, hsteps.trans hstep, (List.length_set ..).trans hlen, fun i t hi ht => ?_⟩
          rw [List.getElem?_set] at ht
          split at ht
          · split at ht
            · obtain rfl := Option.some.inj ht
              exact TimerStage.noConfusion
            · cases ht
          · exact hquiet i t (by omega) ht
        · refine ⟨ts, hsteps, hlen, fun i t hi ht => ?_⟩
          rcases Nat.lt_succ_iff_lt_or_eq.mp hi with hi | rfl
          · exact hquiet i t hi ht
          · obtain rfl := Option.some.inj (hu.symm.trans ht)
            exact hcall
  obtain ⟨ts, hsteps, hlen, hquiet⟩ := hfirst _ (Nat.le_refl _)
  refine ⟨ts, hsteps, fun t ht => ?_⟩
  obtain ⟨i, hi⟩ := List.getElem?_of_mem ht
  exact hquiet i t (hlen ▸ (List.getElem?_eq_some_iff.mp hi).1) hi

/-- `main` goes on to join a scheduler that waits. -/
theorem hung_of_waiting (hsync : s.syncMode = .timer) (hrun : s.running = false)
    (hidle : s.handler = .idle) (hwait : s.scheduler = .waiting) (hquiet : NoCallback s)
    (hfree : s.clkFree = true)
    (hm : s.main = .pausing ∨ s.main = .stopScheduler ∨ s.main = .joinScheduler) :
    ∃ t, quietRuns.Steps s t ∧ t.Hung := by
  have hjoin : ∀ u : Shutdown, u.syncMode = .timer → u.running = false → u.handler = .idle →
      u.scheduler = .waiting → NoCallback u → u.clkFree = true → u.main = .stopScheduler →
      ∃ t, quietRuns.Steps u t ∧ t.Hung := by
    intro u hsync hrun hidle hwait hquiet hfree hm
    have hnext : u.next .main =
        { u.broadcastClk with schedRunning := false, main := .joinScheduler } := by
      simp [Shutdown.next, mainNext, hm]
    refine ⟨u.next .main, steps_next ⟨hidle, by simp [mainReady, hm, hfree]⟩ (by simp),
      SchedulerStuck.hung ?_⟩
    rw [hnext]
    refine ⟨hsync, hrun, rfl, hidle, ?_, hquiet.keep (.inr rfl)⟩
    have hsame : u.broadcastClk.scheduler = u.scheduler := if_neg (by rw [hsync]; decide)
    exact hsame.trans hwait
  rcases hm with hm | hm | hm
  · have hnext : s.next .main = { s with main := .stopScheduler } := by
      simp [Shutdown.next, mainNext, hm]
    have hready : s.Enabled .main := ⟨hidle, by simp [mainReady, hm, hrun]⟩
    have hstep := steps_next hready (by simp)
    obtain ⟨t, ht, hung⟩ := hjoin (s.next .main) (by rw [hnext]; exact hsync)
      (by rw [hnext]; exact hrun) (by rw [hnext]; exact hidle) (by rw [hnext]; exact hwait)
      (by rw [hnext]; exact hquiet) (by rw [hnext]; exact hfree) (by rw [hnext])
    exact ⟨t, hstep.trans ht, hung⟩
  · exact hjoin s hsync hrun hidle hwait hquiet hfree hm
  · exact ⟨s, .refl s, SchedulerStuck.hung ⟨hsync, hrun, hm, hidle, hwait, hquiet⟩⟩

theorem hung_of_handler (h : Staged s) (hhandler : s.handler = .lockSched)
    (hsync : s.syncMode = .timer) (hlocking : s.scheduler = .locking) :
    ∃ t, quietRuns.Steps s t ∧ t.Hung := by
  have hrun := h.running (.inr (by rw [hhandler]; exact HandlerStage.noConfusion))
  have hm : s.main = .pausing ∨ s.main = .stopScheduler ∨ s.main = .joinScheduler := by
    have hstarted : ¬ s.main.rank < 3 := fun hr => by
      have hold := h.notStarted hr
      simp [hlocking] at hold
    have hjoined : ¬ 6 ≤ s.main.rank := fun hr => by
      have hold := h.joined hr
      simp [hlocking] at hold
    cases hstage : s.main <;> simp [hstage, MainStage.rank] at hstarted hjoined ⊢
  have hfree : s.clkFree = true := by
    refine decide_eq_true fun hc => ?_
    have hrank := h.cancelled.mp (h.held hc)
    rcases hm with hm | hm | hm <;> rw [hm] at hrank <;> exact absurd hrank (by decide)
  have hnext : s.next .handler = { s with handler := .idle } := by
    simp [Shutdown.next, Shutdown.handlerNext, hhandler, hlocking, signalSched,
      SchedulerStage.wake]
  have hready : s.Enabled .handler := .inr hhandler
  have hstep := steps_next hready (by simp)
  rw [hnext] at hstep
  obtain ⟨ts, hreturn, hquiet⟩ := steps_callbacks (s := { s with handler := .idle })
    (by simp [hlocking, SchedulerStage.wake])
  -- nobody calls any more when the scheduler goes to wait
  have hwaits : Shutdown.next { s with handler := .idle, timers := ts } (.scheduler false) =
      { s with handler := .idle, timers := ts, scheduler := .waiting } := by
    simp [Shutdown.next, Shutdown.schedulerNext, hsync, hlocking]
  have hlocks : Enabled { s with handler := .idle, timers := ts } (.scheduler false) :=
    ⟨by simp [schedulerReady, hsync, hlocking], by simp⟩
  have hwait := steps_next hlocks (by simp)
  rw [hwaits] at hwait
  obtain ⟨t, ht, hung⟩ := hung_of_waiting
    (s := { s with handler := .idle, timers := ts, scheduler := .waiting })
    hsync hrun rfl rfl hquiet hfree hm
  exact ⟨t, ((hstep.trans hreturn).trans hwait).trans ht, hung⟩

/-- Behind every step that is not clean the shutdown can hang. -/
theorem hung_of_not_clean (h : Staged s) {a : ShutdownAction} (he : s.Enabled a)
    (hclean : ¬ s.Clean a) :
    ∃ t, quietRuns.Steps s t ∧ t.Hung := by
  cases a with
  | handler =>
      simp only [Clean, Classical.not_imp, not_not] at hclean
      obtain ⟨hhandler, hsync, hlocking⟩ := hclean
      exact hung_of_handler h hhandler hsync hlocking
  | main =>
      cases hm : s.main with
      | cancelClock =>
          simp only [Clean, hm] at hclean
          exact hung_of_cancelClock h he hm hclean
      | stopTimer i =>
          simp only [Clean, hm, not_not] at hclean
          exact hung_of_stopTimer h he hm hclean
      | _ => simp [Clean, hm] at hclean
  | _ => exact absurd trivial hclean

end Shutdown

/-- The shutdown hangs only behind a step that is not clean: in a clean run,
whenever the signal comes, `main` joins every thread and gets every lock; and
behind every other step it can hang. -/
theorem shutdown_hangs (syncMode : SyncMode) (policy : Policy) (specs : List TimerSpec) :
    (∀ s, ((shutdownRuns syncMode policy specs).restrict Shutdown.Clean).Reachable s → ¬ s.Hung) ∧
      ∀ s a, (shutdownRuns syncMode policy specs).Reachable s → s.Enabled a → ¬ s.Clean a →
        ∃ t, (shutdownRuns syncMode policy specs).Steps s t ∧ t.Hung := by
  constructor
  · intro s hs
    refine Shutdown.Stops.not_hung (hs.invariant Shutdown.Stops ?_ ?_)
    · rintro s rfl
      exact .start syncMode policy specs
    · rintro s a t h ⟨hclean, he, rfl⟩
      exact h.next he hclean
  · intro s a hs he hclean
    obtain ⟨t, ht, hung⟩ := Shutdown.hung_of_not_clean (Shutdown.staged_of_reachable hs) he hclean
    exact ⟨t, Shutdown.steps_of_quiet ht, hung⟩

/-- Without timers nobody ever confirms a tick: the clock is in its wait when
`main` cancels it. -/
theorem shutdown_hangs_without_timers :
    ∃ s, (shutdownRuns .clock .roundRobin (mainTimers .clock 0 3 5)).Reachable s ∧ s.Hung := by
  have hrun : (Runs.follow Shutdown.Enabled Shutdown.next
      [.main, .main, .main, .clock, .clock, .clock, .sigint, .handler, .handler,
        .scheduler false, .main, .main, .main, .main, .main, .cancel, .main]
      (.start .clock .roundRobin (mainTimers .clock 0 3 5))).any
      (fun s => decide (s.clock = .cancelled ∧ s.main = .wakeTimers ∧ s.handler = .idle)) =
        true := by
    decide
  obtain ⟨s, hs, hend⟩ := (Option.any_eq_true ..).mp hrun
  obtain ⟨hclock, hmain, hhandler⟩ := of_decide_eq_true hend
  refine ⟨s, Runs.Reachable.follow (.init rfl) hs, .inr ⟨hclock, by rw [hmain]; rfl, .inr ?_⟩⟩
  exact ⟨hhandler, .inr (.inl hmain)⟩

end LocOS
