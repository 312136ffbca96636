import LocOS.Shutdown

/-!
# Destroyed

Who uses the scheduler that `cleanup_system` has destroyed. `scheduler_global`
is never reset, and the timers that got the scheduler as their `user_data` are
joined behind it: a callback that has left `clk_mutex` before locks its
`sched_mutex`, and so does a handler that is on its way or comes after.

SIGINT goes to the process, and `signal` masks it only in the thread that runs
the handler. So a signal that comes while `main` handles one interrupts
another thread, and as many handlers can be on their way as there are threads.
A signal that finds a thread inside a critical section leaves the thread
waiting for its own mutex. That thread takes no step any more: its runs are
those in which the signal comes before the section and nobody schedules the
thread again.
-/

namespace LocOS

/-- The threads that SIGINT can interrupt, beside the main thread. -/
inductive SideThread where
  | clock
  | timer (i : Nat)
  | scheduler
  deriving DecidableEq, Repr

/-- The threads, and where each is in `handle_sigint`. `threads.handler` is the
handler on the main thread. -/
structure Interrupted where
  threads : Shutdown
  handlers : SideThread → HandlerStage

/-- A step of a thread or of a handler, or a signal. -/
inductive InterruptedAction where
  /-- A thread takes a step, or the main thread is interrupted. -/
  | thread (a : ShutdownAction)
  /-- SIGINT interrupts another thread, whose handler clears `running`. -/
  | sigint (t : SideThread)
  | handler (t : SideThread)
  deriving DecidableEq, Repr

/-- The thread was created and has not ended. -/
def Shutdown.Alive (s : Shutdown) : SideThread → Prop
  | .clock => s.clock ≠ .finished ∧ s.clock ≠ .cancelled
  | .timer i => s.stage? i ≠ none ∧ s.stage? i ≠ some .finished
  | .scheduler => s.scheduler ≠ .absent ∧ s.scheduler ≠ .created ∧ s.scheduler ≠ .finished

instance (s : Shutdown) (t : SideThread) : Decidable (s.Alive t) := by
  cases t <;> unfold Shutdown.Alive <;> infer_instance

namespace Interrupted

/-- The threads as the handler on `t` sees them: it is the one that runs. -/
def seenBy (s : Interrupted) (t : SideThread) : Shutdown :=
  { s.threads with handler := s.handlers t }

/-- The thread that would take the step is not in its handler. The main
thread's own steps look at `threads.handler` themselves. -/
def Free (s : Interrupted) : ShutdownAction → Prop
  | .clock | .cancel => s.handlers .clock = .idle
  | .timer i => s.handlers (.timer i) = .idle
  | .scheduler _ => s.handlers .scheduler = .idle
  | .sigint | .handler | .main => True

instance : ∀ (s : Interrupted) (a : ShutdownAction), Decidable (s.Free a)
  | s, .clock | s, .cancel => inferInstanceAs (Decidable (s.handlers .clock = .idle))
  | s, .timer i => inferInstanceAs (Decidable (s.handlers (.timer i) = .idle))
  | s, .scheduler _ => inferInstanceAs (Decidable (s.handlers .scheduler = .idle))
  | _, .sigint | _, .handler | _, .main => instDecidableTrue

/-- The step can be taken: a thread in its handler does nothing else. -/
def Enabled (s : Interrupted) : InterruptedAction → Prop
  | .thread a => s.Free a ∧ s.threads.Enabled a
  | .sigint t => s.threads.Alive t ∧ s.handlers t = .idle
  | .handler t => (s.seenBy t).Enabled .handler

instance (s : Interrupted) (a : InterruptedAction) : Decidable (s.Enabled a) := by
  cases a <;> unfold Enabled <;> infer_instance

/-- The handler on `t` goes on, as the one on the main thread does. -/
def handlerNext (s : Interrupted) (t : SideThread) : Interrupted where
  threads := { (s.seenBy t).handlerNext with handler := s.threads.handler }
  handlers := Function.update s.handlers t (s.seenBy t).handlerNext.handler

/-- The step itself. -/
def next (s : Interrupted) : InterruptedAction → Interrupted
  | .thread a => { s with threads := s.threads.next a }
  | .sigint t =>
      { threads := { s.threads with running := false }
        handlers := Function.update s.handlers t .lockClk }
  | .handler t => s.handlerNext t

/-- `main` behind `start_clock`, with no signal yet. -/
def start (syncMode : SyncMode) (policy : Policy) (specs : List TimerSpec) : Interrupted where
  threads := .start syncMode policy specs
  handlers := fun _ => .idle

end Interrupted

/-- The runs of all threads, any of which a SIGINT may interrupt. -/
def interruptedRuns (syncMode : SyncMode) (policy : Policy) (specs : List TimerSpec) :
    Runs Interrupted InterruptedAction :=
  .guarded (· = .start syncMode policy specs) Interrupted.Enabled Interrupted.next

/-- Among them are those in which the signal only finds the main thread. -/
theorem interrupted_of_shutdown {syncMode : SyncMode} {policy : Policy} {specs : List TimerSpec}
    {s : Shutdown} (h : (shutdownRuns syncMode policy specs).Reachable s) :
    (interruptedRuns syncMode policy specs).Reachable ⟨s, fun _ => .idle⟩ := by
  refine h.invariant (fun s => (interruptedRuns syncMode policy specs).Reachable
    ⟨s, fun _ => .idle⟩) ?_ ?_
  · rintro s rfl
    exact .init rfl
  · rintro s a t hs ⟨he, rfl⟩
    have hfree : Interrupted.Free ⟨s, fun _ => .idle⟩ a := by
      cases a <;> first | exact rfl | exact trivial
    exact hs.step (a := .thread a) ⟨⟨hfree, he⟩, rfl⟩

namespace Shutdown

/-- The step locks `sched_mutex` and signals `sched_cond`. -/
def UsesScheduler (s : Shutdown) : ShutdownAction → Prop
  | .timer i => s.stage? i = some .callback
  | .handler => s.handler = .lockSched ∧ s.scheduler ≠ .absent ∧ s.syncMode = .timer
  | _ => False

instance : ∀ (s : Shutdown) (a : ShutdownAction), Decidable (s.UsesScheduler a)
  | s, .timer i => inferInstanceAs (Decidable (s.stage? i = some .callback))
  | s, .handler => inferInstanceAs
      (Decidable (s.handler = .lockSched ∧ s.scheduler ≠ .absent ∧ s.syncMode = .timer))
  | _, .sigint | _, .main | _, .clock | _, .cancel | _, .scheduler _ =>
      inferInstanceAs (Decidable False)

end Shutdown

namespace Interrupted

/-- See `Shutdown.UsesScheduler`, for any thread. -/
def UsesScheduler (s : Interrupted) : InterruptedAction → Prop
  | .thread a => s.threads.UsesScheduler a
  | .sigint _ => False
  | .handler t => (s.seenBy t).UsesScheduler .handler

instance (s : Interrupted) (a : InterruptedAction) : Decidable (s.UsesScheduler a) := by
  cases a <;> unfold UsesScheduler <;> infer_instance

/-- SIGINT does not come behind the destruction, in timer mode, or it comes
when the cancelled clock has `clk_mutex`, for which the handler waits. -/
def SignalInTime (s : Interrupted) : Prop :=
  s.threads.destroyed = true → s.threads.syncMode = .timer → s.threads.clkFree = false

/-- The steps behind which nobody uses a destroyed scheduler: `main` destroys it
when no timer is in its callback and, in timer mode, no thread is in its
handler, and no signal comes too late. -/
def Orderly (s : Interrupted) : InterruptedAction → Prop
  | .thread .main => s.threads.main = .destroyScheduler →
      s.threads.NoCallback ∧ (s.threads.syncMode = .timer → ∀ t, s.handlers t = .idle)
  | .thread .sigint | .sigint _ => s.SignalInTime
  | _ => True

end Interrupted

namespace Shutdown

variable {s : Shutdown}

/-- Only `destroy_scheduler` destroys. -/
theorem next_destroyed (s : Shutdown) (a : ShutdownAction) :
    (s.next a).destroyed = s.destroyed ∨ a = .main ∧ s.main = .destroyScheduler := by
  cases a with
  | sigint => exact .inl rfl
  | handler =>
      refine .inl ?_
      show s.handlerNext.destroyed = _
      unfold handlerNext
      split
      · rfl
      · split <;> rfl
      · rfl
  | main =>
      cases hstage : s.main with
      | destroyScheduler => exact .inr ⟨rfl, rfl⟩
      | createTimers =>
          refine .inl ?_
          simp only [next, mainNext, hstage]
          split <;> rfl
      | _ => exact .inl (by simp only [next, mainNext, hstage, broadcastClk_destroyed])
  | clock => exact .inl (sameFlags_clockNext s).destroyed
  | cancel => exact .inl rfl
  | timer i => exact .inl (sameFlags_timerNext s i).destroyed
  | scheduler broadcasts => exact .inl (sameFlags_schedulerNext s broadcasts).destroyed

/-- The handler changes who waits on a condition variable, and where it is. -/
theorem handlerNext_same (s : Shutdown) :
    s.handlerNext.running = s.running ∧ s.handlerNext.destroyed = s.destroyed ∧
      s.handlerNext.syncMode = s.syncMode ∧ s.handlerNext.clock = s.clock := by
  unfold handlerNext
  split
  · exact ⟨rfl, rfl, rfl, rfl⟩
  · split <;> exact ⟨rfl, rfl, rfl, rfl⟩
  · exact ⟨rfl, rfl, rfl, rfl⟩

theorem mainNext_same (s : Shutdown) :
    s.mainNext.running = s.running ∧ s.mainNext.handler = s.handler ∧
      s.mainNext.syncMode = s.syncMode ∧ s.mainNext.clock = s.clock := by
  unfold mainNext
  split
  case h_2 => split <;> exact ⟨rfl, rfl, rfl, rfl⟩
  all_goals exact ⟨rfl, rfl, rfl, rfl⟩

/-- Nobody sets `running` again. -/
theorem next_running (h : s.running = false) (a : ShutdownAction) : (s.next a).running = false := by
  cases a with
  | sigint => rfl
  | handler => exact s.handlerNext_same.1.trans h
  | main => exact s.mainNext_same.1.trans h
  | clock => exact (sameFlags_clockNext s).running.trans h
  | cancel => exact h
  | timer i => exact (sameFlags_timerNext s i).running.trans h
  | scheduler broadcasts => exact (sameFlags_schedulerNext s broadcasts).running.trans h

theorem next_syncMode (s : Shutdown) (a : ShutdownAction) : (s.next a).syncMode = s.syncMode := by
  cases a with
  | sigint | cancel => rfl
  | handler => exact s.handlerNext_same.2.2.1
  | main => exact s.mainNext_same.2.2.1
  | clock => exact (sameFlags_clockNext s).syncMode
  | timer i => exact (sameFlags_timerNext s i).syncMode
  | scheduler broadcasts => exact (sameFlags_schedulerNext s broadcasts).syncMode

/-! ## Nobody is left to use it -/

/-- A handler that will not get past `clk_mutex`. -/
def Harmless (s : Shutdown) (stage : HandlerStage) : Prop :=
  stage = .idle ∨ stage = .lockClk ∧ s.clock = .cancelled

theorem Harmless.keep {stage : HandlerStage} {t : Shutdown} (h : s.Harmless stage)
    (hclock : s.clock = .cancelled → t.clock = .cancelled) : t.Harmless stage :=
  h.imp_right fun ⟨hlock, hc⟩ => ⟨hlock, hclock hc⟩

/-- It takes no step. -/
theorem Harmless.not_enabled (h : s.Harmless s.handler) : ¬ s.Enabled .handler := by
  rintro (⟨hlock, hfree⟩ | hlock)
  · rcases h with hidle | ⟨_, hc⟩
    · cases hidle.symm.trans hlock
    · simp [clkFree, hc] at hfree
  · rcases h with hidle | ⟨hclk, _⟩
    · cases hidle.symm.trans hlock
    · cases hclk.symm.trans hlock

/-- The clock that has taken `clk_mutex` with it takes no step. -/
theorem next_cancelled {a : ShutdownAction} (he : s.Enabled a) (hc : s.clock = .cancelled) :
    (s.next a).clock = .cancelled := by
  cases a with
  | sigint => exact hc
  | handler => exact s.handlerNext_same.2.2.2.trans hc
  | main => exact s.mainNext_same.2.2.2.trans hc
  | clock => simp [Enabled, clockReady, hc] at he
  | cancel => simp [Enabled, hc] at he
  | timer i =>
      rcases s.timerNext_clock i with hclock | hclock
      · exact hclock.trans hc
      · exact hclock.trans (ClockStage.wake_eq_cancelled.mpr hc)
  | scheduler broadcasts => exact (s.schedulerNext_clock broadcasts).trans hc

end Shutdown

namespace Interrupted

variable {s : Interrupted}

theorem seenBy_handlerNext (s : Interrupted) (t : SideThread) :
    (s.handlerNext t).seenBy t = (s.seenBy t).handlerNext := by
  simp [seenBy, handlerNext]

/-- What `main` has got behind it, and every handler has cleared `running`. -/
structure Staged (s : Interrupted) : Prop where
  threads : s.threads.Staged
  running : ∀ t, s.handlers t ≠ .idle → s.threads.running = false

/-- The handler of `t` counts as the one that runs. -/
theorem Staged.seenBy (h : Staged s) (t : SideThread) : (s.seenBy t).Staged :=
  { h.threads with
    running := fun hp => hp.elim (fun hr => h.threads.running (.inl hr)) (h.running t) }

theorem Staged.next (h : Staged s) {a : InterruptedAction} (he : s.Enabled a) :
    Staged (s.next a) := by
  cases a with
  | thread a => exact ⟨h.threads.next he.2, fun t ht => Shutdown.next_running (h.running t ht) a⟩
  | sigint t =>
      exact ⟨h.threads.keep rfl (fun _ => rfl) rfl rfl rfl rfl (fun _ => rfl) (fun _ => rfl) .inl,
        fun _ _ => rfl⟩
  | handler t =>
      have hrunning := (s.seenBy t).handlerNext_same.1
      have hcleared : (s.seenBy t).handler ≠ .idle := by
        intro hidle
        have he : (s.seenBy t).Enabled .handler := he
        simp [Shutdown.Enabled, hidle] at he
      have hrun : (s.seenBy t).handlerNext.running = false := hrunning.trans (h.running t hcleared)
      exact ⟨{ (h.seenBy t).handlerNext with running := fun _ => hrun }, fun _ _ => hrun⟩

/-! ## Nobody is left to use the scheduler -/

/-- Behind the destruction no timer is in its callback, and in timer mode no
handler gets past `clk_mutex`. -/
structure Unused (s : Interrupted) : Prop where
  staged : Staged s
  callbacks : s.threads.destroyed = true → s.threads.NoCallback
  main : s.threads.destroyed = true → s.threads.syncMode = .timer →
    s.threads.Harmless s.threads.handler
  others : s.threads.destroyed = true → s.threads.syncMode = .timer →
    ∀ t, s.threads.Harmless (s.handlers t)

namespace Unused

theorem start (syncMode : SyncMode) (policy : Policy) (specs : List TimerSpec) :
    Unused (.start syncMode policy specs) where
  staged := ⟨.start syncMode policy specs, fun _ ht => absurd rfl ht⟩
  callbacks := fun hd => (by cases hd)
  main := fun hd => (by cases hd)
  others := fun hd => (by cases hd)

/-- A signal that comes in time. -/
theorem harmless_signal (hintime : s.SignalInTime) (hd : s.threads.destroyed = true)
    (hmode : s.threads.syncMode = .timer) : s.threads.Harmless .lockClk :=
  .inr ⟨rfl, by simpa [Shutdown.clkFree] using hintime hd hmode⟩

/-- A step of a thread. A callback begins only before `running` is cleared. -/
theorem thread (h : Unused s) {a : ShutdownAction} (he : s.Enabled (.thread a))
    (horderly : s.Orderly (.thread a)) : Unused (s.next (.thread a)) := by
  have hmode := s.threads.next_syncMode a
  have hclock : s.threads.clock = .cancelled → (s.threads.next a).clock = .cancelled :=
    fun hc => Shutdown.next_cancelled he.2 hc
  rcases s.threads.next_destroyed a with hsame | ⟨rfl, hstage⟩
  · refine ⟨h.staged.next he, fun hd => ?_, fun hd ht => ?_, fun hd ht t => ?_⟩
    · have hd : s.threads.destroyed = true := hsame ▸ hd
      have hrank := h.staged.threads.destroyed hd
      have hrun := h.staged.threads.running (.inl (by omega))
      exact (h.callbacks hd).next hrun a
    · have hd : s.threads.destroyed = true := hsame ▸ hd
      have ht : s.threads.syncMode = .timer := hmode ▸ ht
      have hold := h.main hd ht
      show (s.threads.next a).Harmless (s.threads.next a).handler
      cases a with
      | sigint => exact (harmless_signal horderly hd ht).keep hclock
      | handler => exact absurd he.2 hold.not_enabled
      | main =>
          rw [show (s.threads.next .main).handler = _ from s.threads.mainNext_same.2.1]
          exact hold.keep hclock
      | cancel => exact hold.keep hclock
      | clock =>
          rw [show (s.threads.next .clock).handler = _ from
            (Shutdown.sameFlags_clockNext s.threads).handler]
          exact hold.keep hclock
      | timer i =>
          rw [show (s.threads.next (.timer i)).handler = _ from
            (Shutdown.sameFlags_timerNext s.threads i).handler]
          exact hold.keep hclock
      | scheduler broadcasts =>
          rw [show (s.threads.next (.scheduler broadcasts)).handler = _ from
            (Shutdown.sameFlags_schedulerNext s.threads broadcasts).handler]
          exact hold.keep hclock
    · exact (h.others (hsame ▸ hd) (hmode ▸ ht) t).keep hclock
  -- `main` destroys the scheduler
  · obtain ⟨hcallback, hidle⟩ := horderly hstage
    refine ⟨h.staged.next he, fun _ => hcallback.mainNext, fun _ _ => .inl ?_, fun _ ht t =>
      .inl (hidle (hmode ▸ ht) t)⟩
    exact s.threads.mainNext_same.2.1.trans he.2.1

theorem next (h : Unused s) {a : InterruptedAction} (he : s.Enabled a) (horderly : s.Orderly a) :
    Unused (s.next a) := by
  cases a with
  | thread a => exact h.thread he horderly
  | sigint t =>
      refine ⟨h.staged.next he, h.callbacks, h.main, fun hd hmode u => ?_⟩
      show s.threads.Harmless (Function.update s.handlers t .lockClk u)
      by_cases hu : u = t
      · rw [hu, Function.update_self]
        exact harmless_signal horderly hd hmode
      · rw [Function.update_of_ne hu]
        exact h.others hd hmode u
  | handler t =>
      obtain ⟨_, hdestroyed, hmode, hclock⟩ := (s.seenBy t).handlerNext_same
      have hvacuous : ∀ {P : Prop}, s.threads.destroyed = true → s.threads.syncMode = .timer → P :=
        fun hd ht => absurd he (h.others hd ht t).not_enabled
      refine ⟨h.staged.next he, fun hd => ?_, fun hd ht => ?_, fun hd ht => ?_⟩
      · have hquiet : (s.seenBy t).NoCallback := h.callbacks (hdestroyed ▸ hd)
        exact hquiet.handlerNext
      · exact hvacuous (hdestroyed ▸ hd) (hmode ▸ ht)
      · exact hvacuous (hdestroyed ▸ hd) (hmode ▸ ht)

theorem not_destroyed (h : Unused s) {a : InterruptedAction} (he : s.Enabled a)
    (huses : s.UsesScheduler a) : s.threads.destroyed = false := by
  refine Bool.eq_false_iff.mpr fun hd => ?_
  cases a with
  | sigint t => exact huses
  | handler t =>
      obtain ⟨_, _, hmode⟩ := huses
      exact absurd he (h.others hd hmode t).not_enabled
  | thread a =>
      cases a with
      | timer i =>
          obtain ⟨t, ht, hcall⟩ := Option.map_eq_some_iff.mp huses
          exact h.callbacks hd t (List.mem_of_getElem? ht) hcall
      | handler =>
          obtain ⟨_, _, hmode⟩ := huses
          exact absurd he.2 (h.main hd hmode).not_enabled
      | _ => exact huses

end Unused

/-! ## Somebody is -/

/-- A destroyed scheduler can be used from here on. -/
def CanUse (syncMode : SyncMode) (policy : Policy) (specs : List TimerSpec)
    (s : Interrupted) : Prop :=
  ∃ t b, (interruptedRuns syncMode policy specs).Steps s t ∧ t.Enabled b ∧ t.UsesScheduler b ∧
    t.threads.destroyed = true

variable {syncMode : SyncMode} {policy : Policy} {specs : List TimerSpec}

theorem CanUse.of_step {a : InterruptedAction} (he : s.Enabled a)
    (h : CanUse syncMode policy specs (s.next a)) : CanUse syncMode policy specs s := by
  obtain ⟨t, b, hsteps, hused⟩ := h
  have hstep : (interruptedRuns syncMode policy specs).Steps s (s.next a) := .single ⟨he, rfl⟩
  exact ⟨t, b, hstep.trans hsteps, hused⟩

end Interrupted

namespace Shutdown

variable {s : Shutdown}

/-- A handler on its way uses the scheduler at once, or passes `clk_mutex`
first. -/
theorem used_of_handler (hhandler : s.handler ≠ .idle) (hd : s.destroyed = true)
    (hmode : s.syncMode = .timer) (hfinished : s.scheduler = .finished)
    (hfree : s.clkFree = true) :
    s.Enabled .handler ∧ (s.UsesScheduler .handler ∨
      s.handlerNext.Enabled .handler ∧ s.handlerNext.UsesScheduler .handler ∧
        s.handlerNext.destroyed = true) := by
  cases hstage : s.handler with
  | idle => exact absurd hstage hhandler
  | lockSched =>
      refine ⟨.inr hstage, .inl ⟨hstage, ?_, hmode⟩⟩
      rw [hfinished]
      exact SchedulerStage.noConfusion
  | lockClk =>
      have hnext : s.handlerNext = { s.broadcastClk with handler := .lockSched } := by
        simp [handlerNext, hstage]
      refine ⟨.inl ⟨hstage, hfree⟩, .inr ?_⟩
      rw [hnext]
      refine ⟨.inr rfl, ⟨rfl, ?_, hmode⟩, hd⟩
      have hsame : s.broadcastClk.scheduler = s.scheduler :=
        if_neg (by rw [hmode]; decide)
      show s.broadcastClk.scheduler ≠ _
      rw [hsame, hfinished]
      exact SchedulerStage.noConfusion

/-- The handler leaves a callback alone. -/
theorem handlerNext_callback {i : Nat} (h : s.stage? i = some .callback) :
    s.handlerNext.stage? i = some .callback := by
  obtain ⟨t, ht, hstage⟩ := Option.map_eq_some_iff.mp h
  unfold handlerNext
  split
  · simp [stage?, broadcastClk, ht, TimerThread.wake, hstage, TimerStage.wake]
  · split <;> exact h
  · exact h

end Shutdown

namespace Interrupted

variable {s : Interrupted} {syncMode : SyncMode} {policy : Policy} {specs : List TimerSpec}

theorem canUse_of_main (hhandler : s.threads.handler ≠ .idle) (hd : s.threads.destroyed = true)
    (hmode : s.threads.syncMode = .timer) (hfinished : s.threads.scheduler = .finished)
    (hfree : s.threads.clkFree = true) : CanUse syncMode policy specs s := by
  obtain ⟨he, huses | ⟨he', huses, hd'⟩⟩ :=
    Shutdown.used_of_handler hhandler hd hmode hfinished hfree
  · exact ⟨s, .thread .handler, .refl s, ⟨trivial, he⟩, huses, hd⟩
  · refine .of_step (a := .thread .handler) ⟨trivial, he⟩ ?_
    exact ⟨_, .thread .handler, .refl _, ⟨trivial, he'⟩, huses, hd'⟩

theorem canUse_of_other {t : SideThread} (hhandler : s.handlers t ≠ .idle)
    (hd : s.threads.destroyed = true) (hmode : s.threads.syncMode = .timer)
    (hfinished : s.threads.scheduler = .finished) (hfree : s.threads.clkFree = true) :
    CanUse syncMode policy specs s := by
  obtain ⟨he, huses | ⟨he', huses, hd'⟩⟩ :=
    Shutdown.used_of_handler (s := s.seenBy t) hhandler hd hmode hfinished hfree
  · exact ⟨s, .handler t, .refl s, he, huses, hd⟩
  · refine .of_step (a := .handler t) he ⟨_, .handler t, .refl _, ?_, ?_, hd'⟩
    · show ((s.handlerNext t).seenBy t).Enabled .handler
      rwa [seenBy_handlerNext]
    · show ((s.handlerNext t).seenBy t).UsesScheduler .handler
      rwa [seenBy_handlerNext]

/-- The timer returns from its handler, if it is in one, and goes on with its
callback. -/
theorem canUse_of_callback {i : Nat} (hcall : s.threads.stage? i = some .callback)
    (hd : s.threads.destroyed = true) (hfree : s.threads.clkFree = true) :
    CanUse syncMode policy specs s := by
  have hready : ∀ s : Interrupted, s.threads.stage? i = some .callback →
      s.threads.destroyed = true → s.handlers (.timer i) = .idle →
      CanUse syncMode policy specs s := by
    intro s hcall hd hidle
    refine ⟨s, .thread (.timer i), .refl s, ⟨hidle, ?_⟩, hcall, hd⟩
    simp [Shutdown.Enabled, Shutdown.timerReady, hcall]
  have hlast : ∀ s : Interrupted, s.threads.stage? i = some .callback →
      s.threads.destroyed = true → s.handlers (.timer i) = .lockSched →
      CanUse syncMode policy specs s := by
    intro s hcall hd hlock
    have hreturns : ((s.seenBy (.timer i)).handlerNext).handler = .idle := by
      have hlock : (s.seenBy (.timer i)).handler = .lockSched := hlock
      simp [Shutdown.handlerNext, hlock]
    refine .of_step (a := .handler (.timer i)) (.inr hlock) (hready _ ?_ ?_ ?_)
    · exact Shutdown.handlerNext_callback (s := s.seenBy (.timer i)) hcall
    · exact (s.seenBy (.timer i)).handlerNext_same.2.1.trans hd
    · exact (Function.update_self ..).trans hreturns
  cases hstage : s.handlers (.timer i) with
  | idle => exact hready s hcall hd hstage
  | lockSched => exact hlast s hcall hd hstage
  | lockClk =>
      have hlocks : (s.seenBy (.timer i)).handlerNext.handler = .lockSched := by
        have hstage : (s.seenBy (.timer i)).handler = .lockClk := hstage
        simp [Shutdown.handlerNext, hstage]
      refine .of_step (a := .handler (.timer i)) (.inl ⟨hstage, hfree⟩) (hlast _ ?_ ?_ ?_)
      · exact Shutdown.handlerNext_callback (s := s.seenBy (.timer i)) hcall
      · exact (s.seenBy (.timer i)).handlerNext_same.2.1.trans hd
      · exact (Function.update_self ..).trans hlocks

/-- The callback goes on behind `destroy_scheduler`, and so does a handler. -/
theorem canUse_of_destroys (h : Staged s) (he : s.Enabled (.thread .main))
    (hm : s.threads.main = .destroyScheduler)
    (hlate : ¬ (s.threads.NoCallback ∧
      (s.threads.syncMode = .timer → ∀ t, s.handlers t = .idle))) :
    CanUse syncMode policy specs s := by
  have hnext : s.threads.next .main =
      { s.threads with destroyed := true, main := .cancelClock } := by
    simp [Shutdown.next, Shutdown.mainNext, hm]
  have hfree : s.threads.clkFree = true := by
    refine decide_eq_true fun hc => ?_
    have hrank := h.threads.cancelled.mp (h.threads.held hc)
    rw [hm] at hrank
    exact absurd hrank (by decide)
  refine .of_step he ?_
  show CanUse syncMode policy specs { s with threads := s.threads.next .main }
  rw [hnext]
  by_cases hcall : s.threads.NoCallback
  · obtain ⟨hmode, t, ht⟩ : s.threads.syncMode = .timer ∧ ∃ t, s.handlers t ≠ .idle := by
      simpa [hcall, Classical.not_imp] using hlate
    exact canUse_of_other (t := t) ht rfl hmode (h.threads.joined (by rw [hm]; decide)) hfree
  · obtain ⟨t, ht, hstage⟩ : ∃ t ∈ s.threads.timers, t.stage = .callback := by
      simpa [Shutdown.NoCallback] using hcall
    obtain ⟨i, hi⟩ := List.getElem?_of_mem ht
    refine canUse_of_callback (i := i) ?_ rfl hfree
    simp [Shutdown.stage?, hi, hstage]

theorem canUse_of_signal (h : Staged s) (hlate : ¬ s.SignalInTime) {a : InterruptedAction}
    (ha : a = .thread .sigint ∨ ∃ t, a = .sigint t) (he : s.Enabled a) :
    CanUse syncMode policy specs s := by
  obtain ⟨hd, hmode, hfree⟩ : s.threads.destroyed = true ∧ s.threads.syncMode = .timer ∧
      s.threads.clkFree = true := by
    simpa [SignalInTime, Classical.not_imp] using hlate
  have hfinished := h.threads.joined (Nat.le_of_succ_le (h.threads.destroyed hd))
  refine .of_step he ?_
  rcases ha with rfl | ⟨t, rfl⟩
  · exact canUse_of_main HandlerStage.noConfusion hd hmode hfinished hfree
  · refine canUse_of_other (t := t) ?_ hd hmode hfinished hfree
    show Function.update s.handlers t .lockClk t ≠ _
    rw [Function.update_self]
    exact HandlerStage.noConfusion

end Interrupted

/-- A destroyed scheduler is used only behind a step that is not orderly, and
behind every such step it can be, whichever threads the signals interrupt. -/
theorem destroyed_scheduler (syncMode : SyncMode) (policy : Policy) (specs : List TimerSpec) :
    (∀ s a, ((interruptedRuns syncMode policy specs).restrict Interrupted.Orderly).Reachable s →
        s.Enabled a → s.UsesScheduler a → s.threads.destroyed = false) ∧
      ∀ s a, (interruptedRuns syncMode policy specs).Reachable s → s.Enabled a → ¬ s.Orderly a →
        ∃ t b, (interruptedRuns syncMode policy specs).Steps s t ∧ t.Enabled b ∧
          t.UsesScheduler b ∧ t.threads.destroyed = true := by
  constructor
  · intro s a hs he huses
    refine Interrupted.Unused.not_destroyed (hs.invariant Interrupted.Unused ?_ ?_) he huses
    · rintro s rfl
      exact .start syncMode policy specs
    · rintro s a t h ⟨horderly, he, rfl⟩
      exact h.next he horderly
  · intro s a hs he horderly
    have hstaged : s.Staged := by
      refine hs.invariant Interrupted.Staged ?_ ?_
      · rintro s rfl
        exact ⟨.start syncMode policy specs, fun _ ht => absurd rfl ht⟩
      · rintro s a t h ⟨he, rfl⟩
        exact h.next he
    cases a with
    | sigint t => exact Interrupted.canUse_of_signal hstaged horderly (.inr ⟨t, rfl⟩) he
    | handler t => exact absurd trivial horderly
    | thread a =>
        cases a with
        | main =>
            obtain ⟨hm, hlate⟩ := Classical.not_imp.mp horderly
            exact Interrupted.canUse_of_destroys hstaged he hm hlate
        | sigint => exact Interrupted.canUse_of_signal hstaged horderly (.inl rfl) he
        | _ => exact absurd trivial horderly

/-- The callback of the timer that activates the scheduler has left `clk_mutex`
when the signal comes, and `cleanup_system` overtakes it. -/
theorem destroyed_scheduler_used :
    ∃ s, (interruptedRuns .timer .roundRobin (mainTimers .timer 0 1 5)).Reachable s ∧
      s.Enabled (.thread (.timer 0)) ∧ s.UsesScheduler (.thread (.timer 0)) ∧
      s.threads.destroyed = true := by
  have hrun : (Runs.follow Shutdown.Enabled Shutdown.next
      [.main, .main, .main, .main, .timer 0, .timer 0, .clock, .clock, .clock, .timer 0,
        .scheduler false, .scheduler false, .sigint, .handler, .handler, .scheduler false,
        .main, .main, .main, .main]
      (.start .timer .roundRobin (mainTimers .timer 0 1 5))).any
      (fun s => decide (s.Enabled (.timer 0) ∧ s.UsesScheduler (.timer 0) ∧
        s.destroyed = true)) = true := by
    decide
  obtain ⟨s, hs, hend⟩ := (Option.any_eq_true ..).mp hrun
  obtain ⟨he, huses, hd⟩ := of_decide_eq_true hend
  have hreach : (shutdownRuns .timer .roundRobin (mainTimers .timer 0 1 5)).Reachable s :=
    Runs.Reachable.follow (.init rfl) hs
  exact ⟨_, interrupted_of_shutdown hreach, ⟨rfl, he⟩, huses, hd⟩

/-- No callback is needed for it. While `main` handles a signal another one
interrupts the clock, whose handler gets past `clk_mutex` before the
destruction and to the scheduler behind it. -/
example : (Runs.follow Interrupted.Enabled Interrupted.next
    [.thread .main, .thread .main, .thread .main, .thread .main, .thread (.scheduler false),
      .thread (.scheduler false), .thread .sigint, .sigint .clock, .handler .clock,
      .thread .handler, .thread .handler, .thread (.scheduler false), .thread .main,
      .thread .main, .thread .main, .thread .main]
    (.start .timer .roundRobin (mainTimers .timer 0 1 5))).any
    (fun s => decide (s.Enabled (.handler .clock) ∧ s.UsesScheduler (.handler .clock) ∧
      s.threads.destroyed = true)) = true := by
  decide

end LocOS
