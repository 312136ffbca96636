import LocOS.Handshake
import Mathlib.Data.List.Induction

/-!
# Ticks

Whether a timer can miss a tick. `clk_cond2` is not counted: the first timer
to confirm a tick lets the clock go on, so a second timer may test its
interval a tick late, and with it all its later interrupts. One timer alone
misses none.
-/

namespace LocOS

/-! ## Ticks that are seen -/

/-- All timers, created at tick `t₀`, wait for the first tick. -/
def Handshake.allWaiting (specs : List TimerSpec) (t₀ : Int) : Handshake where
  clkCounter := t₀
  clock := .sleeping
  timers := specs.map fun spec => { createTimer spec t₀ with phase := .waiting }
  toCreate := []

/-- `main` gets there when all threads run before the first tick. -/
theorem allWaiting_reachable (specs : List TimerSpec) :
    (handshakeRuns (.start specs)).Reachable (.allWaiting specs 0) := by
  have hcreated : ∀ pre post, (handshakeRuns (.start (pre ++ post))).Reachable
      { Handshake.allWaiting pre 0 with toCreate := post } := by
    intro pre
    induction pre using List.reverseRecOn with
    | nil => exact fun post => .init rfl
    | append_singleton pre spec ih =>
        intro post
        have hcreate := (ih (spec :: post)).step (a := HandshakeAction.createTimer)
          ⟨List.cons_ne_nil _ _, rfl⟩
        have hwait := hcreate.step (a := HandshakeAction.wait pre.length)
          ⟨by simp [Handshake.Enabled, Handshake.phase?, Handshake.next, Handshake.allWaiting,
            createTimer], rfl⟩
        have hsame : ({ Handshake.allWaiting pre 0 with toCreate := spec :: post }.next
            .createTimer).next (.wait pre.length) =
              { Handshake.allWaiting (pre ++ [spec]) 0 with toCreate := post } := by
          have hmodify := List.modify_concat
            (pre.map fun spec => { createTimer spec 0 with phase := .waiting })
            (createTimer spec 0) fun t => { t with phase := .waiting }
          rw [List.length_map] at hmodify
          simp [Handshake.next, Handshake.allWaiting, Handshake.setPhase, hmodify]
        rw [List.append_assoc]
        exact hsame ▸ hwait
  have h := hcreated specs []
  rwa [List.append_nil] at h

/-- Whenever the clock is about to count on from a tick, every timer has
tested its interval at that tick. -/
def TicksSeen (specs : List TimerSpec) (t₀ : Int) : Prop :=
  ∀ s, (handshakeRuns (.allWaiting specs t₀)).Reachable s → s.Enabled .tick →
    s.clkCounter ≠ t₀ → ∀ t ∈ s.timers, t.evaluatedAt = some s.clkCounter

/-- Up to the tick it has tested last, a timer created at `t₀` has interrupted
at `t₀ + m, t₀ + 2m, ..`. -/
def Timer.OnTime (t : Timer) (t₀ : Int) : Prop :=
  ∃ j : Nat, t.interrupts = (List.range j).map (fun i : Nat => t₀ + (i + 1) * t.interval) ∧
    t₀ + j * t.interval ≤ t.evaluatedAt.getD t₀ ∧
    t.evaluatedAt.getD t₀ < t₀ + (j + 1) * t.interval

/-- No interrupt drifts. -/
def NoDrift (specs : List TimerSpec) (t₀ : Int) : Prop :=
  ∀ s, (handshakeRuns (.allWaiting specs t₀)).Reachable s → ∀ t ∈ s.timers, t.OnTime t₀

/-! ## One timer -/

/-- The only timer `t` has seen every tick before the one the clock may be
waiting for. -/
structure Paced (t₀ : Int) (s : Handshake) (t : Timer) : Prop where
  timers : s.timers = [t]
  toCreate : s.toCreate = []
  interval : 1 ≤ t.interval
  seen : t.evaluatedAt.getD t₀ = if s.clock = .waiting then s.clkCounter - 1 else s.clkCounter
  woken : t.phase = .woken → s.clock = .waiting
  lastTick : ∃ j : Nat, t.lastTick = t₀ + j * t.interval ∧
    t.interrupts = (List.range j).map (fun i : Nat => t₀ + (i + 1) * t.interval) ∧
    t.lastTick ≤ t.evaluatedAt.getD t₀ ∧ t.evaluatedAt.getD t₀ < t.lastTick + t.interval

namespace Paced

variable {t₀ : Int} {s : Handshake} {t : Timer}

theorem onTime (h : Paced t₀ s t) : t.OnTime t₀ := by
  obtain ⟨j, hlast, hint, hle, hlt⟩ := h.lastTick
  refine ⟨j, hint, hlast ▸ hle, ?_⟩
  rw [Int.add_mul, Int.one_mul, ← Int.add_assoc, ← hlast]
  exact hlt

/-- Only the timer's phase and the clock change, and nobody is woken. -/
theorem setPhase (h : Paced t₀ s t) {phase : TimerPhase} (hne : phase ≠ .woken) :
    Paced t₀ (s.setPhase 0 phase) { t with phase } where
  timers := by rw [Handshake.setPhase, h.timers]; rfl
  toCreate := h.toCreate
  interval := h.interval
  seen := h.seen
  woken := fun hw => absurd hw hne
  lastTick := h.lastTick

theorem only (h : Paced t₀ s t) {i : Nat} {phase : TimerPhase} (hi : s.phase? i = some phase) :
    i = 0 ∧ t.phase = phase := by
  obtain ⟨t', ht', rfl⟩ := Handshake.phase?_eq_some.mp hi
  rw [h.timers] at ht'
  cases i with
  | zero => exact ⟨rfl, congrArg Timer.phase (Option.some.inj ht')⟩
  | succ i => cases ht'

theorem tick (h : Paced t₀ s t) (hclock : s.clock = .sleeping) :
    Paced t₀ (s.next .tick) t.wake where
  timers := by simp [Handshake.next, Handshake.broadcast, h.timers]
  toCreate := h.toCreate
  interval := h.interval
  seen := by
    have hseen := h.seen
    rw [hclock, if_neg (by decide)] at hseen
    show t.evaluatedAt.getD t₀ = s.clkCounter + 1 - 1
    rw [hseen, Int.add_sub_cancel]
  woken := fun _ => rfl
  lastTick := h.lastTick

/-- The test at the tick the clock waits for. -/
theorem check (h : Paced t₀ s t) (hphase : t.phase = .woken) :
    Paced t₀ (s.next (.check 0)) (t.check s.clkCounter) := by
  have hclock := h.woken hphase
  have hseen := h.seen
  rw [if_pos hclock] at hseen
  obtain ⟨j, hlast, hint, hle, hlt⟩ := h.lastTick
  have hinterval : (t.check s.clkCounter).interval = t.interval := by
    unfold Timer.check
    split <;> rfl
  have heval : (t.check s.clkCounter).evaluatedAt = some s.clkCounter := by
    unfold Timer.check
    split <;> rfl
  refine ⟨?_, h.toCreate, hinterval ▸ h.interval, ?_, fun hw => ?_, ?_⟩
  · show s.timers.modify 0 _ = _
    rw [h.timers]
    rfl
  · rw [heval]
    exact (if_neg (ClockPhase.wake_ne_waiting s.clock)).symm
  · unfold Timer.check at hw
    split at hw
    · cases hcallback : t.callback <;> rw [hcallback] at hw <;> cases hw
    · cases hw
  · rw [heval, hinterval, Option.getD_some]
    have hpos := h.interval
    by_cases hdue : s.clkCounter - t.lastTick ≥ t.interval
    · -- the counter is exactly one interval behind the last interrupt
      have hcounter : s.clkCounter = t₀ + (j + 1) * t.interval := by
        rw [Int.add_mul, Int.one_mul, ← Int.add_assoc, ← hlast]
        omega
      refine ⟨j + 1, ?_, ?_, ?_⟩
      · rw [Timer.check, if_pos hdue]
        exact_mod_cast hcounter
      · rw [Timer.check, if_pos hdue, List.range_succ, List.map_append, ← hint]
        simp [hcounter]
      · rw [Timer.check, if_pos hdue]
        exact ⟨Int.le_refl _, Int.lt_add_of_pos_right _ hpos⟩
    · refine ⟨j, ?_, ?_, ?_⟩
      · rw [Timer.check, if_neg hdue]
        exact hlast
      · rw [Timer.check, if_neg hdue]
        exact hint
      · rw [Timer.check, if_neg hdue]
        show t.lastTick ≤ s.clkCounter ∧ s.clkCounter < t.lastTick + t.interval
        omega

/-- A step of the clock or of the timer. -/
theorem next (h : Paced t₀ s t) {a : HandshakeAction} (he : s.Enabled a) :
    ∃ t', Paced t₀ (s.next a) t' := by
  cases a with
  | tick => exact ⟨_, h.tick he⟩
  | resume =>
      have hclock : s.clock = .woken := he
      have hseen := h.seen
      rw [hclock, if_neg (by decide)] at hseen
      refine ⟨t, h.timers, h.toCreate, h.interval, hseen, fun hw => ?_, h.lastTick⟩
      rw [h.woken hw] at hclock
      cases hclock
  | createTimer => exact absurd h.toCreate he
  | wait i =>
      obtain ⟨rfl, _⟩ := h.only he
      exact ⟨_, h.setPhase (by decide)⟩
  | check i =>
      obtain ⟨rfl, hphase⟩ := h.only he
      exact ⟨_, h.check hphase⟩
  | callback i =>
      obtain ⟨rfl, _⟩ := h.only he
      exact ⟨_, h.setPhase (by decide)⟩

theorem start {spec : TimerSpec} (hpos : 1 ≤ spec.interval) :
    Paced t₀ (.allWaiting [spec] t₀) { createTimer spec t₀ with phase := .waiting } where
  timers := rfl
  toCreate := rfl
  interval := hpos
  seen := rfl
  woken := fun hw => by cases hw
  lastTick := by
    refine ⟨0, ?_, rfl, Int.le_refl _, Int.lt_add_of_pos_right _ hpos⟩
    show t₀ = t₀ + (0 : Nat) * _
    rw [Int.natCast_zero, Int.zero_mul, Int.add_zero]

theorem reachable {spec : TimerSpec} (hpos : 1 ≤ spec.interval)
    (hs : (handshakeRuns (.allWaiting [spec] t₀)).Reachable s) : ∃ t, Paced t₀ s t := by
  refine hs.invariant (fun s => ∃ t, Paced t₀ s t) ?_ ?_
  · rintro s rfl
    exact ⟨_, start hpos⟩
  · rintro s a s' ⟨t, h⟩ ⟨he, rfl⟩
    exact h.next he

end Paced

/-- With one timer the clock counts on only when the timer has seen the tick. -/
theorem ticksSeen_one {spec : TimerSpec} (hpos : 1 ≤ spec.interval) (t₀ : Int) :
    TicksSeen [spec] t₀ := by
  intro s hs hclock hne t ht
  obtain ⟨t', h⟩ := Paced.reachable hpos hs
  rw [h.timers, List.mem_singleton] at ht
  subst ht
  have hsleep : s.clock = .sleeping := hclock
  have hseen := h.seen
  rw [hsleep, if_neg (by decide)] at hseen
  cases heval : t.evaluatedAt with
  | none =>
      rw [heval, Option.getD_none] at hseen
      exact absurd hseen.symm hne
  | some c =>
      rw [heval, Option.getD_some] at hseen
      rw [hseen]

theorem noDrift_one {spec : TimerSpec} (hpos : 1 ≤ spec.interval) (t₀ : Int) :
    NoDrift [spec] t₀ := by
  intro s hs t ht
  obtain ⟨t', h⟩ := Paced.reachable hpos hs
  rw [h.timers, List.mem_singleton] at ht
  exact ht ▸ h.onTime

/-! ## Two timers -/

/-- The first of two timers confirms the tick, and the clock goes on before
the second has run. -/
theorem not_ticksSeen_two (spec₁ spec₂ : TimerSpec) (specs : List TimerSpec) (t₀ : Int) :
    ¬ TicksSeen (spec₁ :: spec₂ :: specs) t₀ := by
  intro hall
  have hstart : (handshakeRuns (.allWaiting (spec₁ :: spec₂ :: specs) t₀)).Reachable
    (.allWaiting (spec₁ :: spec₂ :: specs) t₀) := .init rfl
  have htick := hstart.step (a := HandshakeAction.tick) ⟨rfl, rfl⟩
  -- the first timer alone confirms
  have hcheck := htick.step (a := HandshakeAction.check 0) ⟨rfl, rfl⟩
  have hresume := hcheck.step (a := HandshakeAction.resume) ⟨rfl, rfl⟩
  have hne : t₀ + 1 ≠ t₀ := by omega
  have h := hall _ hresume rfl hne
    { createTimer spec₂ t₀ with phase := .woken } (by simp [Handshake.next, Handshake.broadcast,
      Handshake.allWaiting, Timer.wake, TimerPhase.wake])
  cases h

/-- No tick is missed, and no interrupt drifts, if and only if there is one
timer only. -/
theorem ticksSeen_iff {specs : List TimerSpec} (hne : specs ≠ [])
    (hpos : ∀ spec ∈ specs, 1 ≤ spec.interval) (t₀ : Int) :
    (TicksSeen specs t₀ ∧ NoDrift specs t₀) ↔ specs.length = 1 := by
  match specs with
  | [] => exact absurd rfl hne
  | [spec] =>
      have h := hpos spec (List.mem_singleton_self spec)
      exact ⟨fun _ => rfl, fun _ => ⟨ticksSeen_one h t₀, noDrift_one h t₀⟩⟩
  | spec₁ :: spec₂ :: specs =>
      refine ⟨fun h => absurd h.1 (not_ticksSeen_two spec₁ spec₂ specs t₀), fun h => ?_⟩
      simp at h

/-- One timer, and two. -/
theorem ticksSeen_iff_one_two :
    ((TicksSeen [⟨3, true⟩] 0 ∧ NoDrift [⟨3, true⟩] 0) ↔ 1 = 1) ∧
      ((TicksSeen [⟨3, true⟩, ⟨5, false⟩] 0 ∧ NoDrift [⟨3, true⟩, ⟨5, false⟩] 0) ↔ 2 = 1) :=
  ⟨ticksSeen_iff (by decide) (by decide) 0, ticksSeen_iff (by decide) (by decide) 0⟩

/-- Two timers due at every tick: the second sees the first tick at 2. -/
theorem second_timer_late : ¬ TicksSeen (mainTimers .clock 2 3 1) 0 ∧
    ¬ NoDrift (mainTimers .clock 2 3 1) 0 := by
  have hmissed : ((Handshake.allWaiting (mainTimers .clock 2 3 1) 0).after
      [.tick, .check 0, .resume]).any (fun s => decide (s.Enabled .tick ∧ s.clkCounter = 1 ∧
        (s.timers[1]?).map Timer.evaluatedAt = some none)) = true := by decide
  have hlate : ((Handshake.allWaiting (mainTimers .clock 2 3 1) 0).after
      [.tick, .check 0, .resume, .wait 0, .tick, .check 1]).any (fun s =>
        decide ((s.timers[1]?).map (fun t => (t.interval, t.interrupts)) = some (1, [2]))) =
      true := by decide
  constructor
  · intro hall
    obtain ⟨s, hs, hcheck⟩ := (Option.any_eq_true ..).mp hmissed
    obtain ⟨hclock, hone, hnone⟩ := of_decide_eq_true hcheck
    obtain ⟨t, ht, heval⟩ := Option.map_eq_some_iff.mp hnone
    have h := hall s (.follow (.init rfl) hs) hclock (by rw [hone]; decide) t
      (List.mem_of_getElem? ht)
    rw [heval] at h
    cases h
  · intro hall
    obtain ⟨s, hs, hcheck⟩ := (Option.any_eq_true ..).mp hlate
    obtain ⟨t, ht, hint⟩ := Option.map_eq_some_iff.mp (of_decide_eq_true hcheck)
    obtain ⟨hinterval, hint⟩ := Prod.mk.inj hint
    obtain ⟨j, hrange, -⟩ := hall s (.follow (.init rfl) hs) t (List.mem_of_getElem? ht)
    rw [hint, hinterval] at hrange
    have hlen := congrArg List.length hrange
    obtain rfl : 1 = j := by simpa using hlen
    simp at hrange

end LocOS
