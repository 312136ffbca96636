import LocOS.Leaks

/-!
# Dangling

The clock ticks while `main` still acquires and releases, from `start_clock`
on, and every tick reads the machine it was given. When `main` is refused
something behind `set_clock_machine`, it destroys the machine and stops the
clock after that.
-/

namespace LocOS

open Custody

namespace Resources

/-- What a tick reads to find that nothing is assigned. -/
def machineRead (numCpus numCores : Nat) : List Resource :=
  [.machine, .cpus] ++
    (List.range numCpus).flatMap fun i => .cores i :: hwThreadsOf numCores i

/-- A tick behind the steps reads nothing that is released, or not yet
acquired. -/
def TickSafe (options : Options) (steps : List (Step Resource Mark)) : Prop :=
  ∀ left, held 0 steps = some left → .clockThread ∈ left → .note .setClockMachine ∈ steps →
    ∀ r ∈ machineRead options.numCpus.toNat options.numCores.toNat, r ∈ left

variable {granted : Resource → Bool} {options : Options}

/-! ## Before the machine -/

theorem toMachine_silent : (toMachine granted options).Silent := by
  have hqueue : (createProcessQueue granted .ready).Silent :=
    .check (Attempt.ask_silent _ _) (.check (Attempt.ask_silent _ _) (Attempt.does_silent []))
  have hcore : ∀ i j, (createCore granted i j).Silent := fun i j =>
    .check (Attempt.ask_silent _ _) (.check (Attempt.ask_silent _ _)
      (.check (Attempt.ask_silent _ _) (Attempt.does_silent [])))
  have hmachine : (createMachine granted options.numCpus.toNat options.numCores.toNat).Silent := by
    refine .check (Attempt.ask_silent _ _) (.check (Attempt.ask_silent _ _) ?_)
    refine Attempt.Silent.loop (fun i => .check (Attempt.ask_silent _ _) ?_) _
    exact Attempt.Silent.loop (fun j => .check (hcore i j) (Attempt.does_silent [.core i j])) _
  exact .check (Attempt.ask_silent _ _) (.check hqueue (.check hmachine (Attempt.does_silent [])))

theorem machineRead_held : ∀ r ∈ machineRead options.numCpus.toNat options.numCores.toNat,
    r ∈ machineHeld options := by
  intro r hr
  simp only [machineRead, hwThreadsOf, List.mem_append, List.mem_cons, List.mem_flatMap,
    List.mem_map, List.mem_range, List.not_mem_nil, or_false] at hr
  simp only [machineHeld, leakedInTheEnd, Multiset.mem_add, Multiset.mem_coe, destroyMachine,
    freeCpu, allHwThreads, hwThreadsOf, List.mem_append, List.mem_flatMap, List.mem_map,
    List.mem_range, List.mem_cons, List.not_mem_nil, or_false]
  rcases hr with (rfl | rfl) | ⟨i, hi, rfl | ⟨j, hj, rfl⟩⟩
  · exact .inl (.inl (.inr (.inr rfl)))
  · exact .inl (.inl (.inr (.inl rfl)))
  · exact .inl (.inl (.inl ⟨i, hi, .inr rfl⟩))
  · exact .inl (.inr ⟨i, hi, j, hj, rfl⟩)

theorem machineRead_stage : ∀ r ∈ machineRead options.numCpus.toNat options.numCores.toNat,
    stage r = 2 := by
  intro r hr
  simp only [machineRead, hwThreadsOf, List.mem_append, List.mem_cons, List.mem_flatMap,
    List.mem_map, List.not_mem_nil, or_false] at hr
  rcases hr with (rfl | rfl) | ⟨i, _, rfl | ⟨j, _, rfl⟩⟩ <;> rfl

/-! ## Behind the machine -/

/-- Every cleanup behind the machine stops the clock last. -/
theorem fromMachine_endsWith : (fromMachine granted options).EndsWith .clockThread := by
  have htimers : (createTimers granted options.numCpus.toNat options.numCores.toNat
      options.policy options.timers.length).EndsWith .clockThread := by
    unfold createTimers
    split
    · exact .check (.loop (fun i => .check (Attempt.does_endsWith [])) _)
    · exact Attempt.does_endsWith []
  refine .check (.check_nil (Attempt.does_endsWith _) (.check (.check_nil htimers ?_)))
  exact .check (Attempt.does_endsWith [])

/-- Refused nothing, `fromMachine` releases nothing of the machine. -/
theorem fromMachine_releases : (fromMachine granted options).Releases fun r => stage r ≠ 2 := by
  have hnone : (Attempt.does [] : Try).Releases fun r => stage r ≠ 2 :=
    Attempt.does_releases (List.forall_mem_nil _)
  have hqueue : ∀ q, (createProcessQueue granted q).Releases fun r => stage r ≠ 2 := fun q =>
    .check (Attempt.ask_releases _ _) (.check (Attempt.ask_releases _ _) hnone)
  have htimer : ∀ i, (createTimer granted i).Releases fun r => stage r ≠ 2 := fun i =>
    .check (Attempt.ask_releases _ _) (.check (Attempt.ask_releases _ _) hnone)
  have hmemory : (createPhysicalMemory granted).Releases fun r => stage r ≠ 2 :=
    .check (Attempt.ask_releases _ _) (.check (Attempt.ask_releases _ _)
      (.check (Attempt.ask_releases _ _) hnone))
  have hscheduler : (createScheduler granted options.policy).Releases fun r => stage r ≠ 2 := by
    refine .check (Attempt.ask_releases _ _) ?_
    split
    · exact .check (Attempt.ask_releases _ _) (.loop (fun l => .check (hqueue _) hnone) _)
    · exact hnone
  have htimers : (createTimers granted options.numCpus.toNat options.numCores.toNat
      options.policy options.timers.length).Releases fun r => stage r ≠ 2 := by
    unfold createTimers
    split
    · exact .check (Attempt.ask_releases _ _) (.loop (fun i => .check (htimer i) hnone) _)
    · exact hnone
  have hmark : (Attempt.does [.note .setClockPhysicalMemory] : Try).Releases
      fun r => stage r ≠ 2 := Attempt.does_releases (List.forall_mem_nil _)
  exact .check hmemory (.check hmark (.check hscheduler (.check htimers
    (.check (Attempt.ask_releases _ _) hnone))))

/-! ## Behind the loader -/

/-- What is released behind the clock. -/
def afterClock (options : Options) : List Resource :=
  (List.range options.timers.length).flatMap destroyTimer ++ destroyProcessQueue .ready ++
    destroyMachine options.numCpus.toNat options.numCores.toNat ++ destroyLoader ++
    destroyPhysicalMemory ++ freeTimers options.timers.length

theorem shutdown_split (options : Options) : shutdown options =
    .schedulerThread :: destroyScheduler options.policy ++ .clockThread :: afterClock options := by
  simp [shutdown, cleanupSystem, afterClock]

/-- What is done before the clock is stopped in the end. -/
def whileTicking (granted : Resource → Bool) (options : Options) (dir : List DirEntry) :
    List (Step Resource Mark) :=
  .note .setClockMachine :: ((fromMachine granted options).steps ++
    (loadDirectory granted dir ++ startScheduler granted ++
      .note .pause :: (.schedulerThread :: destroyScheduler options.policy).map .release))

theorem loadDirectory_releases (dir : List DirEntry) :
    ∀ r ∈ released (loadDirectory granted dir), stage r ≠ 2 := by
  intro r hr
  have hload : held 0 (loadDirectory granted dir) = some 0 := held_loadDirectory 0 dir
  have hcount := count_held hload r
  rw [Multiset.count_zero, Nat.zero_add, Nat.zero_add] at hcount
  have hacquired : r ∈ acquired (loadDirectory granted dir) := by
    rw [← List.count_pos_iff, ← hcount]
    exact List.count_pos_iff.mpr hr
  rw [stage_dirPlan _ r ((acquired_loadDirectory granted dir).subset hacquired)]
  decide

theorem destroyScheduler_stage (policy : Policy) : ∀ r ∈ destroyScheduler policy, stage r ≠ 2 := by
  intro r hr
  unfold destroyScheduler at hr
  split at hr
  · simp only [destroyProcessQueue, List.mem_append, List.mem_flatMap, List.mem_cons,
      List.not_mem_nil, or_false] at hr
    rcases hr with (⟨l, _, rfl | rfl⟩ | rfl) | rfl <;> exact (by decide : ¬ 4 = 2)
  · rw [List.mem_singleton.mp hr]
    decide

theorem whileTicking_releases {dir : List DirEntry}
    (hnone : (fromMachine granted options).refused = none) :
    ∀ r ∈ released (whileTicking granted options dir), stage r ≠ 2 := by
  intro r hr
  have hstart : released (startScheduler granted) = [] := by
    unfold startScheduler
    split <;> rfl
  have hend : released (.note Mark.pause ::
      (.schedulerThread :: destroyScheduler options.policy).map .release) =
        .schedulerThread :: destroyScheduler options.policy :=
    released_releases _
  have hr : r ∈ released ((fromMachine granted options).steps ++
    (loadDirectory granted dir ++ startScheduler granted ++
      .note .pause :: (.schedulerThread :: destroyScheduler options.policy).map .release)) := hr
  simp only [released_append, hstart, hend, List.append_nil, List.mem_append, List.mem_cons] at hr
  rcases hr with hr | hr | rfl | hr
  · exact fromMachine_releases hnone r hr
  · exact loadDirectory_releases dir r hr
  · decide
  · exact destroyScheduler_stage _ r hr

/-! ## Every tick -/

section
variable {dir : List DirEntry}

theorem main_steps_of_none (h : (main granted options dir).refused = none) :
    (toMachine granted options).refused = none ∧ (fromMachine granted options).refused = none ∧
      (main granted options dir).steps = (toMachine granted options).steps ++
        (whileTicking granted options dir ++
          .release .clockThread :: (afterClock options).map .release) := by
  obtain ⟨hstartup, _⟩ := Attempt.check_refused.mp h
  have hboth := hstartup
  rw [startup_eq] at hboth
  obtain ⟨hto, hfrom⟩ := Attempt.check_refused.mp hboth
  obtain ⟨_, hfrom⟩ := Attempt.check_refused.mp hfrom
  refine ⟨hto, hfrom, ?_⟩
  rw [main, Attempt.check_of_none hstartup, startup_eq, Attempt.check_of_none hto]
  simp [Attempt.does, Attempt.check, whileTicking, shutdown_split]

theorem main_steps_of_some {r : Resource} (h : (main granted options dir).refused = some r) :
    (startup granted options).refused = some r ∧
      (main granted options dir).steps = (startup granted options).steps := by
  cases hstartup : (startup granted options).refused with
  | none =>
      rw [main, Attempt.check_of_none hstartup] at h
      cases h
  | some r' =>
      rw [main, Attempt.check_of_some hstartup] at h ⊢
      exact ⟨h, List.append_nil _⟩

/-- Refused at the machine or before, `main` never tells the clock of one. -/
theorem startup_early {r : Resource} (h : (startup granted options).refused = some r)
    (hstage : stage r ≤ 2) : .note .setClockMachine ∉ (startup granted options).steps := by
  rw [startup_eq] at h ⊢
  cases hto : (toMachine granted options).refused with
  | some r' =>
      rw [Attempt.check_of_some hto, List.map_nil, List.append_nil]
      exact toMachine_silent _
  | none =>
      rw [Attempt.check_of_none hto] at h
      obtain ⟨left, _, hpost⟩ := @fromMachine_meets granted options
      rw [show (fromMachine granted options).refused = some r from h] at hpost
      exact absurd hpost.1 (Nat.not_lt.mpr hstage)

/-- Refused later, it stops the clock last. -/
theorem startup_late {r : Resource} (h : (startup granted options).refused = some r)
    (hstage : 2 < stage r) : ∃ steps, .note .setClockMachine ∈ steps ∧
      (startup granted options).steps = steps ++ [.release .clockThread] := by
  rw [startup_eq] at h ⊢
  cases hto : (toMachine granted options).refused with
  | some r' =>
      rw [Attempt.check_of_some hto] at h
      obtain rfl := Option.some.inj h
      obtain ⟨left, _, hpost⟩ := @toMachine_meets granted options
      rw [hto] at hpost
      exact absurd hpost.1 (Nat.not_le.mpr hstage)
  | none =>
      rw [Attempt.check_of_none hto] at h ⊢
      have hfrom : (fromMachine granted options).refused = some r := h
      obtain ⟨steps, he⟩ := fromMachine_endsWith (by rw [hfrom]; exact Option.some_ne_none r)
      refine ⟨(toMachine granted options).steps ++ .note .setClockMachine :: steps, by simp, ?_⟩
      show (toMachine granted options).steps ++ .note .setClockMachine ::
        (fromMachine granted options).steps = _
      rw [he]
      simp

theorem machine_notMem (r : Resource) : .machine ∉ leakedBy options r := by
  unfold leakedBy leaked
  split <;> simp [allHwThreads, hwThreadsOf, destroyPhysicalMemory]

/-- Once it was released, the clock's thread is never held again. -/
theorem clockThread_released {done rest : List (Step Resource Mark)}
    (he : (main granted options dir).steps = done ++ rest) {left : Multiset Resource}
    (hheld : held 0 done = some left) (hrel : .clockThread ∈ released done) :
    .clockThread ∉ left := by
  have hnd : (acquired done).Nodup := by
    have hplan := acquired_main granted options dir
    rw [he, acquired_append] at hplan
    exact (nodup_mainPlan options dir).sublist ((List.sublist_append_left ..).trans hplan)
  have hcount := count_held hheld .clockThread
  have hacquired := List.nodup_iff_count_le_one.mp hnd .clockThread
  have hpos := List.count_pos_iff.mpr hrel
  rw [Multiset.count_zero] at hcount
  rw [← Multiset.count_eq_zero]
  omega

/-- Refused nothing, `main` stops the clock before it destroys the machine. -/
theorem tickSafe_of_none (h : (main granted options dir).refused = none)
    {done rest : List (Step Resource Mark)}
    (he : (main granted options dir).steps = done ++ rest) : TickSafe options done := by
  intro left hheld hclock hmark r hr
  obtain ⟨hto, hfrom, hsteps⟩ := main_steps_of_none h
  have hlost := clockThread_released he hheld
  rw [hsteps] at he
  obtain ⟨steps, rfl, htail⟩ | ⟨steps, hdone, _⟩ := List.append_eq_append_iff.mp he
  · obtain ⟨before, hbefore, hpost⟩ := @toMachine_meets granted options
    rw [hto] at hpost
    rw [held_append, hbefore, hpost, Option.bind_some] at hheld
    refine mem_held hheld (machineRead_held r hr) fun hrel => ?_
    have hticking : r ∉ released (whileTicking granted options dir) := fun hin =>
      whileTicking_releases hfrom r hin (machineRead_stage r hr)
    obtain ⟨more, rfl, hmore⟩ | ⟨more, hmore, _⟩ := List.append_eq_append_iff.mp htail
    · cases more with
      | nil => exact hticking (by simpa using hrel)
      | cons step more =>
          obtain ⟨rfl, _⟩ := List.cons.inj hmore
          exact hlost (by simp [released]) hclock
    · rw [hmore, released_append] at hticking
      exact hticking (List.mem_append_left _ hrel)
  -- the clock has no machine yet
  · have hsilent : .note .setClockMachine ∉ (toMachine granted options).steps :=
      toMachine_silent _
    rw [hdone] at hsilent
    exact absurd (List.mem_append_left steps hmark) hsilent

/-- The clock never reads freed memory, whenever it ticks, exactly when `main`
is refused nothing behind `create_machine`. -/
theorem tickSafe_iff (granted : Resource → Bool) (options : Options) (dir : List DirEntry) :
    (∀ done rest, (main granted options dir).steps = done ++ rest → TickSafe options done) ↔
      ∀ r, (main granted options dir).refused = some r → stage r ≤ 2 := by
  constructor
  · intro hsafe r hr
    by_contra hstage
    obtain ⟨hstartup, hsteps⟩ := main_steps_of_some hr
    obtain ⟨steps, hmark, he⟩ := startup_late hstartup (Nat.not_le.mp hstage)
    obtain ⟨left, hheld, hpost⟩ := @startup_meets granted options
    rw [hstartup] at hpost
    rw [he, held_append] at hheld
    obtain ⟨before, hbefore, hheld⟩ := Option.bind_eq_some_iff.mp hheld
    rw [held] at hheld
    split at hheld
    · rename_i hclock
      have hmachine := hsafe steps [.release .clockThread] (hsteps.trans he) before hbefore hclock
        hmark .machine (by simp [machineRead])
      have hleft : before.erase .clockThread = left := Option.some.inj hheld
      have hin : .machine ∈ left := by
        rw [← hleft]
        exact (Multiset.mem_erase_of_ne (by decide)).mpr hmachine
      exact machine_notMem r (hpost ▸ hin)
    · cases hheld
  · intro hearly done rest he left hheld hclock hmark r hr
    cases hrefused : (main granted options dir).refused with
    | some r' =>
        obtain ⟨hstartup, hsteps⟩ := main_steps_of_some hrefused
        have hnot := startup_early hstartup (hearly r' hrefused)
        rw [← hsteps, he] at hnot
        exact absurd (List.mem_append_left rest hmark) hnot
    | none => exact tickSafe_of_none hrefused he left hheld hclock hmark r hr

end
end Resources
end LocOS
