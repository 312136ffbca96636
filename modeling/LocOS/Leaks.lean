import LocOS.Resources
import Mathlib.Tactic.Abel

/-!
# Leaks

What `main` still holds when it returns, whatever it is refused on the way.
`destroy_machine` leaves `hw_threads`, and so does one of the two cleanups of
`create_machine`; the failure paths of `main` between physical memory and the
loader leave physical memory.
-/

namespace LocOS

open Custody

namespace Resources

/-! ## What is left -/

/-- Where in `main` a resource is asked for. -/
def stage : Resource → Nat
  | .clockThread => 0
  | .queue .ready | .queueArray .ready => 1
  | .machine | .cpus | .cores _ | .core .. | .corePcbs .. | .hwThreads .. => 2
  | .physicalMemory | .memory | .frameBitmap => 3
  | .scheduler | .priorityQueues | .queue (.level _) | .queueArray (.level _) => 4
  | .timers | .timer _ | .timerThread _ => 5
  | .loader => 6
  | .dir | .file _ | .program _ | .fullProgram _ | .codeSegment _ | .dataSegment _ => 7
  | .schedulerThread => 8

/-- The `hw_threads` of the cores of CPU `i`. -/
def hwThreadsOf (numCores i : Nat) : List Resource := (List.range numCores).map (.hwThreads i)

/-- Those of the first `n` CPUs. -/
def allHwThreads (numCores n : Nat) : List Resource :=
  (List.range n).flatMap (hwThreadsOf numCores)

/-- What `main` holds when it returns because it was refused a resource. -/
def leaked (numCpus numCores : Nat) : Resource → Multiset Resource
  | .clockThread | .queue .ready | .queueArray .ready => 0
  | .machine | .cpus | .core .. | .corePcbs .. | .hwThreads .. => 0
  | .cores i => .ofList (allHwThreads numCores i)
  | .physicalMemory | .memory | .frameBitmap | .loader => .ofList (allHwThreads numCores numCpus)
  | _ => .ofList (allHwThreads numCores numCpus) + .ofList destroyPhysicalMemory

/-! ## One constructor -/

section
variable {granted : Resource → Bool} {numCpus numCores : Nat} (before : Multiset Resource)

theorem createProcessQueue_meets (q : QueueName) :
    (createProcessQueue granted q).Meets before (.ofList (destroyProcessQueue q) + before)
      fun r left => (r = .queue q ∨ r = .queueArray q) ∧ left = before := by
  refine (Attempt.ask_meets ..).check ((Attempt.ask_meets ..).check
    (Attempt.does_meets (congrArg some ?_)) ?_) ?_
  · simp only [destroyProcessQueue, ← Multiset.cons_coe, ← Multiset.singleton_add,
      Multiset.coe_nil, add_zero]
    abel
  · rintro r left ⟨rfl, rfl⟩
    exact ⟨before, rfl, .inr rfl, rfl⟩
  · rintro r left ⟨rfl, rfl⟩
    exact ⟨left, (zero_add left).symm, .inl rfl, rfl⟩

/-- The wrapper is still held. -/
theorem createCore_meets (i j : Nat) :
    (createCore granted i j).Meets before
      (.core i j ::ₘ (.ofList (destroyCore i j) + before))
      fun r left => (r = .core i j ∨ r = .corePcbs i j ∨ r = .hwThreads i j) ∧ left = before := by
  refine (Attempt.ask_meets ..).check ((Attempt.ask_meets ..).check
    ((Attempt.ask_meets ..).check (Attempt.does_meets (congrArg some ?_)) ?_) ?_) ?_
  · simp only [destroyCore, ← Multiset.cons_coe, ← Multiset.singleton_add, Multiset.coe_nil,
      add_zero]
    abel
  · rintro r left ⟨rfl, rfl⟩
    refine ⟨before, ?_, .inr (.inr rfl), rfl⟩
    simp only [← Multiset.cons_coe, ← Multiset.singleton_add, Multiset.coe_nil, add_zero]
    abel
  · rintro r left ⟨rfl, rfl⟩
    exact ⟨before, rfl, .inr (.inl rfl), rfl⟩
  · rintro r left ⟨rfl, rfl⟩
    exact ⟨left, (zero_add left).symm, .inl rfl, rfl⟩

/-! ## The machine -/

/-- What `destroy_core` releases of the first `j` cores of CPU `i`. -/
theorem coe_destroyCores (i j : Nat) : Multiset.ofList ((List.range j).flatMap (destroyCore i)) =
    .ofList ((List.range j).map (.corePcbs i)) + .ofList (hwThreadsOf j i) := by
  induction j with
  | zero => rfl
  | succ j ih =>
      simp only [hwThreadsOf] at ih ⊢
      simp only [List.range_succ, List.flatMap_append, List.map_append, List.flatMap_singleton,
        List.map_singleton, destroyCore, ← Multiset.coe_add, ih, ← Multiset.cons_coe,
        ← Multiset.singleton_add, Multiset.coe_nil, add_zero]
      abel

/-- What `destroy_core` releases of the first `n` CPUs, with their arrays. -/
theorem coe_destroyCpus (numCores n : Nat) :
    Multiset.ofList ((List.range n).flatMap fun k =>
        (List.range numCores).flatMap (destroyCore k) ++ [.cores k]) =
      .ofList ((List.range n).flatMap (freeCpu numCores)) +
        .ofList (allHwThreads numCores n) := by
  induction n with
  | zero => rfl
  | succ n ih =>
      simp only [allHwThreads] at ih ⊢
      simp only [List.range_succ, List.flatMap_append, List.flatMap_singleton, freeCpu,
        ← Multiset.coe_add, ih, coe_destroyCores]
      abel

/-- Before `create_machine` makes CPU `i`. -/
def cpusMade (numCores i : Nat) : Multiset Resource :=
  .ofList ((List.range i).flatMap (freeCpu numCores)) + .ofList (allHwThreads numCores i) +
    .ofList [.cpus, .machine] + before

/-- Before it makes core `j` of it. -/
def coresMade (numCores i j : Nat) : Multiset Resource :=
  .ofList ((List.range j).map (.corePcbs i)) + .ofList (hwThreadsOf j i) +
    ({.cores i} + cpusMade before numCores i)

theorem coresMade_zero (i : Nat) :
    coresMade before numCores i 0 = .cores i ::ₘ cpusMade before numCores i := by
  simp [coresMade, hwThreadsOf]

theorem coresMade_succ (i j : Nat) :
    coresMade before numCores i (j + 1) =
      .ofList (destroyCore i j) + coresMade before numCores i j := by
  simp only [coresMade, hwThreadsOf, List.range_succ, List.map_append, List.map_singleton,
    destroyCore, ← Multiset.coe_add, ← Multiset.cons_coe, ← Multiset.singleton_add,
    Multiset.coe_nil, add_zero]
  abel

theorem coresMade_all (i : Nat) :
    coresMade before numCores i numCores = cpusMade before numCores (i + 1) := by
  simp only [coresMade, cpusMade, allHwThreads, hwThreadsOf, List.range_succ, List.flatMap_append,
    List.flatMap_singleton, freeCpu, ← Multiset.coe_add, ← Multiset.cons_coe,
    ← Multiset.singleton_add, Multiset.coe_nil, add_zero]
  abel

theorem createCpu_meets (i : Nat) :
    (createCpu granted numCores i).Meets (cpusMade before numCores i)
      (cpusMade before numCores (i + 1))
      fun r left => stage r = 2 ∧ left = leaked numCpus numCores r + before := by
  refine (Attempt.ask_meets ..).check ?_ ?_
  · rw [← coresMade_zero, ← coresMade_all]
    refine Attempt.Meets.loop (coresMade before numCores i) fun j _ => ?_
    refine (createCore_meets (coresMade before numCores i j) i j).check
      (Attempt.does_meets ?_) ?_
    · rw [held_release, coresMade_succ]
      rfl
    · rintro r left ⟨hr, rfl⟩
      have hleak : stage r = 2 ∧ leaked numCpus numCores r = 0 := by
        rcases hr with rfl | rfl | rfl <;> exact ⟨rfl, rfl⟩
      refine ⟨before, ?_, hleak.1, ?_⟩
      · simp only [coresMade, cpusMade, ← Multiset.coe_add, coe_destroyCores, coe_destroyCpus,
          ← Multiset.cons_coe, ← Multiset.singleton_add, Multiset.coe_nil, add_zero]
        abel
      · rw [hleak.2, zero_add]
  -- this cleanup releases the arrays of PCBs only
  · rintro r left ⟨rfl, rfl⟩
    refine ⟨.ofList (allHwThreads numCores i) + before, ?_, rfl, rfl⟩
    simp only [cpusMade, ← Multiset.coe_add]
    abel

theorem createMachine_meets :
    (createMachine granted numCpus numCores).Meets before
      (.ofList (destroyMachine numCpus numCores) + .ofList (allHwThreads numCores numCpus) +
        before)
      fun r left => stage r = 2 ∧ left = leaked numCpus numCores r + before := by
  have hlast : .ofList (destroyMachine numCpus numCores) +
      .ofList (allHwThreads numCores numCpus) + before = cpusMade before numCores numCpus := by
    simp only [destroyMachine, cpusMade, ← Multiset.coe_add]
    abel
  have hfirst : .cpus ::ₘ .machine ::ₘ before = cpusMade before numCores 0 := by
    simp [cpusMade, allHwThreads, ← Multiset.cons_coe]
  rw [hlast]
  refine (Attempt.ask_meets ..).check ((Attempt.ask_meets ..).check ?_ ?_) ?_
  · rw [hfirst]
    exact Attempt.Meets.loop (cpusMade before numCores) fun i _ => createCpu_meets before i
  · rintro r left ⟨rfl, rfl⟩
    exact ⟨before, rfl, rfl, (zero_add before).symm⟩
  · rintro r left ⟨rfl, rfl⟩
    exact ⟨left, (zero_add left).symm, rfl, (zero_add left).symm⟩

/-! ## Behind the machine -/

section
variable (numCpus numCores)

theorem createPhysicalMemory_meets :
    (createPhysicalMemory granted).Meets before (.ofList destroyPhysicalMemory + before)
      fun r left => 2 < stage r ∧
        leaked numCpus numCores r = .ofList (allHwThreads numCores numCpus) ∧ left = before := by
  refine (Attempt.ask_meets ..).check ((Attempt.ask_meets ..).check
    ((Attempt.ask_meets ..).check (Attempt.does_meets (congrArg some ?_)) ?_) ?_) ?_
  · simp only [destroyPhysicalMemory, ← Multiset.cons_coe, ← Multiset.singleton_add,
      Multiset.coe_nil, add_zero]
    abel
  · rintro r left ⟨rfl, rfl⟩
    refine ⟨before, ?_, by decide, rfl, rfl⟩
    simp only [← Multiset.cons_coe, ← Multiset.singleton_add, Multiset.coe_nil, add_zero]
    abel
  · rintro r left ⟨rfl, rfl⟩
    exact ⟨before, rfl, by decide, rfl, rfl⟩
  · rintro r left ⟨rfl, rfl⟩
    exact ⟨left, (zero_add left).symm, by decide, rfl, rfl⟩

/-- What is leaked behind physical memory. -/
def withMemory (numCpus numCores : Nat) : Multiset Resource :=
  .ofList (allHwThreads numCores numCpus) + .ofList destroyPhysicalMemory

/-- Before `create_scheduler_with_policy` makes the queue of level `l`. -/
def levelsMade (l : Nat) : Multiset Resource :=
  .ofList ((List.range l).flatMap fun k => destroyProcessQueue (.level k)) +
    .ofList [.priorityQueues, .scheduler] + before

theorem levelsMade_succ (l : Nat) :
    levelsMade before (l + 1) =
      .ofList (destroyProcessQueue (.level l)) + levelsMade before l := by
  simp only [levelsMade, List.range_succ, List.flatMap_append, List.flatMap_singleton,
    ← Multiset.coe_add]
  abel

theorem createScheduler_meets (policy : Policy) :
    (createScheduler granted policy).Meets before (.ofList (destroyScheduler policy) + before)
      fun r left => 2 < stage r ∧
        leaked numCpus numCores r = withMemory numCpus numCores ∧ left = before := by
  refine (Attempt.ask_meets ..).check ?_ ?_
  · unfold destroyScheduler
    split
    · have hfirst : .priorityQueues ::ₘ .scheduler ::ₘ before = levelsMade before 0 := by
        simp [levelsMade, ← Multiset.cons_coe]
      have hlast : .ofList ((List.range numPriorityLevels).flatMap
            (fun l => destroyProcessQueue (.level l)) ++ [.priorityQueues] ++ [.scheduler]) +
          before = levelsMade before numPriorityLevels := by
        simp only [levelsMade, ← Multiset.coe_add, ← Multiset.cons_coe, ← Multiset.singleton_add,
          Multiset.coe_nil, add_zero]
        abel
      refine (Attempt.ask_meets ..).check ?_ ?_
      · rw [hfirst, hlast]
        refine Attempt.Meets.loop (levelsMade before) fun l _ => ?_
        refine (createProcessQueue_meets (levelsMade before l) (.level l)).check
          (Attempt.does_meets ?_) ?_
        · rw [levelsMade_succ]
          rfl
        · rintro r left ⟨hr, rfl⟩
          have hleak : 2 < stage r ∧
              leaked numCpus numCores r = withMemory numCpus numCores := by
            rcases hr with rfl | rfl
            · exact ⟨(by decide : 2 < 4), rfl⟩
            · exact ⟨(by decide : 2 < 4), rfl⟩
          refine ⟨before, ?_, hleak.1, hleak.2, rfl⟩
          simp only [levelsMade, ← Multiset.coe_add]
      · rintro r left ⟨rfl, rfl⟩
        exact ⟨before, rfl, by decide, rfl, rfl⟩
    · exact Attempt.does_meets rfl
  · rintro r left ⟨rfl, rfl⟩
    exact ⟨left, (zero_add left).symm, by decide, rfl, rfl⟩

theorem createTimer_meets (i : Nat) :
    (createTimer granted i).Meets before (.ofList (destroyTimer i) + before)
      fun r left => 2 < stage r ∧
        leaked numCpus numCores r = withMemory numCpus numCores ∧ left = before := by
  refine (Attempt.ask_meets ..).check ((Attempt.ask_meets ..).check
    (Attempt.does_meets (congrArg some ?_)) ?_) ?_
  · simp only [destroyTimer, ← Multiset.cons_coe, ← Multiset.singleton_add, Multiset.coe_nil,
      add_zero]
    abel
  · rintro r left ⟨rfl, rfl⟩
    exact ⟨before, rfl, (by decide : 2 < 5), rfl, rfl⟩
  · rintro r left ⟨rfl, rfl⟩
    exact ⟨left, (zero_add left).symm, (by decide : 2 < 5), rfl, rfl⟩

/-- What `main` holds of the scheduler, the machine, the queue and the clock. -/
def systemHeld (numCpus numCores : Nat) (policy : Policy) : List Resource :=
  destroyScheduler policy ++ destroyMachine numCpus numCores ++ destroyProcessQueue .ready ++
    [.clockThread]

/-- Before `main` creates timer `i`. -/
def timersMade (i : Nat) : Multiset Resource :=
  .ofList ((List.range i).flatMap destroyTimer ++ [.timers]) + before

theorem createTimers_meets (policy : Policy) (n : Nat) :
    (createTimers granted numCpus numCores policy n).Meets
      (.ofList (systemHeld numCpus numCores policy) + before)
      (.ofList ((List.range n).flatMap destroyTimer ++ freeTimers n) +
        (.ofList (systemHeld numCpus numCores policy) + before))
      fun r left => 2 < stage r ∧
        leaked numCpus numCores r = withMemory numCpus numCores ∧ left = before := by
  unfold createTimers freeTimers
  generalize hheld : Multiset.ofList (systemHeld numCpus numCores policy) + before = system
  split
  · refine (Attempt.ask_meets ..).check ?_ ?_
    · rw [show .timers ::ₘ system = timersMade system 0 by simp [timersMade]]
      refine Attempt.Meets.loop (timersMade system) fun i _ => ?_
      have htimer : (createTimer granted i).Meets (timersMade system i)
          (.ofList (destroyTimer i) + timersMade system i) fun r left => 2 < stage r ∧
            leaked numCpus numCores r = withMemory numCpus numCores ∧ left = timersMade system i :=
        createTimer_meets _ _ _ i
      refine htimer.check (Attempt.does_meets (congrArg some ?_)) ?_
      · simp only [timersMade, List.range_succ, List.flatMap_append, List.flatMap_singleton,
          ← Multiset.coe_add]
        abel
      · rintro r left ⟨hstage, hleak, rfl⟩
        refine ⟨before, ?_, hstage, hleak, rfl⟩
        simp only [timersMade, ← hheld, systemHeld, ← Multiset.coe_add]
        abel
    · rintro r left ⟨rfl, rfl⟩
      exact ⟨before, hheld.symm, by decide, rfl, rfl⟩
  · rename_i hn
    obtain rfl := Nat.eq_zero_of_not_pos hn
    exact Attempt.does_meets (congrArg some (zero_add _).symm)

end

/-! ## The programs directory -/

theorem loadProgramFromElf_meets (d : Nat) (first : FirstPass) :
    (loadProgramFromElf granted d first).Meets before
      (.ofList (destroyProgram d first) + before) fun _ left => left = before := by
  refine (Attempt.ask_meets ..).check ((Attempt.ask_meets ..).check ?_ ?_) ?_
  · split
    · refine (Attempt.ask_meets ..).check ?_ ?_
      · have hfile : .fullProgram d ::ₘ .program d ::ₘ .file d ::ₘ before =
            .file d ::ₘ .fullProgram d ::ₘ .program d ::ₘ before := by
          simp only [← Multiset.singleton_add]
          abel
        rw [hfile]
        dsimp only
        split
        · rename_i hgot
          have hfull : .ofList (segments d first) + (.fullProgram d ::ₘ .program d ::ₘ before) =
              .fullProgram d ::ₘ (.ofList (destroyProgram d first) + before) := by
            simp only [destroyProgram, ← Multiset.coe_add, ← Multiset.cons_coe,
              ← Multiset.singleton_add, Multiset.coe_nil, add_zero]
            abel
          refine ⟨.ofList (destroyProgram d first) + before, ?_, rfl⟩
          rw [held_release, held_append, held_acquires, hgot, Option.bind_some, hfull,
            held_release]
          rfl
        · refine ⟨before, ?_, rfl⟩
          rw [held_release, held_append, held_acquires, Option.bind_some]
          generalize (segments d first).filter granted = got
          have hgot : .ofList got + (.fullProgram d ::ₘ .program d ::ₘ before) =
              .ofList (.fullProgram d :: (got ++ [.program d])) + before := by
            simp only [← Multiset.coe_add, ← Multiset.cons_coe, ← Multiset.singleton_add,
              Multiset.coe_nil, add_zero]
            abel
          rw [hgot]
          exact held_releases _ _
      · rintro r left ⟨rfl, rfl⟩
        refine ⟨before, ?_, rfl⟩
        simp only [← Multiset.cons_coe, ← Multiset.singleton_add, Multiset.coe_nil, add_zero]
        abel
    · refine ⟨before, ?_, rfl⟩
      rw [held_release, held_release]
      rfl
  · rintro r left ⟨rfl, rfl⟩
    exact ⟨before, rfl, rfl⟩
  · rintro r left ⟨rfl, rfl⟩
    exact ⟨left, (zero_add left).symm, rfl⟩

theorem held_loadEntry (entry : DirEntry) (d : Nat) :
    held before (loadEntry granted entry d) = some before := by
  unfold loadEntry
  split
  · dsimp only
    generalize (Text.lines lineCapacity (entry.contents.getD [])).foldl firstPassLine .start = first
    obtain ⟨left, hheld, hpost⟩ := loadProgramFromElf_meets before d first
    rw [held_append, hheld, Option.bind_some]
    cases hrefused : (loadProgramFromElf granted d first).refused with
    | none =>
        rw [hrefused] at hpost
        rw [if_pos rfl, hpost]
        exact held_releases _ _
    | some r =>
        rw [hrefused] at hpost
        rw [if_neg (Option.some_ne_none r), hpost]
        rfl
  · rfl

theorem held_loadEntries (entries : List (DirEntry × Nat)) :
    held before (entries.flatMap fun e => loadEntry granted e.1 e.2) = some before := by
  induction entries with
  | nil => rfl
  | cons e entries ih =>
      rw [List.flatMap_cons, held_append, held_loadEntry]
      exact ih

/-- Loading the programs leaves nothing behind. -/
theorem held_loadDirectory (dir : List DirEntry) :
    held before (loadDirectory granted dir) = some before := by
  unfold loadDirectory
  split
  · rw [held, held_append, held_loadEntries, Option.bind_some, held_release]
    rfl
  · rfl

end

/-! ## Main -/

section
variable {granted : Resource → Bool} (options : Options)

/-- What `main` leaks when it is refused `r`. -/
def leakedBy (r : Resource) : Multiset Resource :=
  leaked options.numCpus.toNat options.numCores.toNat r

/-- What it leaks when it is refused nothing. -/
def leakedInTheEnd : Multiset Resource :=
  .ofList (allHwThreads options.numCores.toNat options.numCpus.toNat)

/-- What `main` releases in the end, its scheduler's thread apart. -/
def mainHeld : List Resource := (shutdown options).tail

variable (granted) in
/-- `startup` up to `set_clock_machine`. -/
def toMachine : Try :=
  (Attempt.ask granted .clockThread).check [] <|
  (createProcessQueue granted .ready).check [.clockThread] <|
  (createMachine granted options.numCpus.toNat options.numCores.toNat).check
    (destroyProcessQueue .ready ++ [.clockThread]) <|
  .does []

variable (granted) in
/-- `startup` behind it. -/
def fromMachine : Try :=
  let numCpus := options.numCpus.toNat
  let numCores := options.numCores.toNat
  let timersToCreate := options.timers.length
  (createPhysicalMemory granted).check
    (destroyMachine numCpus numCores ++ destroyProcessQueue .ready ++ [.clockThread]) <|
  (Attempt.does [.note .setClockPhysicalMemory]).check [] <|
  (createScheduler granted options.policy).check
    (destroyMachine numCpus numCores ++ destroyProcessQueue .ready ++ [.clockThread]) <|
  (createTimers granted numCpus numCores options.policy timersToCreate).check [] <|
  (createLoader granted).check
    (destroyScheduler options.policy ++ destroyPhysicalMemory ++
      destroyMachine numCpus numCores ++ destroyProcessQueue .ready ++
      (List.range timersToCreate).flatMap destroyTimer ++ freeTimers timersToCreate ++
      [.clockThread]) <|
  .does []

theorem startup_eq : startup granted options =
    (toMachine granted options).check [] ((Attempt.does [.note .setClockMachine]).check []
      (fromMachine granted options)) := by
  rw [toMachine, Attempt.check_assoc, Attempt.check_assoc, Attempt.check_assoc,
    Attempt.does_nil_check]
  rfl

/-- What is held when the clock gets the machine. -/
def machineHeld : Multiset Resource :=
  .ofList (destroyMachine options.numCpus.toNat options.numCores.toNat) + leakedInTheEnd options +
    (.ofList (destroyProcessQueue .ready) + {.clockThread})

theorem toMachine_meets : (toMachine granted options).Meets 0 (machineHeld options)
    fun r left => stage r ≤ 2 ∧ left = leakedBy options r := by
  refine (Attempt.ask_meets ..).check ?_ ?_
  · refine (createProcessQueue_meets _ .ready).check ?_ ?_
    · refine (createMachine_meets _).check (Attempt.does_meets rfl) ?_
      rintro r left ⟨hstage, rfl⟩
      refine ⟨leakedBy options r, ?_, hstage.le, rfl⟩
      simp only [leakedBy, ← Multiset.coe_add, ← Multiset.cons_coe, ← Multiset.singleton_add,
        Multiset.coe_nil, add_zero]
      abel
    · rintro r left ⟨rfl | rfl, rfl⟩
      · exact ⟨0, rfl, by decide, rfl⟩
      · exact ⟨0, rfl, by decide, rfl⟩
  · rintro r left ⟨rfl, rfl⟩
    exact ⟨0, rfl, by decide, rfl⟩

theorem fromMachine_meets : (fromMachine granted options).Meets (machineHeld options)
    (.ofList (mainHeld options) + leakedInTheEnd options)
    fun r left => 2 < stage r ∧ left = leakedBy options r := by
  unfold fromMachine machineHeld mainHeld shutdown leakedInTheEnd leakedBy
  generalize options.numCpus.toNat = numCpus
  generalize options.numCores.toNat = numCores
  generalize options.timers.length = timersToCreate
  dsimp only
  refine (createPhysicalMemory_meets numCpus numCores _).check ?_ ?_
  · refine .does_check rfl ?_
    refine (createScheduler_meets numCpus numCores _ _).check ?_ ?_
    · have hsystem : .ofList (destroyScheduler options.policy) +
          (.ofList destroyPhysicalMemory + (.ofList (destroyMachine numCpus numCores) +
            .ofList (allHwThreads numCores numCpus) +
              (.ofList (destroyProcessQueue .ready) + {.clockThread}))) =
          .ofList (systemHeld numCpus numCores options.policy) + withMemory numCpus numCores := by
        simp only [systemHeld, withMemory, ← Multiset.coe_add, ← Multiset.cons_coe,
          ← Multiset.singleton_add, Multiset.coe_nil, add_zero]
        abel
      rw [hsystem]
      refine (createTimers_meets numCpus numCores _ options.policy timersToCreate).check ?_ ?_
      · refine (Attempt.ask_meets ..).check (Attempt.does_meets (congrArg some ?_)) ?_
        · simp only [cleanupSystem, destroyLoader, systemHeld, withMemory, List.append_assoc,
            List.cons_append, List.tail_cons, ← Multiset.coe_add, ← Multiset.cons_coe,
            ← Multiset.singleton_add, Multiset.coe_nil, add_zero]
          abel
        · rintro r left ⟨rfl, rfl⟩
          refine ⟨leaked numCpus numCores .loader, ?_, by decide, rfl⟩
          simp only [leaked, systemHeld, withMemory, ← Multiset.coe_add, ← Multiset.cons_coe,
            ← Multiset.singleton_add, Multiset.coe_nil, add_zero]
          abel
      · rintro r left ⟨hstage, hleak, rfl⟩
        exact ⟨withMemory numCpus numCores, (zero_add _).symm, hstage, hleak.symm⟩
    · rintro r left ⟨hstage, hleak, rfl⟩
      refine ⟨leaked numCpus numCores r, ?_, hstage, rfl⟩
      rw [hleak]
      simp only [withMemory, ← Multiset.coe_add, ← Multiset.cons_coe, ← Multiset.singleton_add,
        Multiset.coe_nil, add_zero]
      abel
  · rintro r left ⟨hstage, hleak, rfl⟩
    refine ⟨leaked numCpus numCores r, ?_, hstage, rfl⟩
    rw [hleak]
    simp only [← Multiset.coe_add, ← Multiset.cons_coe, ← Multiset.singleton_add,
      Multiset.coe_nil, add_zero]
    abel

theorem startup_meets : (startup granted options).Meets 0
    (.ofList (mainHeld options) + leakedInTheEnd options)
    fun r left => left = leakedBy options r := by
  rw [startup_eq]
  refine (toMachine_meets options).check (.does_check rfl ?_) ?_
  · exact (fromMachine_meets options).mono fun r left h => h.2
  · rintro r left ⟨_, rfl⟩
    exact ⟨leakedBy options r, (zero_add _).symm, rfl⟩

theorem shutdown_eq : shutdown options = .schedulerThread :: mainHeld options := rfl

/-- Nobody but `startScheduler` makes the scheduler's thread. -/
theorem schedulerThread_notMem :
    .schedulerThread ∉ Multiset.ofList (mainHeld options) + leakedInTheEnd options := by
  have hscheduler : .schedulerThread ∉ destroyScheduler options.policy := by
    unfold destroyScheduler
    split <;> simp [destroyProcessQueue]
  have htimers : .schedulerThread ∉ freeTimers options.timers.length := by
    unfold freeTimers
    split <;> simp
  simp [mainHeld, shutdown, cleanupSystem, leakedInTheEnd, allHwThreads, hwThreadsOf, hscheduler,
    htimers, destroyTimer, destroyProcessQueue, destroyMachine, freeCpu, destroyLoader,
    destroyPhysicalMemory]

variable (granted) in
/-- `cleanup_system` joins a thread that does not exist. -/
def JoinsNothing (dir : List DirEntry) : Prop :=
  (main granted options dir).refused = none ∧ granted .schedulerThread = false

instance (dir : List DirEntry) : Decidable (JoinsNothing granted options dir) :=
  inferInstanceAs (Decidable (_ ∧ _))

variable (granted) in
theorem held_main (dir : List DirEntry) : held 0 (main granted options dir).steps =
    if JoinsNothing granted options dir then none
    else some ((main granted options dir).refused.elim (leakedInTheEnd options)
      (leakedBy options)) := by
  obtain ⟨left, hheld, hpost⟩ := startup_meets options
  cases hrefused : (startup granted options).refused with
  | some r =>
      have hmain : main granted options dir = ⟨(startup granted options).steps ++ [], some r⟩ :=
        Attempt.check_of_some hrefused
      have hjoins : ¬ JoinsNothing granted options dir := by
        rintro ⟨hnone, _⟩
        rw [hmain] at hnone
        cases hnone
      rw [hrefused] at hpost
      rw [if_neg hjoins, hmain]
      dsimp only
      rw [List.append_nil, hheld, hpost]
      rfl
  | none =>
      have hmain : main granted options dir = ⟨(startup granted options).steps ++
          (loadDirectory granted dir ++ startScheduler granted ++
            .note .pause :: (shutdown options).map .release), none⟩ :=
        Attempt.check_of_none hrefused
      have hjoins : JoinsNothing granted options dir ↔ granted .schedulerThread = false := by
        unfold JoinsNothing
        rw [hmain]
        exact and_iff_right rfl
      rw [hrefused] at hpost
      simp only [hjoins, hmain]
      rw [held_append, hheld, hpost, Option.bind_some, List.append_assoc, held_append,
        held_loadDirectory, Option.bind_some, startScheduler, shutdown_eq, List.map_cons]
      cases hthread : granted .schedulerThread with
      | true =>
          rw [if_pos rfl, if_neg (by decide), List.singleton_append, held, held, held_release]
          exact held_releases _ _
      | false =>
          rw [if_neg (by decide), if_pos rfl, List.nil_append, held, held,
            if_neg (schedulerThread_notMem options)]

end

/-! ## What is asked for -/

section
variable (granted : Resource → Bool)

/-- What `create_process_queue` asks for, in its order; the plans below
likewise. -/
def queuePlan (q : QueueName) : List Resource := [.queue q, .queueArray q]

def corePlan (i j : Nat) : List Resource := [.core i j, .corePcbs i j, .hwThreads i j]

def cpuPlan (numCores i : Nat) : List Resource :=
  .cores i :: (List.range numCores).flatMap (corePlan i)

def machinePlan (numCpus numCores : Nat) : List Resource :=
  .machine :: .cpus :: (List.range numCpus).flatMap (cpuPlan numCores)

def memoryPlan : List Resource := [.physicalMemory, .memory, .frameBitmap]

def schedulerPlan : List Resource :=
  .scheduler :: .priorityQueues ::
    (List.range numPriorityLevels).flatMap fun l => queuePlan (.level l)

def timerPlan (i : Nat) : List Resource := [.timer i, .timerThread i]

def timersPlan (n : Nat) : List Resource := .timers :: (List.range n).flatMap timerPlan

def entryPlan (d : Nat) : List Resource :=
  [.file d, .program d, .fullProgram d, .codeSegment d, .dataSegment d]

theorem acquired_createProcessQueue (q : QueueName) :
    (acquired (createProcessQueue granted q).steps).Sublist (queuePlan q) :=
  Attempt.acquired_check (Attempt.acquired_ask ..)
    (Attempt.acquired_check (Attempt.acquired_ask ..) (List.Sublist.refl []))

theorem acquired_createCore (i j : Nat) :
    (acquired (createCore granted i j).steps).Sublist (corePlan i j) :=
  Attempt.acquired_check (Attempt.acquired_ask ..)
    (Attempt.acquired_check (Attempt.acquired_ask ..)
      (Attempt.acquired_check (Attempt.acquired_ask ..) (List.Sublist.refl [])))

theorem acquired_createCpu (numCores i : Nat) :
    (acquired (createCpu granted numCores i).steps).Sublist (cpuPlan numCores i) := by
  refine Attempt.acquired_check (Attempt.acquired_ask ..) (Attempt.acquired_loop (fun j => ?_) _)
  rw [← List.append_nil (corePlan i j)]
  exact Attempt.acquired_check (acquired_createCore granted i j) (List.Sublist.refl [])

theorem acquired_createMachine (numCpus numCores : Nat) :
    (acquired (createMachine granted numCpus numCores).steps).Sublist
      (machinePlan numCpus numCores) :=
  Attempt.acquired_check (Attempt.acquired_ask ..)
    (Attempt.acquired_check (Attempt.acquired_ask ..)
      (Attempt.acquired_loop (acquired_createCpu granted numCores) numCpus))

theorem acquired_createPhysicalMemory :
    (acquired (createPhysicalMemory granted).steps).Sublist memoryPlan :=
  Attempt.acquired_check (Attempt.acquired_ask ..)
    (Attempt.acquired_check (Attempt.acquired_ask ..)
      (Attempt.acquired_check (Attempt.acquired_ask ..) (List.Sublist.refl [])))

theorem acquired_createScheduler (policy : Policy) :
    (acquired (createScheduler granted policy).steps).Sublist schedulerPlan := by
  refine Attempt.acquired_check (Attempt.acquired_ask ..) ?_
  split
  · refine Attempt.acquired_check (Attempt.acquired_ask ..)
      (Attempt.acquired_loop (fun l => ?_) _)
    rw [← List.append_nil (queuePlan _)]
    exact Attempt.acquired_check (acquired_createProcessQueue granted _) (List.Sublist.refl [])
  · exact List.nil_sublist _

theorem acquired_createTimers (numCpus numCores : Nat) (policy : Policy) (n : Nat) :
    (acquired (createTimers granted numCpus numCores policy n).steps).Sublist (timersPlan n) := by
  unfold createTimers
  split
  · refine Attempt.acquired_check (Attempt.acquired_ask ..)
      (Attempt.acquired_loop (fun i => ?_) _)
    rw [← List.append_nil (timerPlan i)]
    refine Attempt.acquired_check ?_ (List.Sublist.refl [])
    exact Attempt.acquired_check (Attempt.acquired_ask ..)
      (Attempt.acquired_check (Attempt.acquired_ask ..) (List.Sublist.refl []))
  · exact List.nil_sublist _

theorem segments_sublist (d : Nat) (first : FirstPass) :
    (segments d first).Sublist [.codeSegment d, .dataSegment d] := by
  unfold segments
  split
  · exact List.Sublist.refl _
  · exact (List.nil_sublist _).cons_cons _

theorem acquired_loadProgramFromElf (d : Nat) (first : FirstPass) :
    (acquired (loadProgramFromElf granted d first).steps).Sublist (entryPlan d) := by
  refine Attempt.acquired_check (Attempt.acquired_ask ..)
    (Attempt.acquired_check (Attempt.acquired_ask ..) ?_)
  split
  · refine Attempt.acquired_check (Attempt.acquired_ask ..) ?_
    show (acquired (_ ++ _)).Sublist _
    rw [acquired_append, acquired_acquires]
    have hrest : ∀ steps : List (Step Resource Mark),
        (∃ rs : List Resource, steps = rs.map .release) →
        ((segments d first).filter granted ++ acquired steps).Sublist
          [.codeSegment d, .dataSegment d] := by
      rintro _ ⟨rs, rfl⟩
      rw [acquired_releases, List.append_nil]
      exact List.filter_sublist.trans (segments_sublist d first)
    apply hrest
    split
    · exact ⟨[.fullProgram d], rfl⟩
    · exact ⟨_, rfl⟩
  · exact List.nil_sublist _

theorem acquired_loadEntry (entry : DirEntry) (d : Nat) :
    (acquired (loadEntry granted entry d)).Sublist (entryPlan d) := by
  unfold loadEntry
  split
  · dsimp only
    rw [acquired_append]
    split
    · rw [acquired_releases, List.append_nil]
      exact acquired_loadProgramFromElf granted d _
    · rw [show acquired ([] : List (Step Resource Mark)) = [] from rfl, List.append_nil]
      exact acquired_loadProgramFromElf granted d _
  · exact List.nil_sublist _

/-- What the loop over `n` entries asks for. -/
def dirPlan (n : Nat) : List Resource := .dir :: (List.range n).flatMap entryPlan

theorem acquired_loadEntries (entries : List (DirEntry × Nat)) :
    (acquired (entries.flatMap fun e => loadEntry granted e.1 e.2)).Sublist
      ((entries.map Prod.snd).flatMap entryPlan) := by
  induction entries with
  | nil => exact List.nil_sublist _
  | cons e entries ih =>
      rw [List.flatMap_cons, acquired_append]
      exact (acquired_loadEntry granted e.1 e.2).append ih

theorem acquired_loadDirectory (dir : List DirEntry) :
    (acquired (loadDirectory granted dir)).Sublist (dirPlan dir.length) := by
  unfold loadDirectory
  split
  · have hentries := acquired_loadEntries granted dir.zipIdx
    rw [List.zipIdx_map_snd, ← List.range_eq_range'] at hentries
    show (Resource.dir :: acquired (_ ++ [.release .dir])).Sublist _
    rw [acquired_append]
    have hclose : acquired [(.release .dir : Step Resource Mark)] = [] := rfl
    rw [hclose, List.append_nil]
    exact hentries.cons_cons _
  · exact List.nil_sublist _

/-- What `main` asks for up to its loader. -/
def startupPlan (options : Options) : List Resource :=
  .clockThread :: (queuePlan .ready ++
    (machinePlan options.numCpus.toNat options.numCores.toNat ++ (memoryPlan ++ (schedulerPlan ++
      (timersPlan options.timers.length ++ [.loader])))))

theorem acquired_startup (options : Options) :
    (acquired (startup granted options).steps).Sublist (startupPlan options) := by
  refine Attempt.acquired_check (Attempt.acquired_ask ..) ?_
  refine Attempt.acquired_check (acquired_createProcessQueue ..) ?_
  refine Attempt.acquired_check (acquired_createMachine ..) ?_
  refine Attempt.acquired_check_nil rfl ?_
  refine Attempt.acquired_check (acquired_createPhysicalMemory ..) ?_
  refine Attempt.acquired_check_nil rfl ?_
  refine Attempt.acquired_check (acquired_createScheduler ..) ?_
  refine Attempt.acquired_check (acquired_createTimers ..) ?_
  exact Attempt.acquired_check (Attempt.acquired_ask ..) (List.Sublist.refl [])

/-- What `main` asks for. -/
def mainPlan (options : Options) (dir : List DirEntry) : List Resource :=
  startupPlan options ++ (dirPlan dir.length ++ [.schedulerThread])

theorem acquired_main (options : Options) (dir : List DirEntry) :
    (acquired (main granted options dir).steps).Sublist (mainPlan options dir) := by
  refine Attempt.acquired_check (acquired_startup granted options) ?_
  have hthread : (acquired (startScheduler granted)).Sublist [.schedulerThread] := by
    unfold startScheduler
    split
    · exact List.Sublist.refl _
    · exact List.nil_sublist _
  have hend : acquired (.note Mark.pause :: (shutdown options).map .release) = [] :=
    acquired_releases (shutdown options)
  rw [Attempt.does]
  dsimp only
  rw [acquired_append, acquired_append, hend, List.append_nil]
  exact (acquired_loadDirectory granted dir).append hthread

end

/-! ### No resource twice -/

/-- In which iteration of a loop. -/
def number : Resource → Nat
  | .cores i | .core i _ | .corePcbs i _ | .hwThreads i _ => i
  | .queue (.level l) | .queueArray (.level l) => l
  | .timer i | .timerThread i => i
  | .file d | .program d | .fullProgram d | .codeSegment d | .dataSegment d => d
  | _ => 0

/-- In which iteration of an inner loop. -/
def coreNumber : Resource → Nat
  | .core _ j | .corePcbs _ j | .hwThreads _ j => j
  | _ => 0

theorem nodup_loop {f : Nat → List Resource} (number : Resource → Nat) (hnd : ∀ i, (f i).Nodup)
    (h : ∀ i, ∀ r ∈ f i, number r = i) (n : Nat) : ((List.range n).flatMap f).Nodup := by
  refine List.nodup_flatMap.mpr ⟨fun i _ => hnd i, ?_⟩
  refine List.nodup_range.imp fun {i j} hne r hi hj => hne ?_
  exact (h i r hi).symm.trans (h j r hj)

/-- Resources that are asked for at stage `k` or later, each once. -/
structure AskedFrom (k : Nat) (rs : List Resource) : Prop where
  nodup : rs.Nodup
  stage : ∀ r ∈ rs, k ≤ stage r

theorem AskedFrom.append {k : Nat} {rs later : List Resource} (hnd : rs.Nodup)
    (hstage : ∀ r ∈ rs, Resources.stage r = k) (h : AskedFrom (k + 1) later) :
    AskedFrom k (rs ++ later) where
  nodup := by
    refine List.nodup_append.mpr ⟨hnd, h.nodup, ?_⟩
    rintro r hr _ hr' rfl
    have hlater := h.stage r hr'
    rw [hstage r hr] at hlater
    exact absurd hlater (Nat.not_succ_le_self k)
  stage := by
    intro r hr
    rcases List.mem_append.mp hr with hr | hr
    · exact (hstage r hr).ge
    · exact Nat.le_of_succ_le (h.stage r hr)

theorem nodup_cpuPlan (numCores i : Nat) : (cpuPlan numCores i).Nodup := by
  refine List.nodup_cons.mpr ⟨by simp [corePlan], ?_⟩
  refine nodup_loop coreNumber (fun j => by simp [corePlan]) (fun j r hr => ?_) numCores
  simp only [corePlan, List.mem_cons, List.not_mem_nil, or_false] at hr
  rcases hr with rfl | rfl | rfl <;> rfl

theorem number_cpuPlan (numCores i : Nat) : ∀ r ∈ cpuPlan numCores i, number r = i := by
  intro r hr
  simp only [cpuPlan, corePlan, List.mem_cons, List.mem_flatMap, List.not_mem_nil, or_false] at hr
  rcases hr with rfl | ⟨j, _, rfl | rfl | rfl⟩ <;> rfl

theorem nodup_machinePlan (numCpus numCores : Nat) : (machinePlan numCpus numCores).Nodup := by
  have hcpus := nodup_loop number (nodup_cpuPlan numCores) (number_cpuPlan numCores) numCpus
  simp [machinePlan, hcpus, cpuPlan, corePlan]

theorem nodup_schedulerPlan : schedulerPlan.Nodup := by
  have hlevels := nodup_loop number (f := fun l => queuePlan (.level l))
    (fun l => by simp [queuePlan])
    (fun l r hr => by
      simp only [queuePlan, List.mem_cons, List.not_mem_nil, or_false] at hr
      rcases hr with rfl | rfl <;> rfl) numPriorityLevels
  refine List.nodup_cons.mpr ⟨by simp [queuePlan], List.nodup_cons.mpr ⟨?_, hlevels⟩⟩
  simp [queuePlan]

theorem nodup_timersPlan (n : Nat) : (timersPlan n).Nodup := by
  have htimers := nodup_loop (f := timerPlan) number (fun i => by simp [timerPlan])
    (fun i r hr => by
      simp only [timerPlan, List.mem_cons, List.not_mem_nil, or_false] at hr
      rcases hr with rfl | rfl <;> rfl) n
  simp [timersPlan, htimers, timerPlan]

theorem nodup_dirPlan (n : Nat) : (dirPlan n).Nodup := by
  have hentries := nodup_loop (f := entryPlan) number (fun d => by simp [entryPlan])
    (fun d r hr => by
      simp only [entryPlan, List.mem_cons, List.not_mem_nil, or_false] at hr
      rcases hr with rfl | rfl | rfl | rfl | rfl <;> rfl) n
  simp [dirPlan, hentries, entryPlan]

theorem stage_machinePlan (numCpus numCores : Nat) :
    ∀ r ∈ machinePlan numCpus numCores, stage r = 2 := by
  intro r hr
  simp only [machinePlan, cpuPlan, corePlan, List.mem_cons, List.mem_flatMap, List.not_mem_nil,
    or_false] at hr
  rcases hr with rfl | rfl | ⟨i, _, rfl | ⟨j, _, rfl | rfl | rfl⟩⟩ <;> rfl

theorem stage_schedulerPlan : ∀ r ∈ schedulerPlan, stage r = 4 := by
  intro r hr
  simp only [schedulerPlan, queuePlan, List.mem_cons, List.mem_flatMap, List.not_mem_nil,
    or_false] at hr
  rcases hr with rfl | rfl | ⟨l, _, rfl | rfl⟩ <;> rfl

theorem stage_timersPlan (n : Nat) : ∀ r ∈ timersPlan n, stage r = 5 := by
  intro r hr
  simp only [timersPlan, timerPlan, List.mem_cons, List.mem_flatMap, List.not_mem_nil,
    or_false] at hr
  rcases hr with rfl | ⟨i, _, rfl | rfl⟩ <;> rfl

theorem stage_dirPlan (n : Nat) : ∀ r ∈ dirPlan n, stage r = 7 := by
  intro r hr
  simp only [dirPlan, entryPlan, List.mem_cons, List.mem_flatMap, List.not_mem_nil,
    or_false] at hr
  rcases hr with rfl | ⟨d, _, rfl | rfl | rfl | rfl | rfl⟩ <;> rfl

theorem nodup_mainPlan (options : Options) (dir : List DirEntry) :
    (mainPlan options dir).Nodup := by
  have hthread : AskedFrom 8 [.schedulerThread] := ⟨List.nodup_singleton _, by simp [stage]⟩
  have hdir := AskedFrom.append (nodup_dirPlan dir.length) (stage_dirPlan _) hthread
  have hloader := AskedFrom.append (List.nodup_singleton .loader) (by simp [stage]) hdir
  have htimers := hloader.append (nodup_timersPlan options.timers.length) (stage_timersPlan _)
  have hscheduler := htimers.append nodup_schedulerPlan stage_schedulerPlan
  have hmemory := hscheduler.append (show memoryPlan.Nodup by decide) (by decide)
  have hmachine := hmemory.append (nodup_machinePlan options.numCpus.toNat options.numCores.toNat)
    (stage_machinePlan _ _)
  have hqueue := hmachine.append (show (queuePlan .ready).Nodup by decide) (by decide)
  have hclock := hqueue.append (List.nodup_singleton .clockThread) (by decide)
  have hplan := hclock.nodup
  simpa [mainPlan, startupPlan] using hplan

/-! ## The account of `main` -/

/-- Whatever `main` is refused, and PCBs apart: it asks for nothing twice and
releases nothing twice, and it releases only what it holds, except that it joins
a scheduler's thread that does not exist. When it returns it holds the
`hw_threads` of its machine and, where the scheduler or a timer was refused,
physical memory. -/
theorem main_releases (granted : Resource → Bool) (options : Options) (dir : List DirEntry) :
    (acquired (main granted options dir).steps).Nodup ∧
      held 0 (main granted options dir).steps =
        (if JoinsNothing granted options dir then none
        else some ((main granted options dir).refused.elim (leakedInTheEnd options)
          (leakedBy options))) ∧
      (¬ JoinsNothing granted options dir → (released (main granted options dir).steps).Nodup) := by
  have hnd := (nodup_mainPlan options dir).sublist (acquired_main granted options dir)
  have hheld := held_main granted options dir
  refine ⟨hnd, hheld, fun hjoins => ?_⟩
  rw [if_neg hjoins] at hheld
  exact nodup_released hheld hnd

/-- Refused the cores of its second CPU, `main` leaks what the cores of the
first had. -/
example : held 0 (main (fun r => r ≠ .cores 1)
    { Options.default with numCpus := 2 } []).steps =
      some {.hwThreads 0 0, .hwThreads 0 1} := by
  decide

end Resources
end LocOS
