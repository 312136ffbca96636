import LocOS.Lib.Custody
import LocOS.Options

/-!
# Resources

What `main` and its constructors and destructors acquire and release: the
blocks of `malloc` and `calloc`, the threads and the open files, each named by
the variable it is acquired for. Any of them may be refused, which is what
`granted` tells. PCBs are apart: `create_pcb` in the loop over the programs is
taken to succeed, and the processes that still execute when `main` returns are
not counted here.
-/

namespace LocOS

open Custody

/-- `ready_queue`, or a level of `priority_queues`. -/
inductive QueueName where
  | ready
  | level (l : Nat)
  deriving DecidableEq, Repr

/-- What can be held, the PCBs apart. Numbers are those of a CPU and a core, of
a timer, or of an entry of the programs directory. -/
inductive Resource where
  | clockThread
  | queue (q : QueueName)
  | queueArray (q : QueueName)
  | machine
  | cpus
  | cores (i : Nat)
  /-- The wrapper `create_core` returns. -/
  | core (i j : Nat)
  | corePcbs (i j : Nat)
  | hwThreads (i j : Nat)
  | physicalMemory
  | memory
  | frameBitmap
  | scheduler
  | priorityQueues
  | schedulerThread
  | timers
  | timer (i : Nat)
  | timerThread (i : Nat)
  | loader
  | dir
  | file (d : Nat)
  | program (d : Nat)
  | fullProgram (d : Nat)
  | codeSegment (d : Nat)
  | dataSegment (d : Nat)
  deriving DecidableEq, Repr

/-- What `main` does to other threads. -/
inductive Mark where
  | setClockMachine
  | setClockPhysicalMemory
  /-- The loop around `pause`, until a signal ends it. -/
  | pause
  deriving DecidableEq, Repr

namespace Resources

/-- A function that acquires resources and may be refused one. -/
abbrev Try := Attempt Resource Mark

/-! ## Destructors

What they release, in their order. -/

/-- `destroy_process_queue`. -/
def destroyProcessQueue (q : QueueName) : List Resource := [.queueArray q, .queue q]

/-- `destroy_core`; the core itself lies in the array of its CPU. -/
def destroyCore (i j : Nat) : List Resource := [.corePcbs i j, .hwThreads i j]

/-- The loop over a CPU that releases its cores' PCB arrays only. -/
def freeCpu (numCores i : Nat) : List Resource :=
  (List.range numCores).map (.corePcbs i) ++ [.cores i]

/-- It does not call `destroy_core`, and so leaves `hw_threads`. -/
def destroyMachine (numCpus numCores : Nat) : List Resource :=
  (List.range numCpus).flatMap (freeCpu numCores) ++ [.cpus, .machine]

/-- `destroy_physical_memory`. -/
def destroyPhysicalMemory : List Resource := [.memory, .frameBitmap, .physicalMemory]

/-- The scheduler is stopped, if it ever ran. -/
def destroyScheduler (policy : Policy) : List Resource :=
  (if policy = .preemptivePrio then
    (List.range numPriorityLevels).flatMap (fun l => destroyProcessQueue (.level l)) ++
      [.priorityQueues]
  else []) ++ [.scheduler]

/-- The thread is joined. -/
def destroyTimer (i : Nat) : List Resource := [.timerThread i, .timer i]

/-- `destroy_loader`. -/
def destroyLoader : List Resource := [.loader]

/-- There is no data segment without data. -/
def segments (d : Nat) (first : FirstPass) : List Resource :=
  .codeSegment d :: if first.dataSize > 0 then [.dataSegment d] else []

/-- `destroy_program`. -/
def destroyProgram (d : Nat) (first : FirstPass) : List Resource := segments d first ++ [.program d]

/-! ## Constructors -/

section
variable (granted : Resource → Bool)

/-- `create_process_queue`. -/
def createProcessQueue (q : QueueName) : Try :=
  (Attempt.ask granted (.queue q)).check [] <|
  (Attempt.ask granted (.queueArray q)).check [.queue q] <|
  .does []

/-- `create_core` releases what it has when it is refused the next. -/
def createCore (i j : Nat) : Try :=
  (Attempt.ask granted (.core i j)).check [] <|
  (Attempt.ask granted (.corePcbs i j)).check [.core i j] <|
  (Attempt.ask granted (.hwThreads i j)).check [.corePcbs i j, .core i j] <|
  .does []

/-- An iteration of the loop over CPUs. The first cleanup of two is the one of
`destroyMachine`, the second calls `destroy_core`. -/
def createCpu (numCores i : Nat) : Try :=
  (Attempt.ask granted (.cores i)).check
    ((List.range i).flatMap (freeCpu numCores) ++ [.cpus, .machine]) <|
  Attempt.loop (fun j =>
    (createCore granted i j).check
      ((List.range j).flatMap (destroyCore i) ++ [.cores i] ++
        (List.range i).flatMap (fun k =>
          (List.range numCores).flatMap (destroyCore k) ++ [.cores k]) ++
        [.cpus, .machine]) <|
    -- its contents are copied into the array
    .does [.release (.core i j)]) numCores

/-- `create_machine`. -/
def createMachine (numCpus numCores : Nat) : Try :=
  (Attempt.ask granted .machine).check [] <|
  (Attempt.ask granted .cpus).check [.machine] <|
  Attempt.loop (createCpu granted numCores) numCpus

/-- `create_physical_memory`. -/
def createPhysicalMemory : Try :=
  (Attempt.ask granted .physicalMemory).check [] <|
  (Attempt.ask granted .memory).check [.physicalMemory] <|
  (Attempt.ask granted .frameBitmap).check [.memory, .physicalMemory] <|
  .does []

/-- `create_scheduler_with_policy`, with the levels it creates. -/
def createScheduler (policy : Policy) : Try :=
  (Attempt.ask granted .scheduler).check [] <|
  if policy = .preemptivePrio then
    (Attempt.ask granted .priorityQueues).check [.scheduler] <|
    Attempt.loop (fun l =>
      (createProcessQueue granted (.level l)).check
        ((List.range l).flatMap (fun k => destroyProcessQueue (.level k)) ++
          [.priorityQueues, .scheduler]) <|
      .does []) numPriorityLevels
  else .does []

/-- `create_timer`, with its thread. -/
def createTimer (i : Nat) : Try :=
  (Attempt.ask granted (.timer i)).check [] <|
  (Attempt.ask granted (.timerThread i)).check [.timer i] <|
  .does []

/-- `create_loader`. -/
def createLoader : Try := Attempt.ask granted .loader

/-- Both segments are asked for before either is tested, and `free(NULL)` does
nothing. Without `.text` there is no program either, and `refused` says so. -/
def loadProgramFromElf (d : Nat) (first : FirstPass) : Try :=
  (Attempt.ask granted (.file d)).check [] <|
  (Attempt.ask granted (.program d)).check [.file d] <|
  if first.foundText then
    (Attempt.ask granted (.fullProgram d)).check [.program d, .file d] <|
    let got := (segments d first).filter granted
    ⟨.release (.file d) :: (got.map .acquire ++
      if got = segments d first then [.release (.fullProgram d)]
      else (.fullProgram d :: (got ++ [.program d])).map .release),
      if got = segments d first then none else some (.program d)⟩
  else ⟨[.release (.program d), .release (.file d)], some (.program d)⟩

/-- A program is released as soon as its process is made. -/
def loadEntry (entry : DirEntry) (d : Nat) : List (Step Resource Mark) :=
  if entry.isElf then
    let first := (Text.lines lineCapacity (entry.contents.getD [])).foldl firstPassLine .start
    let attempt := loadProgramFromElf granted d first
    attempt.steps ++
      if attempt.refused = none then (destroyProgram d first).map .release else []
  else []

/-- The loop of `main` over the programs directory, if it can be opened. -/
def loadDirectory (dir : List DirEntry) : List (Step Resource Mark) :=
  if granted .dir then
    .acquire .dir :: (dir.zipIdx.flatMap (fun e => loadEntry granted e.1 e.2) ++ [.release .dir])
  else []

/-! ## Main -/

/-- The loop of `main` that creates the timers, with the array they are kept
in. -/
def createTimers (numCpus numCores : Nat) (policy : Policy) (timersToCreate : Nat) : Try :=
  if timersToCreate > 0 then
    (Attempt.ask granted .timers).check
      (destroyScheduler policy ++ destroyMachine numCpus numCores ++
        destroyProcessQueue .ready ++ [.clockThread]) <|
    Attempt.loop (fun i =>
      (createTimer granted i).check
        ((List.range i).flatMap destroyTimer ++ [.timers] ++ destroyScheduler policy ++
          destroyMachine numCpus numCores ++ destroyProcessQueue .ready ++ [.clockThread]) <|
      .does []) timersToCreate
  else .does []

/-- The array is null without timers. -/
def freeTimers (timersToCreate : Nat) : List Resource :=
  if timersToCreate > 0 then [.timers] else []

/-- A thread that could not be created is not missed. -/
def startScheduler : List (Step Resource Mark) :=
  if granted .schedulerThread then [.acquire .schedulerThread] else []

/-- `stop_scheduler` joins the scheduler's thread whether there is one or
not. -/
def cleanupSystem (numCpus numCores : Nat) (policy : Policy) (timersToCreate : Nat) :
    List Resource :=
  [.schedulerThread] ++ destroyScheduler policy ++ [.clockThread] ++
    (List.range timersToCreate).flatMap destroyTimer ++ destroyProcessQueue .ready ++
    destroyMachine numCpus numCores ++ destroyLoader ++ destroyPhysicalMemory

/-- `main` from the options up to the programs. Physical memory is not given up
when the scheduler or a timer is refused. -/
def startup (options : Options) : Try :=
  let numCpus := options.numCpus.toNat
  let numCores := options.numCores.toNat
  let timersToCreate := options.timers.length
  (Attempt.ask granted .clockThread).check [] <|
  (createProcessQueue granted .ready).check [.clockThread] <|
  (createMachine granted numCpus numCores).check (destroyProcessQueue .ready ++ [.clockThread]) <|
  (Attempt.does [.note .setClockMachine]).check [] <|
  (createPhysicalMemory granted).check
    (destroyMachine numCpus numCores ++ destroyProcessQueue .ready ++ [.clockThread]) <|
  (Attempt.does [.note .setClockPhysicalMemory]).check [] <|
  (createScheduler granted options.policy).check
    (destroyMachine numCpus numCores ++ destroyProcessQueue .ready ++ [.clockThread]) <|
  (createTimers granted numCpus numCores options.policy timersToCreate).check [] <|
  (createLoader granted).check
    (destroyScheduler options.policy ++ destroyPhysicalMemory ++
      destroyMachine numCpus numCores ++ destroyProcessQueue .ready ++
      (List.range timersToCreate).flatMap destroyTimer ++ freeTimers timersToCreate ++
      [.clockThread]) <|
  .does []

/-- What `cleanup_system` releases, and `main` behind it. -/
def shutdown (options : Options) : List Resource :=
  cleanupSystem options.numCpus.toNat options.numCores.toNat options.policy
      options.timers.length ++
    freeTimers options.timers.length

/-- `main`: startup, the programs, the scheduler, and the release of everything
behind `pause`. -/
def main (options : Options) (dir : List DirEntry) : Try :=
  (startup granted options).check [] <|
  .does (loadDirectory granted dir ++ startScheduler granted ++
    .note .pause :: (shutdown options).map .release)

end
end Resources
end LocOS
