import LocOS.Population

/-!
# Generator

`process_generator_function` beside the clock and the scheduler
(`sys/process.c`, first half). An iteration runs under `clk_mutex`; what
`malloc` and `rand` answer are its inputs. `main` keeps the generator
disabled.
-/

namespace LocOS

/-! ## The generator -/

/-- `machine` and `scheduler` say whether the pointer is given; `false` is the
null pointer, for which the generator counts nothing. -/
structure ProcessGenerator where
  minInterval : Int
  maxInterval : Int
  minTtl : Int
  maxTtl : Int
  machine : Bool
  scheduler : Bool
  maxProcesses : Int
  nextPid : Int
  totalGenerated : Int

/-- `none` is the null pointer: the parameters are refused. -/
def createProcessGenerator (minInterval maxInterval minTtl maxTtl : Int)
    (readyQueue machine scheduler : Bool) (maxProcesses startPid : Int) :
    Option ProcessGenerator :=
  if readyQueue = false ∨ minInterval < 1 ∨ maxInterval < minInterval ∨
      minTtl < 1 ∨ maxTtl < minTtl ∨ maxProcesses < 1 then none
  else
    some {
      minInterval, maxInterval, minTtl, maxTtl, machine, scheduler, maxProcesses
      nextPid := startPid
      totalGenerated := 0 }

/-- What the thread prints. The priority is shown where the policy uses it. -/
inductive GeneratorEvent where
  | limitReached (totalProcesses maxProcesses : Int)
  | allocationFailed (pid : Int)
  | queueFull
  | resumed
  | created (p : PcbPtr) (pid ttl : Int) (priority : Option Int)
      (createdTotal inSystem maxProcesses : Int)
  deriving DecidableEq, Repr

/-- The system with a running generator. Nobody else refers to the pending
PCB, so it is held by value; it gets its place in the heap when it is
enqueued. -/
structure Generating where
  sys : Sys
  pg : ProcessGenerator
  nextGenerationTick : Int
  waitingForSpace : Bool
  pendingPcb : Option PCB
  log : List GeneratorEvent

/-- The answers of `malloc` and of the three calls of `rand`. -/
structure GeneratorDraws where
  allocated : Bool
  ttl : Nat
  priority : Nat
  interval : Nat

/-- `lo`, plus `rand() % (hi - lo + 1)` if there is a choice. -/
def drawBetween (lo hi : Int) (draw : Nat) : Int :=
  if lo < hi then lo + draw % (hi - lo + 1) else lo

/-- The process the generator makes up. -/
def ProcessGenerator.newPcb (pg : ProcessGenerator) (draws : GeneratorDraws) : PCB :=
  { (createPcb pg.nextPid).setTtl (drawBetween pg.minTtl pg.maxTtl draws.ttl) with
    priority := minPriority + (draws.priority % numPriorityLevels : Nat) }

namespace Generating

/-- The processes the generator counts. -/
def totalProcesses (g : Generating) : Int :=
  g.sys.sched.readyQueue.currentSize +
    (if g.pg.machine then countExecutingProcesses g.sys.machine else 0) +
    (if g.pg.scheduler then countProcessesInPriorityQueues g.sys.sched else 0 : Nat)

/-- The first failed attempt is announced. -/
def waitForSpace (g : Generating) (message : GeneratorEvent) : Generating :=
  if g.waitingForSpace then g
  else { g with waitingForSpace := true, log := g.log ++ [message] }

/-- A new process, unless one is pending. When its PCB cannot be allocated,
`next_pid` goes up and down again. -/
def prepare (g : Generating) (draws : GeneratorDraws) : Generating :=
  match g.pendingPcb with
  | some _ => g
  | none =>
      if draws.allocated then
        { g with
          pg := { g.pg with nextPid := g.pg.nextPid + 1 }
          pendingPcb := some (g.pg.newPcb draws) }
      else { g with log := g.log ++ [.allocationFailed g.pg.nextPid] }

/-- The attempt to enqueue the pending process. -/
def offer (g : Generating) (totalProcesses : Int) (draws : GeneratorDraws) : Generating :=
  match g.pendingPcb with
  | none => g
  | some pcb =>
      let (p, pcbs) := g.sys.pcbs.alloc pcb
      match g.sys.sched.readyQueue.enqueueProcess p with
      | some readyQueue =>
          let totalGenerated := g.pg.totalGenerated + 1
          let shown :=
            if g.pg.scheduler ∧ g.sys.sched.policy ≠ .roundRobin then some pcb.priority else none
          { g with
            sys := { g.sys with sched := { g.sys.sched with readyQueue }, pcbs }
            pg := { g.pg with totalGenerated }
            nextGenerationTick := g.sys.clkCounter +
              drawBetween g.pg.minInterval g.pg.maxInterval draws.interval
            waitingForSpace := false
            pendingPcb := none
            log := g.log ++ (if g.waitingForSpace then [.resumed] else []) ++
              [.created p pcb.pid pcb.ttl shown totalGenerated (totalProcesses + 1)
                g.pg.maxProcesses] }
      | none => g.waitForSpace .queueFull

/-- One iteration of the generator's loop, from lock to unlock. Before
`next_generation_tick` it goes on waiting for the clock. -/
def iterate (g : Generating) (draws : GeneratorDraws) : Generating :=
  if g.sys.clkCounter < g.nextGenerationTick then g
  else if g.pg.maxProcesses ≤ g.totalProcesses then
    g.waitForSpace (.limitReached g.totalProcesses g.pg.maxProcesses)
  else (g.prepare draws).offer g.totalProcesses draws

end Generating

/-! ## Runs -/

/-- A critical section of the system or of the generator. -/
inductive GeneratorAction where
  | sys (a : Action)
  | iterate (draws : GeneratorDraws)

/-- One critical section. -/
def Generating.next (g : Generating) : GeneratorAction → Generating
  | .sys a => { g with sys := g.sys.next a }
  | .iterate draws => g.iterate draws

/-- The generator starts in any system that has no more processes than it may
create. -/
structure Generating.Starts (pg : ProcessGenerator) (g : Generating) : Prop where
  given : g.pg = pg
  nextGenerationTick : g.nextGenerationTick = 0
  waitingForSpace : g.waitingForSpace = false
  pendingPcb : g.pendingPcb = none
  log : g.log = []
  room : g.sys.population ≤ pg.maxProcesses

/-- The runs of a system with a generator in it. -/
def generatorRuns (pg : ProcessGenerator) : Runs Generating GeneratorAction where
  init g := g.Starts pg
  step g a t := t = g.next a

/-! ## The bound -/

namespace ProcessGenerator

/-- The same generator, its counters apart. -/
def SameLimits (pg pg' : ProcessGenerator) : Prop :=
  ∃ nextPid totalGenerated, pg' = { pg with nextPid, totalGenerated }

theorem SameLimits.refl (pg : ProcessGenerator) : pg.SameLimits pg := ⟨_, _, rfl⟩

theorem SameLimits.trans {pg pg' pg'' : ProcessGenerator} (h : pg.SameLimits pg')
    (h' : pg'.SameLimits pg'') : pg.SameLimits pg'' := by
  obtain ⟨_, _, rfl⟩ := h
  obtain ⟨nextPid, totalGenerated, rfl⟩ := h'
  exact ⟨nextPid, totalGenerated, rfl⟩

end ProcessGenerator

namespace Generating

variable {g : Generating}

@[simp] theorem waitForSpace_sys (g : Generating) (message : GeneratorEvent) :
    (g.waitForSpace message).sys = g.sys := by
  unfold waitForSpace
  split <;> rfl

@[simp] theorem waitForSpace_pg (g : Generating) (message : GeneratorEvent) :
    (g.waitForSpace message).pg = g.pg := by
  unfold waitForSpace
  split <;> rfl

@[simp] theorem waitForSpace_pendingPcb (g : Generating) (message : GeneratorEvent) :
    (g.waitForSpace message).pendingPcb = g.pendingPcb := by
  unfold waitForSpace
  split <;> rfl

@[simp] theorem prepare_sys (g : Generating) (draws : GeneratorDraws) :
    (g.prepare draws).sys = g.sys := by
  unfold prepare
  split
  · rfl
  · split <;> rfl

theorem prepare_sameLimits (g : Generating) (draws : GeneratorDraws) :
    g.pg.SameLimits (g.prepare draws).pg := by
  unfold prepare
  split
  · exact .refl _
  · split
    · exact ⟨_, _, rfl⟩
    · exact .refl _

theorem offer_sameLimits (g : Generating) (total : Int) (draws : GeneratorDraws) :
    g.pg.SameLimits (g.offer total draws).pg := by
  unfold offer
  split
  · exact .refl _
  · dsimp only
    split
    · exact ⟨_, _, rfl⟩
    · rw [waitForSpace_pg]
      exact .refl _

theorem next_sameLimits (g : Generating) (a : GeneratorAction) :
    g.pg.SameLimits (g.next a).pg := by
  cases a with
  | sys a => exact .refl _
  | iterate draws =>
      show g.pg.SameLimits (g.iterate draws).pg
      unfold iterate
      split
      · exact .refl _
      · split
        · rw [waitForSpace_pg]
          exact .refl _
        · exact (g.prepare_sameLimits draws).trans (offer_sameLimits ..)

/-- With both pointers given the generator counts the whole population. -/
theorem totalProcesses_eq (hmachine : g.pg.machine = true) (hscheduler : g.pg.scheduler = true) :
    g.totalProcesses = g.sys.population := by
  unfold totalProcesses Sys.population
  rw [if_pos hmachine, if_pos hscheduler]

/-- An enqueued process is one more in the system. -/
theorem offer_population (g : Generating) (total : Int) (draws : GeneratorDraws) :
    (g.offer total draws).sys.population ≤ g.sys.population + 1 := by
  unfold offer
  split
  · omega
  · rename_i pcb _
    dsimp only
    split
    · rename_i rq henq
      have hsize := (ProcessQueue.enqueueProcess_sizes henq).2
      unfold Sys.population countProcessesInPriorityQueues
      dsimp only
      omega
    · rw [waitForSpace_sys]
      omega

theorem next_population (hmachine : g.pg.machine = true) (hscheduler : g.pg.scheduler = true)
    (h : g.sys.population ≤ g.pg.maxProcesses) (a : GeneratorAction) :
    (g.next a).sys.population ≤ g.pg.maxProcesses := by
  cases a with
  | sys a => exact le_trans (g.sys.next_population a) h
  | iterate draws =>
      show (g.iterate draws).sys.population ≤ _
      unfold iterate
      split
      · exact h
      · split
        · rwa [waitForSpace_sys]
        · rename_i hroom
          rw [totalProcesses_eq hmachine hscheduler] at hroom
          have hone := (g.prepare draws).offer_population g.totalProcesses draws
          rw [prepare_sys] at hone
          omega

end Generating

/-! ## The accounts -/

/-- The processes enqueued so far, each with the PID it had. -/
def created (log : List GeneratorEvent) : List (PcbPtr × Int) :=
  log.filterMap fun
    | .created p pid _ _ _ _ _ => some (p, pid)
    | _ => none

@[simp] theorem created_append (l l' : List GeneratorEvent) :
    created (l ++ l') = created l ++ created l' := List.filterMap_append

/-- The processes enqueued have consecutive PIDs in order, no PCB was enqueued
twice, and the counters agree with them. -/
structure Accounts (startPid : Int) (g : Generating) : Prop where
  pids : (created g.log).map Prod.snd =
    (List.range (created g.log).length).map fun n : Nat => startPid + (n : Int)
  once : ((created g.log).map Prod.fst).Nodup
  total : g.pg.totalGenerated = (created g.log).length
  next : g.pg.nextPid - startPid = g.pg.totalGenerated + if g.pendingPcb.isSome then 1 else 0

/-- With what an enqueue needs: the PID of the pending process, and that the
heap goes on behind the PCBs enqueued. -/
structure Ledger (startPid : Int) (g : Generating) : Prop extends Accounts startPid g where
  pending : ∀ pcb, g.pendingPcb = some pcb → pcb.pid = startPid + g.pg.totalGenerated
  below : ∀ p ∈ (created g.log).map Prod.fst, p < g.sys.pcbs.next

namespace Ledger

variable {startPid : Int} {g : Generating}

/-- Nothing is created, and the heap does not shrink. -/
theorem quiet (h : Ledger startPid g) {g' : Generating} (hlog : created g'.log = created g.log)
    (hpg : g'.pg = g.pg) (hpending : g'.pendingPcb = g.pendingPcb)
    (hnext : g.sys.pcbs.next ≤ g'.sys.pcbs.next) : Ledger startPid g' where
  pids := by rw [hlog]; exact h.pids
  once := by rw [hlog]; exact h.once
  total := by rw [hlog, hpg]; exact h.total
  next := by rw [hpg, hpending]; exact h.next
  pending := by rw [hpg, hpending]; exact h.pending
  below := by
    rw [hlog]
    exact fun p hp => Nat.lt_of_lt_of_le (h.below p hp) hnext

theorem waitForSpace (h : Ledger startPid g) {message : GeneratorEvent}
    (hmessage : created [message] = []) : Ledger startPid (g.waitForSpace message) := by
  refine h.quiet ?_ (g.waitForSpace_pg _) (g.waitForSpace_pendingPcb _) ?_
  · unfold Generating.waitForSpace
    split
    · rfl
    · rw [created_append, hmessage, List.append_nil]
  · rw [Generating.waitForSpace_sys]

theorem prepare (h : Ledger startPid g) (draws : GeneratorDraws) :
    Ledger startPid (g.prepare draws) := by
  unfold Generating.prepare
  cases hpending : g.pendingPcb with
  | some pcb => exact h
  | none =>
      have hnext := h.next
      rw [hpending, Option.isSome_none, if_neg Bool.false_ne_true] at hnext
      dsimp only
      split
      · exact {
          pids := h.pids
          once := h.once
          total := h.total
          next := by
            show g.pg.nextPid + 1 - startPid = g.pg.totalGenerated + 1
            omega
          pending := by
            intro pcb hpcb
            obtain rfl := Option.some.inj hpcb
            show g.pg.nextPid = startPid + g.pg.totalGenerated
            omega
          below := h.below }
      · refine h.quiet ?_ rfl hpending.symm (Nat.le_refl _)
        rw [created_append]
        exact List.append_nil _

/-- The pending process is enqueued: it has the PID that is due, and its PCB
is new. -/
theorem enqueued (h : Ledger startPid g) {g' : Generating} {pcb : PCB}
    (hpending : g.pendingPcb = some pcb)
    (hlog : created g'.log = created g.log ++ [(g.sys.pcbs.next, pcb.pid)])
    (htotal : g'.pg.totalGenerated = g.pg.totalGenerated + 1)
    (hpid : g'.pg.nextPid = g.pg.nextPid) (hnone : g'.pendingPcb = none)
    (hnext : g.sys.pcbs.next < g'.sys.pcbs.next) : Ledger startPid g' where
  pids := by
    rw [hlog, List.map_append, h.pids, List.length_append, List.length_singleton,
      List.range_succ, List.map_append]
    simp [h.pending pcb hpending, h.total]
  once := by
    rw [hlog, List.map_append]
    refine List.nodup_append.mpr ⟨h.once, List.nodup_singleton _, ?_⟩
    intro p hp q hq
    obtain rfl := List.mem_singleton.mp hq
    exact Nat.ne_of_lt (h.below p hp)
  total := by
    rw [hlog, List.length_append, htotal, h.total]
    rfl
  next := by
    have hdue := h.next
    rw [hpending, Option.isSome_some, if_pos rfl] at hdue
    rw [hnone, hpid, htotal, Option.isSome_none, if_neg Bool.false_ne_true]
    omega
  pending := by
    rw [hnone]
    intro pcb hpcb
    cases hpcb
  below := by
    intro p hp
    rw [hlog, List.map_append, List.mem_append] at hp
    rcases hp with hp | hp
    · exact Nat.lt_trans (h.below p hp) hnext
    · obtain rfl := List.mem_singleton.mp hp
      exact hnext

theorem offer (h : Ledger startPid g) (total : Int) (draws : GeneratorDraws) :
    Ledger startPid (g.offer total draws) := by
  unfold Generating.offer
  cases hpending : g.pendingPcb with
  | none => exact h
  | some pcb =>
      dsimp only
      split
      · refine h.enqueued hpending ?_ rfl rfl rfl (Nat.lt_succ_self _)
        rw [created_append, created_append]
        cases g.waitingForSpace <;> simp [created, PcbHeap.alloc]
      · exact h.waitForSpace rfl

end Ledger

/-- The heap of PCBs only grows. -/
theorem Sys.next_heap (s : Sys) (a : Action) : s.pcbs.next ≤ (s.next a).pcbs.next := by
  cases a with
  | tick =>
      refine clockTick_inv (fun t => s.pcbs.next ≤ t.pcbs.next) (Nat.le_refl _) ?_
      intro i j k t ht
      rcases tickThread_cases i j k t with
        ⟨_, he⟩ | ⟨core, hw, p, _, _, he⟩ | ⟨core, hw, p, pm, base, _, _, _, _, he⟩
      · rwa [he]
      · rwa [he]
      · rw [he]
        simp only [Sys.absorb, executeInstruction_pcbs]
        split <;> exact ht
  | pass => exact PassKeeps.heapGrows.schedulerPass (Nat.le_refl _)

theorem Ledger.step {startPid : Int} {g : Generating} (h : Ledger startPid g)
    (a : GeneratorAction) : Ledger startPid (g.next a) := by
  cases a with
  | sys a => exact h.quiet rfl rfl rfl (g.sys.next_heap a)
  | iterate draws =>
      show Ledger startPid (g.iterate draws)
      unfold Generating.iterate
      split
      · exact h
      · split
        · exact h.waitForSpace rfl
        · exact (h.prepare draws).offer _ _

theorem createProcessGenerator_spec {minInterval maxInterval minTtl maxTtl : Int}
    {readyQueue machine scheduler : Bool} {maxProcesses startPid : Int} {pg : ProcessGenerator}
    (h : createProcessGenerator minInterval maxInterval minTtl maxTtl readyQueue machine scheduler
      maxProcesses startPid = some pg) :
    pg.machine = machine ∧ pg.scheduler = scheduler ∧ pg.maxProcesses = maxProcesses ∧
      pg.nextPid = startPid ∧ pg.totalGenerated = 0 := by
  unfold createProcessGenerator at h
  split at h
  · cases h
  · obtain rfl := Option.some.inj h
    exact ⟨rfl, rfl, rfl, rfl, rfl⟩

/-- Whatever the generator, the clock and the scheduler do in turn, the
processes enqueued are accounted for, and a generator that was given the
machine and the scheduler keeps the system within its limit. -/
theorem generator_accounts {minInterval maxInterval minTtl maxTtl : Int}
    {readyQueue machine scheduler : Bool} {maxProcesses startPid : Int} {pg : ProcessGenerator}
    (hcreate : createProcessGenerator minInterval maxInterval minTtl maxTtl readyQueue machine
      scheduler maxProcesses startPid = some pg)
    {g : Generating} (h : (generatorRuns pg).Reachable g) :
    (machine = true → scheduler = true → g.sys.population ≤ maxProcesses) ∧
      Accounts startPid g := by
  obtain ⟨rfl, rfl, rfl, rfl, hzero⟩ := createProcessGenerator_spec hcreate
  constructor
  · intro hmachine hscheduler
    refine (h.invariant (fun g => pg.SameLimits g.pg ∧ g.sys.population ≤ pg.maxProcesses)
      ?_ ?_).2
    · intro g hg
      rw [hg.given]
      exact ⟨.refl _, hg.room⟩
    · rintro g a _ ⟨hsame, hle⟩ rfl
      refine ⟨hsame.trans (g.next_sameLimits a), ?_⟩
      obtain ⟨_, _, hpg⟩ := hsame
      have hnext := Generating.next_population (g := g) (by rw [hpg]; exact hmachine)
        (by rw [hpg]; exact hscheduler) (by rw [hpg]; exact hle) a
      rwa [hpg] at hnext
  · refine (h.invariant (Ledger pg.nextPid) ?_ ?_).toAccounts
    · intro g hg
      have hpg := hg.given
      exact {
        pids := by rw [hg.log]; rfl
        once := by rw [hg.log]; exact List.nodup_nil
        total := by rw [hg.log, hpg]; exact hzero
        next := by
          rw [hg.pendingPcb, hpg, hzero, Option.isSome_none, if_neg Bool.false_ne_true]
          omega
        pending := by
          intro pcb hpcb
          rw [hg.pendingPcb] at hpcb
          cases hpcb
        below := by
          rw [hg.log]
          exact fun p hp => by cases hp }
    · rintro g a _ hg rfl
      exact hg.step a

/-- A generator of at most one process beside an idle core, with or without
the pointer to the machine. -/
def onlyOne (machine : Bool) : ProcessGenerator where
  minInterval := 1
  maxInterval := 1
  minTtl := 5
  maxTtl := 5
  machine := machine
  scheduler := true
  maxProcesses := 1
  nextPid := 1
  totalGenerated := 0

theorem onlyOne_accepted (machine : Bool) :
    createProcessGenerator 1 1 5 5 true machine true 1 1 = some (onlyOne machine) := rfl

/-- An idle core under Round Robin and no process. -/
def idleSystem (machine : Bool) : Generating where
  sys := {
    clkCounter := 0
    clockPmRef := none
    machine := createMachine 1 1 1
    sched := {
      quantum := 5
      policy := .roundRobin
      syncMode := .clock
      readyQueue := createProcessQueue 3
      priorityQueues := []
      totalCompleted := 0 }
    pcbs := bootHeap []
    log := [] }
  pg := onlyOne machine
  nextGenerationTick := 0
  waitingForSpace := false
  pendingPcb := none
  log := []

/-- A process is created and dispatched, and at the next tick it is time for
another one. -/
def secondAttempt (machine : Bool) : Generating :=
  [GeneratorAction.iterate ⟨true, 0, 0, 0⟩, .sys .pass, .sys .tick,
    .iterate ⟨true, 0, 0, 0⟩].foldl Generating.next (idleSystem machine)

theorem secondAttempt_reachable (machine : Bool) :
    (generatorRuns (onlyOne machine)).Reachable (secondAttempt machine) := by
  have hstart : (generatorRuns (onlyOne machine)).Reachable (idleSystem machine) := by
    refine .init ⟨rfl, rfl, rfl, rfl, rfl, ?_⟩
    show (idleSystem true).sys.population ≤ 1
    decide
  exact hstart.foldl (fun _ _ => rfl) _

theorem generator_accounts_one : (secondAttempt true).sys.population ≤ 1 ∧
    Accounts 1 (secondAttempt true) := by
  obtain ⟨hbound, haccounts⟩ :=
    generator_accounts (onlyOne_accepted true) (secondAttempt_reachable true)
  exact ⟨hbound rfl rfl, haccounts⟩

/-- Without the machine the executing process is not counted, and the limit of
one is passed. -/
theorem generator_exceeds :
    createProcessGenerator 1 1 5 5 true false true 1 1 = some (onlyOne false) ∧
      (generatorRuns (onlyOne false)).Reachable (secondAttempt false) ∧
      (secondAttempt false).sys.population = 2 := by
  exact ⟨onlyOne_accepted false, secondAttempt_reachable false, by decide +kernel⟩

end LocOS
