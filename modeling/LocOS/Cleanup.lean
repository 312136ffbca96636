import LocOS.BoundedFifo
import LocOS.HeapSafety

/-!
# Cleanup

What `cleanup_system` (`sys/kernel.c`) does to the processes once the threads
have stopped: it reports them, and frees those that wait, with
`destroy_scheduler` (`sys/process.c`) for the priority queues. To read or to
free a PCB that is not allocated is undefined; the model has no result then.
-/

namespace LocOS

open scoped List

/-! ## The report -/

/-- `Thread%d: PID=%d (TTL=%d, State=%d, Quantum=%d)`. -/
structure ThreadLine where
  thread : Nat
  pid : Int
  ttl : Int
  state : ProcState
  quantumCounter : Int
  deriving DecidableEq, Repr

/-- `CPU%d - Core%d (%d/%d threads used)`, and its threads. -/
structure CoreLine where
  cpu : Nat
  core : Nat
  used : Int
  numKernelThreads : Nat
  threads : List ThreadLine
  deriving DecidableEq, Repr

/-- A waiting process; its priority is printed where the policy uses it. -/
structure ProcessLine where
  pid : Int
  ttl : Int
  priority : Option Int
  deriving DecidableEq, Repr

/-- `Priority %d: %d process(es)`, and its processes. -/
structure LevelLine where
  priority : Int
  size : Nat
  processes : List ProcessLine
  deriving DecidableEq, Repr

/-- `levels` is `none` for the policies without priority queues. -/
structure ShutdownReport where
  totalExecuting : Int
  cores : List CoreLine
  levels : Option (List LevelLine)
  readySize : Nat
  ready : List ProcessLine
  deriving DecidableEq, Repr

/-- The counted slots of the legacy array. -/
def Core.threadLines (core : Core) : List ThreadLine :=
  (List.range core.currentPcbCount.toNat).map fun k =>
    let pcb := core.pcbs.getD k default
    { thread := k, pid := pcb.pid, ttl := pcb.ttl, state := pcb.state
      quantumCounter := pcb.quantumCounter }

/-- The cores with a process on them. -/
def Machine.coreLines (m : Machine) : List CoreLine :=
  m.coreIndices.filterMap fun ij =>
    (m.core? ij.1 ij.2).bind fun core =>
      if 0 < core.currentPcbCount then
        some {
          cpu := ij.1, core := ij.2, used := core.currentPcbCount
          numKernelThreads := core.numKernelThreads, threads := core.threadLines }
      else none

/-- The processes a queue holds, read through its pointers. -/
def ProcessQueue.pcbs (pq : ProcessQueue) (h : PcbHeap) : Option (List PCB) := pq.walk.mapM h.cells

/-- The priority queues that are not empty. -/
def levelLines (h : PcbHeap) (pqs : List ProcessQueue) : Option (List LevelLine) :=
  (pqs.zipIdx.filter fun level => decide (0 < level.1.currentSize)).mapM fun level =>
    (level.1.pcbs h).map fun pcbs =>
      { priority := minPriority + level.2, size := level.1.currentSize
        processes := pcbs.map fun pcb => { pid := pcb.pid, ttl := pcb.ttl, priority := none } }

/-- What is printed for `ready_queue`; the priority only where the policy has
one. -/
def readyLines (policy : Policy) (h : PcbHeap) (pq : ProcessQueue) : Option (List ProcessLine) :=
  (pq.pcbs h).map fun pcbs => pcbs.map fun pcb =>
    { pid := pcb.pid, ttl := pcb.ttl
      priority := if policy ≠ .roundRobin then some pcb.priority else none }

/-! ## The release of the queues -/

/-- The PCBs freed, in this order, and those left. -/
structure Freeing where
  freed : List PcbPtr
  pcbs : PcbHeap

/-- `free(pcb)`. -/
def Freeing.destroyPcb (f : Freeing) (p : PcbPtr) : Option Freeing :=
  if (f.pcbs.cells p).isSome then some ⟨f.freed ++ [p], f.pcbs.destroyPcb p⟩ else none

/-- `while ((pcb = dequeue_process(pq)) != NULL) destroy_pcb(pcb)`. The queue
gets shorter, so its size bounds the iterations. -/
def drainQueue : Nat → ProcessQueue → Freeing → Option Freeing
  | 0, _, f => some f
  | n + 1, pq, f =>
      match pq.dequeueProcess with
      | none => some f
      | some (p, pq) => (f.destroyPcb p).bind (drainQueue n pq)

/-- The priority queues, highest priority first; there are none for the other
policies. -/
def destroyScheduler (sched : Scheduler) (f : Freeing) : Option Freeing :=
  sched.priorityQueues.foldlM (fun f pq => drainQueue pq.currentSize pq f) f

/-- The processes between the end of the scheduler's thread and the end of
`cleanup_system`. `ready_queue` is reported and drained after the scheduler is
gone. -/
def cleanupSystem (s : Sys) : Option (ShutdownReport × Freeing) :=
  (if s.sched.policy = .preemptivePrio then (levelLines s.pcbs s.sched.priorityQueues).map some
    else some none).bind fun levels =>
  (destroyScheduler s.sched ⟨[], s.pcbs⟩).bind fun f =>
  (readyLines s.sched.policy f.pcbs s.sched.readyQueue).bind fun ready =>
  (drainQueue s.sched.readyQueue.currentSize s.sched.readyQueue f).map fun f =>
    ({ totalExecuting := countExecutingProcesses s.machine
       cores := if 0 < countExecutingProcesses s.machine then s.machine.coreLines else []
       levels
       readySize := s.sched.readyQueue.currentSize
       ready }, f)

/-! ## Allocated PCBs are read and freed -/

theorem PcbHeap.mapM_cells {h : PcbHeap} {ps : List PcbPtr} (hlive : ∀ p ∈ ps, h.Live p) :
    ps.mapM h.cells = some (ps.map h.get) := by
  induction ps with
  | nil => rfl
  | cons p ps ih =>
      obtain ⟨pcb, hpcb⟩ := Option.isSome_iff_exists.mp (hlive p (List.mem_cons_self ..))
      have hget : h.get p = pcb := by rw [get, hpcb, Option.getD_some]
      rw [List.mapM_cons, hpcb, ih fun q hq => hlive q (List.mem_cons_of_mem _ hq), List.map_cons,
        hget]
      rfl

theorem ProcessQueue.pcbs_live {pq : ProcessQueue} (hwf : pq.WF) {h : PcbHeap}
    (hlive : ∀ p ∈ pq.toList, h.Live p) : pq.pcbs h = some (pq.toList.map h.get) := by
  rw [pcbs, walk_eq hwf, PcbHeap.mapM_cells hlive]

theorem levelLines_live {h : PcbHeap} {pqs : List ProcessQueue} (hwf : ∀ pq ∈ pqs, pq.WF)
    (hlive : ∀ pq ∈ pqs, ∀ p ∈ pq.toList, h.Live p) : ∃ lines, levelLines h pqs = some lines := by
  unfold levelLines
  generalize hshown : (pqs.zipIdx.filter fun level => decide (0 < level.1.currentSize)) = shown
  have hmem : ∀ level ∈ shown, level.1 ∈ pqs := by
    intro level hlevel
    rw [← hshown] at hlevel
    exact List.fst_mem_of_mem_zipIdx (List.mem_filter.mp hlevel).1
  clear hshown
  induction shown with
  | nil => exact ⟨[], rfl⟩
  | cons level shown ih =>
      obtain ⟨lines, hlines⟩ := ih fun l hl => hmem l (List.mem_cons_of_mem _ hl)
      have hpq := hmem level (List.mem_cons_self ..)
      rw [List.mapM_cons, ProcessQueue.pcbs_live (hwf _ hpq) (hlive _ hpq), hlines]
      exact ⟨_, rfl⟩

namespace Freeing

/-- From `f` to `f'` exactly `ps` are freed, in this order. -/
structure Frees (f f' : Freeing) (ps : List PcbPtr) : Prop where
  freed : f'.freed = f.freed ++ ps
  cells : ∀ q, f'.pcbs.cells q = if q ∈ ps then none else f.pcbs.cells q

variable {f f' f'' : Freeing} {ps ps' : List PcbPtr}

theorem Frees.refl (f : Freeing) : f.Frees f [] where
  freed := (List.append_nil _).symm
  cells := fun _ => rfl

theorem Frees.trans (h : f.Frees f' ps) (h' : f'.Frees f'' ps') : f.Frees f'' (ps ++ ps') where
  freed := by rw [h'.freed, h.freed, List.append_assoc]
  cells := by
    intro q
    rw [h'.cells, h.cells]
    by_cases hq' : q ∈ ps'
    · rw [if_pos hq', if_pos (List.mem_append_right _ hq')]
    · rw [if_neg hq']
      by_cases hq : q ∈ ps
      · rw [if_pos hq, if_pos (List.mem_append_left _ hq)]
      · rw [if_neg hq, if_neg (by simp [hq, hq'])]

theorem Frees.live (h : f.Frees f' ps) (q : PcbPtr) :
    f'.pcbs.Live q ↔ f.pcbs.Live q ∧ q ∉ ps := by
  rw [PcbHeap.Live, h.cells, PcbHeap.Live]
  split <;> simp_all

theorem Frees.get (h : f.Frees f' ps) {q : PcbPtr} (hq : q ∉ ps) :
    f'.pcbs.get q = f.pcbs.get q := by
  rw [PcbHeap.get, h.cells, if_neg hq, PcbHeap.get]

theorem destroyPcb_live {p : PcbPtr} (hp : f.pcbs.Live p) :
    ∃ f', f.destroyPcb p = some f' ∧ f.Frees f' [p] := by
  refine ⟨⟨f.freed ++ [p], f.pcbs.destroyPcb p⟩, if_pos hp, rfl, fun q => ?_⟩
  by_cases hq : q = p <;> simp [PcbHeap.destroyPcb, hq]

/-- A queue of distinct allocated PCBs is drained. -/
theorem drainQueue_live {pq : ProcessQueue} (hwf : pq.WF) (hnd : pq.toList.Nodup)
    (hlive : ∀ p ∈ pq.toList, f.pcbs.Live p) :
    ∃ f', drainQueue pq.currentSize pq f = some f' ∧ f.Frees f' pq.toList := by
  obtain ⟨n, hn⟩ : ∃ n, n = pq.currentSize := ⟨_, rfl⟩
  rw [← hn]
  induction n generalizing pq f with
  | zero =>
      have hnil : pq.toList = [] := List.length_eq_zero_iff.mp (pq.length_toList.trans hn.symm)
      rw [hnil]
      exact ⟨f, rfl, .refl f⟩
  | succ n ih =>
      rcases ProcessQueue.dequeueProcess_cases hwf with ⟨h0, _⟩ | ⟨_, p, rest, hd, hwf', hl, _⟩
      · omega
      · rw [hl] at hnd hlive
        obtain ⟨hp, hnd'⟩ := List.nodup_cons.mp hnd
        obtain ⟨f₁, hf₁, hfree₁⟩ := destroyPcb_live (hlive p (List.mem_cons_self ..))
        have hsize : n = rest.currentSize := by
          have hlen := congrArg List.length hl
          rw [List.length_cons, ProcessQueue.length_toList, ProcessQueue.length_toList] at hlen
          omega
        obtain ⟨f₂, hf₂, hfree₂⟩ := @ih f₁ rest hwf' hnd' (fun q hq => (hfree₁.live q).mpr
          ⟨hlive q (List.mem_cons_of_mem _ hq), fun hqp => hp (List.mem_singleton.mp hqp ▸ hq)⟩)
          hsize
        refine ⟨f₂, ?_, hl ▸ hfree₁.trans hfree₂⟩
        rw [drainQueue, hd]
        show (f.destroyPcb p).bind _ = _
        rw [hf₁]
        exact hf₂

theorem drainQueues_live {pqs : List ProcessQueue} (hwf : ∀ pq ∈ pqs, pq.WF)
    (hnd : (pqs.flatMap ProcessQueue.toList).Nodup)
    (hlive : ∀ p ∈ pqs.flatMap ProcessQueue.toList, f.pcbs.Live p) :
    ∃ f', pqs.foldlM (fun f pq => drainQueue pq.currentSize pq f) f = some f' ∧
      f.Frees f' (pqs.flatMap ProcessQueue.toList) := by
  induction pqs generalizing f with
  | nil => exact ⟨f, rfl, .refl f⟩
  | cons pq pqs ih =>
      rw [List.flatMap_cons] at hnd hlive ⊢
      obtain ⟨hpq, hpqs, hdisj⟩ := List.nodup_append.mp hnd
      obtain ⟨f₁, hf₁, hfree₁⟩ := drainQueue_live (hwf pq (List.mem_cons_self ..)) hpq
        fun p hp => hlive p (List.mem_append_left _ hp)
      obtain ⟨f₂, hf₂, hfree₂⟩ := ih (fun q hq => hwf q (List.mem_cons_of_mem _ hq)) hpqs
        fun p hp => (hfree₁.live p).mpr
          ⟨hlive p (List.mem_append_right _ hp), fun hin => hdisj p hin p hp rfl⟩
      refine ⟨f₂, ?_, hfree₁.trans hfree₂⟩
      rw [List.foldlM_cons, hf₁]
      exact hf₂

end Freeing

/-- The waiting processes in the order in which they are freed. -/
def Scheduler.drained (sched : Scheduler) : List PcbPtr :=
  sched.priorityQueues.flatMap ProcessQueue.toList ++ sched.readyQueue.toList

theorem Scheduler.drained_perm (sched : Scheduler) : sched.drained ~ sched.waiting :=
  List.perm_append_comm

/-- What `cleanup_system` reports and frees. -/
structure CleanedUp (s : Sys) (report : ShutdownReport) (f : Freeing) : Prop where
  frees : Freeing.Frees ⟨[], s.pcbs⟩ f s.sched.drained
  totalExecuting : report.totalExecuting = countExecutingProcesses s.machine
  cores : report.cores =
    if 0 < countExecutingProcesses s.machine then s.machine.coreLines else []
  ready : report.ready.map ProcessLine.pid = s.sched.readyQueue.toList.map s.pid

/-- Nothing undefined happens when the waiting PCBs are allocated, each of
them waiting once. -/
theorem cleanupSystem_live {s : Sys} (hwf : s.sched.WF) (hnd : s.waiting.Nodup)
    (hlive : ∀ p ∈ s.waiting, s.pcbs.Live p) :
    ∃ report f, cleanupSystem s = some (report, f) ∧ CleanedUp s report f := by
  obtain ⟨hready, hlevels, hdisj⟩ := List.nodup_append.mp hnd
  have hlivel : ∀ p ∈ s.sched.priorityQueues.flatMap ProcessQueue.toList, s.pcbs.Live p :=
    fun p hp => hlive p (List.mem_append_right _ hp)
  obtain ⟨lines, hlines⟩ := levelLines_live hwf.levels fun pq hpq p hp =>
    hlivel p (List.mem_flatMap.mpr ⟨pq, hpq, hp⟩)
  obtain ⟨f₁, hf₁, hfree₁⟩ :=
    @Freeing.drainQueues_live ⟨[], s.pcbs⟩ _ hwf.levels hlevels hlivel
  have hkept : ∀ p ∈ s.sched.readyQueue.toList, p ∉
      s.sched.priorityQueues.flatMap ProcessQueue.toList := fun p hp hin => hdisj p hp p hin rfl
  have hlive₁ : ∀ p ∈ s.sched.readyQueue.toList, f₁.pcbs.Live p := fun p hp =>
    (hfree₁.live p).mpr ⟨hlive p (List.mem_append_left _ hp), hkept p hp⟩
  obtain ⟨f₂, hf₂, hfree₂⟩ := Freeing.drainQueue_live hwf.ready hready hlive₁
  have hread : s.sched.readyQueue.pcbs f₁.pcbs =
      some (s.sched.readyQueue.toList.map s.pcbs.get) := by
    rw [ProcessQueue.pcbs_live hwf.ready hlive₁]
    exact congrArg some (List.map_congr_left fun p hp => hfree₁.get (hkept p hp))
  obtain ⟨levels, hlevels⟩ : ∃ levels, (if s.sched.policy = .preemptivePrio then
      (levelLines s.pcbs s.sched.priorityQueues).map some else some none) = some levels := by
    split
    · rw [hlines]
      exact ⟨_, rfl⟩
    · exact ⟨_, rfl⟩
  unfold cleanupSystem destroyScheduler readyLines
  rw [hlevels, Option.bind_some, hf₁, Option.bind_some, hread, Option.map_some, Option.bind_some,
    hf₂, Option.map_some]
  refine ⟨_, f₂, rfl, hfree₁.trans hfree₂, rfl, rfl, ?_⟩
  rw [List.map_map, List.map_map]
  rfl

/-! ## Every PCB is freed once -/

/-- The heap of PCBs in a state between two critical sections. -/
structure PcbsSafe (s : Sys) : Prop where
  noUseAfterFree : NoUseAfterFree s.log
  heldOnce : s.references.Nodup
  heldLive : ∀ p ∈ s.references, s.pcbs.Live p
  allocated : ∀ p, p < s.pcbs.next ↔ s.pcbs.Live p ∨ p ∈ freedPcbs s.log
  dead : ∀ p ∈ freedPcbs s.log, ¬ s.pcbs.Live p
  /-- A shutdown at this point reads and frees allocated PCBs only, none that a
  completion has freed, and the waiting ones each once. -/
  cleanup : ∃ report f, cleanupSystem s = some (report, f) ∧
    (freedPcbs s.log ++ f.freed).Nodup ∧ f.freed ~ s.waiting ∧
    ∀ p, f.pcbs.Live p ↔ s.pcbs.Live p ∧ p ∉ s.waiting

section
variable {policy : Policy} {threads : Nat} {s : Sys}

theorem HeapSafe.waiting_nodup (h : HeapSafe policy threads [] s) : s.waiting.Nodup :=
  have hrefs : s.references.Nodup := h.owned.nodup
  hrefs.of_append_right

theorem HeapSafe.waiting_live (h : HeapSafe policy threads [] s) {p : PcbPtr} (hp : p ∈ s.waiting) :
    s.pcbs.Live p :=
  have hrefs : p ∈ s.references := List.mem_append_right _ hp
  h.owned.heldLive p hrefs

theorem HeapSafe.pcbsSafe (h : HeapSafe policy threads [] s) : PcbsSafe s := by
  obtain ⟨report, f, hrun, hclean⟩ := cleanupSystem_live h.queues h.waiting_nodup
    fun _ hp => h.waiting_live hp
  have hfreed : f.freed ~ s.waiting := by
    rw [hclean.frees.freed]
    exact s.sched.drained_perm
  refine ⟨h.owned.history, h.owned.nodup, h.owned.heldLive, h.owned.allocated, h.owned.dead,
    report, f, hrun, ?_, hfreed, fun p => ?_⟩
  · refine List.nodup_append.mpr
      ⟨h.owned.history.nodup, hfreed.nodup_iff.mpr h.waiting_nodup, ?_⟩
    rintro p hp q hq rfl
    exact h.owned.dead p hp (h.waiting_live (hfreed.mem_iff.mp hq))
  · rw [hclean.frees.live, s.sched.drained_perm.mem_iff]
    rfl

end

/-- Round Robin and the preemptive policy never use a PCB they have destroyed,
and destroy none twice: for any processes on any machine, any generator, any
interleaving, and with a shutdown after any critical section. A PCB is held
once at a time, by a hardware thread or by a queue, and it is allocated as long
as it is held. -/
theorem pcbs_safe {cfg : Config} {pcbs : List PCB} (hpol : cfg.policy ≠ .bfs)
    (hidle : cfg.machine.Idle) {g : Generating} (hg : (servedRuns cfg pcbs).Reachable g) :
    PcbsSafe g.sys := (HeapSafe.served hpol hidle hg).pcbsSafe

/-- A generator about to create a second process, of one tick and the highest
priority. -/
def urgentGenerator (s : Sys) : Generating :=
  { quietGenerator s with
    pg := { (quietGenerator s).pg with maxProcesses := 2, nextPid := 2 } }

/-- The new process preempts the first, completes and is destroyed; the saved
copy of the first is on the thread. The PCB the copy was made for is lost. -/
theorem pcbs_safe_preempted : ∃ g,
    (servedRuns (oneCore 1 .preemptivePrio 5) [loadedPcb 1 5]).Reachable g ∧
      freedPcbs g.sys.log = [1] ∧ g.sys.references = [2] ∧ g.sys.pcbs.next = 3 ∧
      PcbsSafe g.sys := by
  obtain ⟨s, hs⟩ : ∃ s, boot (oneCore 1 .preemptivePrio 5) [loadedPcb 1 5] = some s := ⟨_, rfl⟩
  have hstart : (servedRuns (oneCore 1 .preemptivePrio 5) [loadedPcb 1 5]).Reachable
      (urgentGenerator s) := .init hs
  have hreach := hstart.foldl (fun _ _ => rfl)
    [.sys .pass, .iterate ⟨true, 0, 0, 0⟩, .sys .pass, .sys .tick, .sys .pass]
  refine ⟨_, hreach, ?_, ?_, ?_, pcbs_safe (by decide) (Machine.createMachine_idle 1 1 1) hreach⟩
  all_goals
    obtain rfl := Option.some.inj hs
    decide +kernel

end LocOS
