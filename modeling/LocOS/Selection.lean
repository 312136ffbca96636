import LocOS.BfsQueue
import LocOS.Lib.Runs

/-!
# Selection

What a BFS selection takes and what it leaves, whatever the ring position,
the size and the deadlines. The process taken is the first of the least
deadlines unless a deadline equals the marker -1 of the scan; the rest of the
queue is unchanged unless the shifts of the removal come around to the front
of the ring.
-/

namespace LocOS

/-! ## Runs of a queue -/

/-- What is done with the `ready_queue` of a BFS scheduler. A selection finds
the deadlines the PCBs have at that time. -/
inductive ReadyAction where
  | enqueue (p : PcbPtr)
  | dequeue
  | select (pcbs : PcbHeap)

/-- The runs of a `ready_queue` of the given capacity, under BFS. -/
def readyRuns (capacity : Nat) : Runs Scheduler ReadyAction where
  init sched := ∃ quantum syncMode,
    createSchedulerWithPolicy quantum .bfs syncMode (createProcessQueue capacity) = some sched
  step sched a sched' :=
    match a with
    | .enqueue p => ∃ rq, sched.readyQueue.enqueueProcess p = some rq ∧
        sched' = { sched with readyQueue := rq }
    | .dequeue => ∃ p rq, sched.readyQueue.dequeueProcess = some (p, rq) ∧
        sched' = { sched with readyQueue := rq }
    | .select pcbs => ∃ p, selectNextProcess sched pcbs = some (p, sched')

namespace Scheduler

/-- A selection under BFS finds a position of the queue and removes it. -/
theorem selectNextProcess_found {sched : Scheduler}
    (hpol : sched.policy = .bfs) (pcbs : PcbHeap) {i : Nat} (hi : i < sched.readyQueue.currentSize)
    (hfound : (bfsScan sched.readyQueue pcbs).2.1 = (sched.readyQueue.slotAt i : Int)) :
    selectNextProcess sched pcbs = some (sched.readyQueue.queue (sched.readyQueue.slotAt i),
      { sched with readyQueue := bfsRemove sched.readyQueue (sched.readyQueue.slotAt i) }) := by
  have hsize : sched.readyQueue.currentSize ≠ 0 := by omega
  have hne : ¬ ((sched.readyQueue.slotAt i : Nat) : Int) = -1 := by omega
  simp only [selectNextProcess, hpol, if_neg hsize, hfound, if_neg hne, Int.toNat_natCast]

theorem selectNextProcess_readyWF {sched sched' : Scheduler} (h : sched.readyQueue.WF)
    (hpol : sched.policy = .bfs) {pcbs : PcbHeap} {p : PcbPtr}
    (hsel : selectNextProcess sched pcbs = some (p, sched')) :
    sched'.readyQueue.WF ∧ sched'.policy = .bfs := by
  rcases Nat.eq_zero_or_pos sched.readyQueue.currentSize with hzero | hpos
  · simp [selectNextProcess, hpol, hzero] at hsel
  · obtain ⟨i, hi, hfound, _⟩ := ProcessQueue.bfsScan_found pcbs h hpos
    rw [selectNextProcess_found hpol pcbs hi hfound] at hsel
    obtain ⟨_, rfl⟩ := Prod.mk.inj (Option.some.inj hsel)
    exact ⟨ProcessQueue.bfsRemove_wf h hpos _, hpol⟩

/-- The ring invariant holds in every run, also after a removal that went
wrong. -/
theorem wf_of_readyRuns {capacity : Nat} (hcap : 0 < capacity) {sched : Scheduler}
    (h : (readyRuns capacity).Reachable sched) :
    sched.readyQueue.WF ∧ sched.policy = .bfs := by
  apply h.invariant fun sched => sched.readyQueue.WF ∧ sched.policy = .bfs
  · rintro sched ⟨quantum, syncMode, hcreate⟩
    unfold createSchedulerWithPolicy at hcreate
    split at hcreate
    · cases hcreate
    · obtain rfl := Option.some.inj hcreate
      exact ⟨ProcessQueue.createProcessQueue_wf hcap, rfl⟩
  · intro sched a sched' ⟨hwf, hpol⟩ hstep
    cases a with
    | enqueue p =>
        obtain ⟨rq, he, rfl⟩ := hstep
        exact ⟨(ProcessQueue.enqueueProcess_some hwf he).2.1, hpol⟩
    | dequeue =>
        obtain ⟨p, rq, hd, rfl⟩ := hstep
        exact ⟨(ProcessQueue.dequeueProcess_some hwf hd).1, hpol⟩
    | select pcbs =>
        obtain ⟨p, hsel⟩ := hstep
        exact selectNextProcess_readyWF hwf hpol hsel

end Scheduler

theorem reachable_enqueueAll {capacity : Nat} {sched : Scheduler} (ps : List PcbPtr)
    (h : (readyRuns capacity).Reachable sched) {rq : ProcessQueue}
    (he : sched.readyQueue.enqueueAll ps = some rq) :
    (readyRuns capacity).Reachable { sched with readyQueue := rq } := by
  induction ps generalizing sched with
  | nil =>
      obtain rfl : sched.readyQueue = rq := Option.some.inj he
      exact h
  | cons p ps ih =>
      rw [ProcessQueue.enqueueAll] at he
      obtain ⟨rq1, hfirst, he⟩ := Option.bind_eq_some_iff.mp he
      have hone : (readyRuns capacity).Reachable { sched with readyQueue := rq1 } :=
        .step (a := .enqueue p) h ⟨rq1, hfirst, rfl⟩
      have hall := ih hone he
      exact hall

/-- Processes 0, 1, .. with these virtual deadlines. -/
def heapOfDeadlines (deadlines : List Int) : PcbHeap where
  cells p := deadlines[p]?.map fun deadline => { createPcb p with virtualDeadline := deadline }
  next := deadlines.length

/-- The scheduler of a run that enqueued processes 0, 1 and 2. -/
def threeQueued (capacity : Nat) : Scheduler where
  quantum := 10
  policy := .bfs
  syncMode := .clock
  readyQueue := ((createProcessQueue capacity).enqueueAll [0, 1, 2]).getD
    (createProcessQueue capacity)
  priorityQueues := []
  totalCompleted := 0

theorem threeQueued_reachable : ∀ capacity ∈ [3, 4],
    (readyRuns capacity).Reachable (threeQueued capacity) := by
  intro capacity hcap
  simp only [List.mem_cons, List.not_mem_nil, or_false] at hcap
  have hinit : (readyRuns capacity).Reachable
      { threeQueued capacity with readyQueue := createProcessQueue capacity } :=
    .init ⟨10, .clock, rfl⟩
  rcases hcap with rfl | rfl
  · exact reachable_enqueueAll [0, 1, 2] hinit rfl
  · exact reachable_enqueueAll [0, 1, 2] hinit rfl

/-! ## What is taken -/

/-- `select_next_process` under BFS returns the first of the processes with
the least deadline exactly when no process but the last has the deadline -1,
the scan's marker for none, or some process has a lower one. -/
theorem selectNextProcess_first_iff {sched : Scheduler} (h : sched.readyQueue.WF)
    (hpol : sched.policy = .bfs) (hpos : 0 < sched.readyQueue.currentSize) (pcbs : PcbHeap) :
    (∃ i sched', (bfsScan sched.readyQueue pcbs).2.1 = (sched.readyQueue.slotAt i : Int) ∧
        selectNextProcess sched pcbs =
          some (sched.readyQueue.queue (sched.readyQueue.slotAt i), sched') ∧
        Least.First (sched.readyQueue.deadlineAt pcbs) sched.readyQueue.currentSize i) ↔
      ∀ j, j + 1 < sched.readyQueue.currentSize → sched.readyQueue.deadlineAt pcbs j = -1 →
        ∃ k, k < sched.readyQueue.currentSize ∧ sched.readyQueue.deadlineAt pcbs k < -1 := by
  obtain ⟨i, hi, hfound, hfirst⟩ := ProcessQueue.bfsScan_found pcbs h hpos
  have hsel := Scheduler.selectNextProcess_found hpol pcbs hi hfound
  rw [Least.MarkHarmless] at hfirst
  rw [← hfirst]
  constructor
  · rintro ⟨k, sched', hslot, _, hk⟩
    have hle := h.sizeLe
    have heq : sched.readyQueue.slotAt k = sched.readyQueue.slotAt i := by
      exact Int.ofNat.inj (hslot.symm.trans hfound)
    obtain rfl := ring_index_inj (Nat.lt_of_lt_of_le hk.lt hle) (Nat.lt_of_lt_of_le hi hle) heq
    exact hk
  · intro hi
    exact ⟨i, _, hfound, hsel, hi⟩

/-- Deadlines -1, -2 and 3: the first process is forgotten, but the second has
a lower deadline and is taken. -/
theorem threeQueued_first : ∃ i sched',
    (bfsScan (threeQueued 4).readyQueue (heapOfDeadlines [-1, -2, 3])).2.1 =
        ((threeQueued 4).readyQueue.slotAt i : Int) ∧
      selectNextProcess (threeQueued 4) (heapOfDeadlines [-1, -2, 3]) =
        some ((threeQueued 4).readyQueue.queue ((threeQueued 4).readyQueue.slotAt i), sched') ∧
      Least.First ((threeQueued 4).readyQueue.deadlineAt (heapOfDeadlines [-1, -2, 3]))
        (threeQueued 4).readyQueue.currentSize i := by
  obtain ⟨hwf, hpol⟩ := Scheduler.wf_of_readyRuns (by decide) (threeQueued_reachable 4 (by decide))
  refine (selectNextProcess_first_iff hwf hpol (by decide) (heapOfDeadlines [-1, -2, 3])).mpr ?_
  intro _ _ _
  exact ⟨1, by decide, by decide⟩

/-- Deadlines -1, 5 and 7: the process taken has the deadline 5. -/
theorem threeQueued_forgets :
    (selectNextProcess (threeQueued 3) (heapOfDeadlines [-1, 5, 7])).map Prod.fst = some 1 ∧
      ((heapOfDeadlines [-1, 5, 7]).get 0).virtualDeadline <
        ((heapOfDeadlines [-1, 5, 7]).get 1).virtualDeadline ∧
      (threeQueued 3).readyQueue.toList = [0, 1, 2] := by
  decide

/-! ## What is left -/

/-- A queue lost the process at position `i`, and nothing else changed. -/
structure ProcessQueue.Loses (pq pq' : ProcessQueue) (i : Nat) : Prop where
  toList : pq'.toList = pq.toList.eraseIdx i
  currentSize : pq'.currentSize = pq.currentSize - 1
  front : pq'.front = pq.front
  maxCapacity : pq'.maxCapacity = pq.maxCapacity
  rear : (pq'.rear + 1) % pq'.maxCapacity =
    ((pq'.front + pq'.currentSize : Nat) : Int) % pq'.maxCapacity

theorem ProcessQueue.bfsRemove_loses_iff {pq : ProcessQueue} (h : pq.WF) {i : Nat}
    (hi : i < pq.currentSize) :
    pq.Loses (bfsRemove pq (pq.slotAt i)) i ↔ pq.ShiftsHarmless i := by
  rw [← bfsRemove_toList_iff h hi]
  exact ⟨fun hl => hl.toList,
    fun hl => ⟨hl, rfl, rfl, rfl, (bfsRemove_wf h (Nat.zero_lt_of_lt hi) _).rearEq⟩⟩

/-- In every state of a run, a selection that takes position `i` leaves the
rest of the queue in order exactly when `i + size ≤ capacity + 1`, or the
processes at the positions the shifts come around to are one and the same. -/
theorem selectNextProcess_loses_iff {capacity : Nat} (hcap : 0 < capacity) {sched : Scheduler}
    (h : (readyRuns capacity).Reachable sched) (pcbs : PcbHeap) {i : Nat}
    (hi : i < sched.readyQueue.currentSize)
    (hfound : (bfsScan sched.readyQueue pcbs).2.1 = (sched.readyQueue.slotAt i : Int)) :
    (∃ sched', selectNextProcess sched pcbs =
          some (sched.readyQueue.queue (sched.readyQueue.slotAt i), sched') ∧
        sched.readyQueue.Loses sched'.readyQueue i) ↔
      ∀ j, j + sched.readyQueue.maxCapacity + 1 < i + sched.readyQueue.currentSize →
        sched.readyQueue.queue (sched.readyQueue.slotAt (j + 1)) =
          sched.readyQueue.queue (sched.readyQueue.slotAt j) := by
  obtain ⟨hwf, hpol⟩ := Scheduler.wf_of_readyRuns hcap h
  have hexact := ProcessQueue.bfsRemove_loses_iff hwf hi
  rw [Scheduler.selectNextProcess_found hpol pcbs hi hfound]
  rw [ProcessQueue.ShiftsHarmless] at hexact
  rw [← hexact]
  constructor
  · rintro ⟨sched', hsel, hl⟩
    obtain ⟨_, rfl⟩ := Prod.mk.inj (Option.some.inj hsel)
    exact hl
  · intro hl
    exact ⟨_, rfl, hl⟩

/-- A ring of four with three processes loses the last one cleanly. -/
theorem threeQueued_loses : ∃ sched',
    selectNextProcess (threeQueued 4) (heapOfDeadlines [4, 3, 2]) =
        some ((threeQueued 4).readyQueue.queue ((threeQueued 4).readyQueue.slotAt 2), sched') ∧
      (threeQueued 4).readyQueue.Loses sched'.readyQueue 2 := by
  refine (selectNextProcess_loses_iff (by decide) (threeQueued_reachable 4 (by decide))
    (heapOfDeadlines [4, 3, 2]) (by decide) (by decide)).mpr ?_
  intro j hj
  have hfull : (threeQueued 4).readyQueue.maxCapacity = 4 := rfl
  have hsize : (threeQueued 4).readyQueue.currentSize = 3 := rfl
  omega

/-- In a full ring of three, taking the last process loses the first one and
doubles the second. -/
theorem threeQueued_doubles : (readyRuns 3).Reachable (threeQueued 3) ∧
    (threeQueued 3).readyQueue.toList.eraseIdx 2 = [0, 1] ∧
      (selectNextProcess (threeQueued 3) (heapOfDeadlines [4, 3, 2])).map
        (fun (p, sched) => (p, sched.readyQueue.toList)) = some (2, [1, 1]) := by
  exact ⟨threeQueued_reachable 3 (by decide), by decide, by decide⟩

end LocOS
