import LocOS.BfsQueue
import LocOS.Lib.Transcript

/-!
# BoundedFifo

What `ProcessQueue` is for: a first-in first-out list of bounded length. No
sequence of calls tells the ring buffer from the list, full and empty queues
and wrap-around included, and the loops that walk the ring visit the list.
-/

namespace LocOS

/-- `enqueue_process` and `dequeue_process`. -/
inductive QueueCall where
  | enqueue (p : PcbPtr)
  | dequeue
  deriving DecidableEq, Repr

/-- The `int` of `enqueue_process`, or the pointer of `dequeue_process`. -/
inductive QueueAnswer where
  | status (code : Int)
  | process (p : Option PcbPtr)
  deriving DecidableEq, Repr

/-- The list bounded by `capacity`. -/
def boundedFifo (capacity : Nat) (ps : List PcbPtr) : QueueCall → QueueAnswer × List PcbPtr
  | .enqueue p => if ps.length < capacity then (.status 0, ps ++ [p]) else (.status (-1), ps)
  | .dequeue =>
      match ps with
      | [] => (.process none, [])
      | p :: rest => (.process (some p), rest)

namespace ProcessQueue

/-- A call of the ring buffer. A call that fails leaves it as it is. -/
def answer (pq : ProcessQueue) : QueueCall → QueueAnswer × ProcessQueue
  | .enqueue p =>
      match pq.enqueueProcess p with
      | none => (.status (-1), pq)
      | some pq' => (.status 0, pq')
  | .dequeue =>
      match pq.dequeueProcess with
      | none => (.process none, pq)
      | some (p, pq') => (.process (some p), pq')

/-! ## The walk -/

/-- The loop of `cleanup_system` over `ready_queue`: the slots it visits. -/
def walk (pq : ProcessQueue) : List PcbPtr :=
  (Loop.up (fun _ (visited, idx) => (visited ++ [pq.queue idx], (idx + 1) % pq.maxCapacity))
    pq.currentSize (([] : List PcbPtr), pq.front)).1

/-- A loop that steps `idx` around the ring is at slot `i` in iteration `i`. -/
theorem walk_loop {σ : Type*} {pq : ProcessQueue} (h : pq.WF) (body : σ → Nat → σ) (s : σ)
    (n : Nat) :
    Loop.up (fun _ (s, idx) => (body s idx, (idx + 1) % pq.maxCapacity)) n (s, pq.front) =
      ((List.range n).foldl (fun s i => body s (pq.slotAt i)) s, pq.slotAt n) := by
  induction n with
  | zero => rw [slotAt, Nat.add_zero, Nat.mod_eq_of_lt h.frontLt]; rfl
  | succ n ih =>
      rw [Loop.up_succ, ih, List.range_succ, List.foldl_append, ← slotAt_succ]
      rfl

theorem foldl_visited (pq : ProcessQueue) (n : Nat) :
    (List.range n).foldl (fun visited i => visited ++ [pq.queue (pq.slotAt i)]) [] =
      (List.range n).map fun i => pq.queue (pq.slotAt i) := by
  induction n with
  | zero => rfl
  | succ n ih => rw [List.range_succ, List.foldl_append, ih, List.map_append]; rfl

theorem walk_eq {pq : ProcessQueue} (h : pq.WF) : pq.walk = pq.toList := by
  rw [walk, walk_loop h (fun visited idx => visited ++ [pq.queue idx])]
  exact pq.foldl_visited pq.currentSize

/-- The walk of the BFS scan: it looks for the least deadline of the list. -/
theorem bfsScan_toList {pq : ProcessQueue} (h : pq.WF) (pcbs : PcbHeap) :
    (bfsScan pq pcbs).1 =
      (Least.scan (-1) (fun i => (pcbs.get (pq.toList.getD i 0)).virtualDeadline)
        pq.toList.length).1 := by
  rw [bfsScan, bfsScan_walk pq pcbs h, length_toList]
  refine congrArg Prod.fst (Least.scan_congr fun i hi => ?_)
  rw [deadlineAt, List.getD_eq_getElem?_getD, getElem?_toList, if_pos hi]
  rfl

/-! ## The simulation -/

/-- The ring buffer holds the list. -/
structure Represents (capacity : Nat) (pq : ProcessQueue) (ps : List PcbPtr) : Prop where
  wf : pq.WF
  capacity : pq.maxCapacity = capacity
  list : pq.toList = ps

/-- The ring buffer answers as the list does. -/
theorem answer_simulates (capacity : Nat) :
    Transcript.Simulates (Represents capacity) answer (boundedFifo capacity) := by
  have hstep : ∀ pq ps call, Represents capacity pq ps →
      (answer pq call).1 = (boundedFifo capacity ps call).1 ∧
        Represents capacity (answer pq call).2 (boundedFifo capacity ps call).2 := by
    rintro pq _ call ⟨hwf, rfl, rfl⟩
    have hlength := pq.length_toList
    cases call with
    | enqueue p =>
        simp only [answer, boundedFifo, hlength]
        rcases enqueueProcess_cases hwf p with ⟨hfull, he⟩ | ⟨hlt, pq', he, hwf', hl, hcap, _⟩
        · rw [he, if_neg (by omega)]
          exact ⟨rfl, hwf, rfl, rfl⟩
        · rw [he, if_pos hlt]
          exact ⟨rfl, hwf', hcap, hl⟩
    | dequeue =>
        simp only [answer, boundedFifo]
        rcases dequeueProcess_cases hwf with ⟨hzero, he⟩ | ⟨_, p, pq', he, hwf', hl, hcap, _⟩
        · have hnil : pq.toList = [] := List.eq_nil_of_length_eq_zero (hlength.trans hzero)
          rw [he, hnil]
          exact ⟨rfl, hwf, rfl, hnil⟩
        · rw [he, hl]
          exact ⟨rfl, hwf', hcap, rfl⟩
  exact ⟨fun pq ps call h => (hstep pq ps call h).1, fun pq ps call h => (hstep pq ps call h).2⟩

end ProcessQueue

/-- Whatever is called, a new queue of capacity `capacity` answers as the
bounded list does, and every walk over it afterwards visits that list. -/
theorem processQueue_boundedFifo {capacity : Nat} (hcap : 0 < capacity)
    (calls : List QueueCall) :
    let pq := (Transcript.run ProcessQueue.answer (createProcessQueue capacity) calls).2
    let ps := (Transcript.run (boundedFifo capacity) [] calls).2
    (Transcript.run ProcessQueue.answer (createProcessQueue capacity) calls).1 =
        (Transcript.run (boundedFifo capacity) [] calls).1 ∧
      pq.walk = ps ∧
      ∀ pcbs : PcbHeap, (bfsScan pq pcbs).1 =
        (Least.scan (-1) (fun i => (pcbs.get (ps.getD i 0)).virtualDeadline) ps.length).1 := by
  have hstart : ProcessQueue.Represents capacity (createProcessQueue capacity) [] :=
    ⟨ProcessQueue.createProcessQueue_wf hcap, rfl, rfl⟩
  obtain ⟨hanswers, hwf, _, hlist⟩ := (ProcessQueue.answer_simulates capacity).run hstart calls
  refine ⟨hanswers, ?_, fun pcbs => ?_⟩
  · rw [ProcessQueue.walk_eq hwf, hlist]
  · rw [ProcessQueue.bfsScan_toList hwf, hlist]

/-- A ring of two: full, refused, and wrapped round. -/
theorem processQueue_boundedFifo_two :
    let calls := [.enqueue 7, .enqueue 8, .enqueue 9, .dequeue, .enqueue 9, .dequeue]
    (Transcript.run ProcessQueue.answer (createProcessQueue 2) calls).1 =
        [.status 0, .status 0, .status (-1), .process (some 7), .status 0, .process (some 8)] ∧
      (Transcript.run ProcessQueue.answer (createProcessQueue 2) calls).2.walk = [9] := by
  intro calls
  obtain ⟨hanswers, hwalk, _⟩ := processQueue_boundedFifo (by decide : 0 < 2) calls
  exact ⟨hanswers.trans (by decide), hwalk.trans (by decide)⟩

end LocOS
