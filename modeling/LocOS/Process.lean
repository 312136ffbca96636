import LocOS.Memory
import Mathlib.Data.Nat.Notation

/-!
# Process

Process control blocks and the bounded queues that hold them
(`sys/process.c`, first half). PCBs are heap objects named by pointers: the
queues and the hardware threads hold the pointer, so that one object seen
from two places is one object here too. Counters of type `int` are `Int`;
their overflow is out of scope.
-/

namespace LocOS

/-! ## Process control blocks -/

/-- `RUNNING`, `WAITING` and `TERMINATED`. -/
inductive ProcState where
  | running
  | waiting
  | terminated
  deriving DecidableEq, Repr

/-- The most important priority. -/
abbrev minPriority : Int := -20

/-- The least important priority. -/
abbrev maxPriority : Int := 19

/-- One level for each priority. -/
abbrev numPriorityLevels : Nat := 40

/-- `code` and `data` are virtual addresses; `pgb` is the index of the first
word of the page table, `none` the null pointer. -/
structure MemoryManagement where
  code : Word
  data : Word
  pgb : Option Nat
  deriving DecidableEq, Repr

/-- What a process takes along when it leaves its hardware thread. -/
structure ExecutionContext where
  pc : Word
  instruction : Word
  registers : Fin 16 → Word

/-- `PCB`; `ttl` counts down from `initialTtl`. -/
structure PCB where
  pid : Int
  state : ProcState
  priority : Int
  ttl : Int
  initialTtl : Int
  quantumCounter : Int
  virtualDeadline : Int
  mm : MemoryManagement
  context : ExecutionContext

/-- The fields of a PCB just allocated by `create_pcb`. -/
def createPcb (pid : Int) : PCB where
  pid := pid
  state := .waiting
  priority := 0
  ttl := 0
  initialTtl := 0
  quantumCounter := 0
  virtualDeadline := 0
  mm := { code := 0, data := 0, pgb := none }
  context := { pc := 0, instruction := 0, registers := fun _ => 0 }

instance : Inhabited PCB := ⟨createPcb 0⟩

namespace PCB

/-- `set_pcb_priority`. -/
def setPriority (pcb : PCB) (priority : Int) : PCB := { pcb with priority }

/-- `set_pcb_ttl` sets the initial TTL as well. -/
def setTtl (pcb : PCB) (ttl : Int) : PCB := { pcb with ttl, initialTtl := ttl }

/-- `decrement_pcb_ttl` stops at 0. -/
def decrementTtl (pcb : PCB) : PCB :=
  if 0 < pcb.ttl then { pcb with ttl := pcb.ttl - 1 } else pcb

@[simp] theorem decrementTtl_state (pcb : PCB) : pcb.decrementTtl.state = pcb.state := by
  unfold decrementTtl
  split <;> rfl

@[simp] theorem decrementTtl_pid (pcb : PCB) : pcb.decrementTtl.pid = pcb.pid := by
  unfold decrementTtl
  split <;> rfl

@[simp] theorem decrementTtl_mm (pcb : PCB) : pcb.decrementTtl.mm = pcb.mm := by
  unfold decrementTtl
  split <;> rfl

@[simp] theorem decrementTtl_priority (pcb : PCB) :
    pcb.decrementTtl.priority = pcb.priority := by
  unfold decrementTtl
  split <;> rfl

@[simp] theorem decrementTtl_virtualDeadline (pcb : PCB) :
    pcb.decrementTtl.virtualDeadline = pcb.virtualDeadline := by
  unfold decrementTtl
  split <;> rfl

@[simp] theorem decrementTtl_context (pcb : PCB) :
    pcb.decrementTtl.context = pcb.context := by
  unfold decrementTtl
  split <;> rfl

end PCB

/-! ## The heap of PCBs -/

/-- `PCB*`. -/
abbrev PcbPtr := Nat

/-- The PCBs `malloc` has returned and `free` has not taken back. -/
structure PcbHeap where
  cells : PcbPtr → Option PCB
  next : PcbPtr

namespace PcbHeap

/-- Dereferencing. A freed or never allocated object reads as a default. -/
def get (h : PcbHeap) (p : PcbPtr) : PCB := (h.cells p).getD default

/-- A write to a live object. -/
def set (h : PcbHeap) (p : PcbPtr) (pcb : PCB) : PcbHeap :=
  { h with cells := fun q => if q = p then (h.cells p).map fun _ => pcb else h.cells q }

/-- `malloc` of an initialised PCB: an address never used before. -/
def alloc (h : PcbHeap) (pcb : PCB) : PcbPtr × PcbHeap :=
  (h.next, ⟨fun q => if q = h.next then some pcb else h.cells q, h.next + 1⟩)

/-- `destroy_pcb`. -/
def destroyPcb (h : PcbHeap) (p : PcbPtr) : PcbHeap :=
  { h with cells := fun q => if q = p then none else h.cells q }

/-- The object is allocated. -/
def Live (h : PcbHeap) (p : PcbPtr) : Prop := (h.cells p).isSome

theorem get_set_self {h : PcbHeap} {p : PcbPtr} (hp : h.Live p) (pcb : PCB) :
    (h.set p pcb).get p = pcb := by
  obtain ⟨old, hold⟩ := Option.isSome_iff_exists.mp hp
  simp [get, set, hold]

theorem get_set_ne (h : PcbHeap) {p q : PcbPtr} (hne : q ≠ p) (pcb : PCB) :
    (h.set p pcb).get q = h.get q := by
  simp [get, set, hne]

theorem get_set_dead {h : PcbHeap} {p : PcbPtr} (hp : ¬ h.Live p) (pcb : PCB) :
    (h.set p pcb).get p = h.get p := by
  have hcell : h.cells p = none := by simpa [Live] using hp
  simp [get, set, hcell]

/-- A write shows at its object or nowhere. -/
theorem get_set_cases (h : PcbHeap) (p q : PcbPtr) (pcb : PCB) :
    (h.set p pcb).get q = h.get q ∨ (q = p ∧ (h.set p pcb).get q = pcb) := by
  by_cases hq : q = p
  · subst hq
    by_cases hlive : h.Live q
    · exact .inr ⟨rfl, get_set_self hlive pcb⟩
    · exact .inl (get_set_dead hlive pcb)
  · exact .inl (get_set_ne h hq pcb)

/-- A write that keeps a part of its object keeps it of every object. -/
theorem get_set_congr {α : Type*} (f : PCB → α) (h : PcbHeap) {p : PcbPtr} {pcb : PCB}
    (hf : f pcb = f (h.get p)) (q : PcbPtr) : f ((h.set p pcb).get q) = f (h.get q) := by
  rcases h.get_set_cases p q pcb with he | ⟨rfl, he⟩
  · rw [he]
  · rw [he, hf]

@[simp] theorem live_set (h : PcbHeap) (p q : PcbPtr) (pcb : PCB) :
    (h.set p pcb).Live q ↔ h.Live q := by
  by_cases hq : q = p <;> simp [Live, set, hq]

theorem get_destroyPcb_ne (h : PcbHeap) {p q : PcbPtr} (hne : q ≠ p) :
    (h.destroyPcb p).get q = h.get q := by
  simp [get, destroyPcb, hne]

@[simp] theorem live_destroyPcb (h : PcbHeap) (p q : PcbPtr) :
    (h.destroyPcb p).Live q ↔ q ≠ p ∧ h.Live q := by
  by_cases hq : q = p <;> simp [Live, destroyPcb, hq]

@[simp] theorem next_set (h : PcbHeap) (p : PcbPtr) (pcb : PCB) : (h.set p pcb).next = h.next :=
  rfl

/-- Every allocated object lies below the next one. -/
def Fresh (h : PcbHeap) : Prop := ∀ p, h.Live p → p < h.next

theorem Fresh.set {h : PcbHeap} (hf : h.Fresh) (p : PcbPtr) (pcb : PCB) : (h.set p pcb).Fresh :=
  fun q hq => hf q ((live_set ..).mp hq)

theorem Fresh.destroyPcb {h : PcbHeap} (hf : h.Fresh) (p : PcbPtr) : (h.destroyPcb p).Fresh :=
  fun q hq => hf q ((live_destroyPcb ..).mp hq).2

theorem Fresh.alloc {h : PcbHeap} (hf : h.Fresh) (pcb : PCB) : (h.alloc pcb).2.Fresh := by
  intro q hq
  by_cases hqn : q = h.next
  · subst hqn
    exact Nat.lt_succ_self _
  · have hq' : h.Live q := by simpa [Live, PcbHeap.alloc, hqn] using hq
    exact Nat.lt_succ_of_lt (hf q hq')

/-- Every allocated PCB has a priority the priority queues provide for. -/
def InRange (h : PcbHeap) : Prop :=
  ∀ p, h.Live p → minPriority ≤ (h.get p).priority ∧ (h.get p).priority ≤ maxPriority

theorem InRange.set {h : PcbHeap} (hr : h.InRange) {p : PcbPtr} {pcb : PCB}
    (hprio : pcb.priority = (h.get p).priority) : (h.set p pcb).InRange := by
  intro q hq
  rw [get_set_congr PCB.priority h hprio]
  exact hr q ((live_set ..).mp hq)

theorem InRange.destroyPcb {h : PcbHeap} (hr : h.InRange) (p : PcbPtr) :
    (h.destroyPcb p).InRange := by
  intro q hq
  obtain ⟨hne, hq⟩ := (live_destroyPcb ..).mp hq
  rw [get_destroyPcb_ne h hne]
  exact hr q hq

/-! ### What every step keeps of a PCB -/

/-- The object stays allocated, with its PID, its priority and its address
space. -/
structure Keeps (h h' : PcbHeap) (p : PcbPtr) : Prop where
  live : h'.Live p
  pid : (h'.get p).pid = (h.get p).pid
  priority : (h'.get p).priority = (h.get p).priority
  mm : (h'.get p).mm = (h.get p).mm

theorem Keeps.refl {h : PcbHeap} {p : PcbPtr} (hp : h.Live p) : h.Keeps h p := ⟨hp, rfl, rfl, rfl⟩

theorem Keeps.trans {h h' h'' : PcbHeap} {p : PcbPtr} (a : h.Keeps h' p) (b : h'.Keeps h'' p) :
    h.Keeps h'' p :=
  ⟨b.live, b.pid.trans a.pid, b.priority.trans a.priority, b.mm.trans a.mm⟩

theorem keeps_set {h : PcbHeap} {p : PcbPtr} {pcb : PCB} (hpid : pcb.pid = (h.get p).pid)
    (hprio : pcb.priority = (h.get p).priority) (hmm : pcb.mm = (h.get p).mm) {q : PcbPtr}
    (hq : h.Live q) : h.Keeps (h.set p pcb) q :=
  ⟨(live_set ..).mpr hq, get_set_congr PCB.pid h hpid q, get_set_congr PCB.priority h hprio q,
    get_set_congr PCB.mm h hmm q⟩

theorem keeps_destroyPcb {h : PcbHeap} {p q : PcbPtr} (hne : q ≠ p) (hq : h.Live q) :
    h.Keeps (h.destroyPcb p) q :=
  ⟨(live_destroyPcb ..).mpr ⟨hne, hq⟩, by rw [get_destroyPcb_ne h hne],
    by rw [get_destroyPcb_ne h hne], by rw [get_destroyPcb_ne h hne]⟩

theorem get_alloc_self (h : PcbHeap) (pcb : PCB) : (h.alloc pcb).2.get h.next = pcb := by
  simp [get, alloc]

theorem live_alloc_self (h : PcbHeap) (pcb : PCB) : (h.alloc pcb).2.Live h.next := by
  simp [Live, alloc]

theorem InRange.alloc {h : PcbHeap} (hr : h.InRange) {pcb : PCB}
    (hp : minPriority ≤ pcb.priority ∧ pcb.priority ≤ maxPriority) : (h.alloc pcb).2.InRange := by
  intro q hq
  by_cases hqn : q = h.next
  · subst hqn
    rw [get_alloc_self]
    exact hp
  · have hcell : (h.alloc pcb).2.cells q = h.cells q := by simp [PcbHeap.alloc, hqn]
    rw [get, hcell]
    rw [Live, hcell] at hq
    exact hr q hq

theorem keeps_alloc {h : PcbHeap} (hf : h.Fresh) (pcb : PCB) {q : PcbPtr} (hq : h.Live q) :
    h.Keeps (h.alloc pcb).2 q := by
  have hne : q ≠ h.next := Nat.ne_of_lt (hf q hq)
  have hcell : (h.alloc pcb).2.cells q = h.cells q := by simp [alloc, hne]
  have hget : (h.alloc pcb).2.get q = h.get q := by rw [get, hcell, get]
  refine ⟨?_, by rw [hget], by rw [hget], by rw [hget]⟩
  rw [Live, hcell]
  exact hq

end PcbHeap

/-! ## Process queues -/

/-- A ring buffer of PCB pointers. `rear` starts at -1. -/
structure ProcessQueue where
  queue : Nat → PcbPtr
  front : Nat
  rear : Int
  maxCapacity : Nat
  currentSize : Nat

/-- The slots of a new queue are uninitialised; 0 stands for what they hold. -/
def createProcessQueue (capacity : Nat) : ProcessQueue where
  queue := fun _ => 0
  front := 0
  rear := -1
  maxCapacity := capacity
  currentSize := 0

namespace ProcessQueue

/-- `none` is the result -1: the queue is full and unchanged. The operand of
`%` is never negative, so C and Lean agree on it. -/
def enqueueProcess (pq : ProcessQueue) (pcb : PcbPtr) : Option ProcessQueue :=
  if pq.maxCapacity ≤ pq.currentSize then none
  else
    let rear := (pq.rear + 1) % pq.maxCapacity
    some { pq with
      rear := rear
      queue := Function.update pq.queue rear.toNat pcb
      currentSize := pq.currentSize + 1 }

/-- `none` is the null pointer: the queue is empty and unchanged. -/
def dequeueProcess (pq : ProcessQueue) : Option (PcbPtr × ProcessQueue) :=
  if pq.currentSize = 0 then none
  else
    some (pq.queue pq.front,
      { pq with
        front := (pq.front + 1) % pq.maxCapacity
        currentSize := pq.currentSize - 1 })

/-- The slots a walk from `front` over `current_size` positions visits, as
`cleanup_system` prints them. -/
def toList (pq : ProcessQueue) : List PcbPtr :=
  (List.range pq.currentSize).map fun i => pq.queue ((pq.front + i) % pq.maxCapacity)

/-- Enqueues in list order; `none` as soon as one is refused. -/
def enqueueAll (pq : ProcessQueue) : List PcbPtr → Option ProcessQueue
  | [] => some pq
  | p :: ps => (pq.enqueueProcess p).bind (·.enqueueAll ps)

end ProcessQueue
end LocOS
