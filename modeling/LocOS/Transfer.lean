import LocOS.Mirror

/-!
# Transfer

The transfer of `ready_queue` into the priority queues, which preempts at
most once in a pass: a preemption frees a slot, and the loop preempts only on
a full machine. `TransferOk` is the condition that the process it preempts,
if any, meets a predicate; `transferReady_inv` is the loop rule under it.
-/

namespace LocOS

open scoped List

/-! ## The process to preempt -/

/-- The marker for none, or a counted slot with the priority of its copy. -/
def Lowest.Located (m : Machine) (low : Lowest) : Prop :=
  low.priority = maxPriority + 1 ∨
    ∃ (i j k : Nat) (core : Core), m.core? i j = some core ∧ k < core.currentPcbCount.toNat ∧
      low = ⟨(core.pcbs.getD k default).priority, i, j, k⟩

theorem getLowestPriorityExecuting_located (m : Machine) :
    (getLowestPriorityExecuting m).Located m := by
  refine Loop.foldl_inv (Lowest.Located m) (.inl rfl) ?_
  rintro ⟨i, j⟩ _ low hlow
  dsimp only
  cases hcore : m.core? i j with
  | none => exact hlow
  | some core =>
      dsimp only
      refine Loop.up_inv (fun _ => Lowest.Located m) hlow fun k low hk hlow => ?_
      split
      · exact .inr ⟨i, j, k, core, hcore, hk, rfl⟩
      · exact hlow

/-- The test of `preempt_lower_priority_processes`: a process executes, and
the new one is more important. -/
def Sys.Outranks (s : Sys) (newPcb : PcbPtr) : Prop :=
  (getLowestPriorityExecuting s.machine).priority ≠ maxPriority + 1 ∧
    (s.pcbs.get newPcb).priority < (getLowestPriorityExecuting s.machine).priority

/-- The system after `newPcb` preempted the process whose copy is at slot `k`
of core `(i, j)`. -/
def Sys.preempted (s : Sys) (newPcb : PcbPtr) (i j k : Nat) (core : Core) : Sys :=
  let victim := core.pcbs.getD k default
  let pcbs := (s.pcbs.alloc victim.savedCopy).2
  let enqueued := enqueueToScheduler s.sched pcbs s.pcbs.next
  { s with
    machine := s.machine.setCore i j (core.dropLegacy k)
    sched := enqueued.getD s.sched
    pcbs
    log := s.log ++ [Event.preempted newPcb victim.pid s.pcbs.next enqueued.isSome] }

theorem preempt_cases {s : Sys} (hpol : s.sched.policy = .preemptivePrio) (p : PcbPtr) :
    (¬ s.Outranks p ∧ preemptLowerPriorityProcesses s p = s) ∨
    (s.Outranks p ∧ ∃ i j k core, s.machine.core? i j = some core ∧
      k < core.currentPcbCount.toNat ∧
      getLowestPriorityExecuting s.machine =
        ⟨(core.pcbs.getD k default).priority, i, j, k⟩ ∧
      preemptLowerPriorityProcesses s p = s.preempted p i j k core) := by
  unfold preemptLowerPriorityProcesses Sys.Outranks
  rw [if_neg (by simpa using hpol)]
  by_cases hout : (getLowestPriorityExecuting s.machine).priority ≠ maxPriority + 1 ∧
      (s.pcbs.get p).priority < (getLowestPriorityExecuting s.machine).priority
  · right
    rcases getLowestPriorityExecuting_located s.machine with hnone | ⟨i, j, k, core, hcore, hk, he⟩
    · exact absurd hnone hout.1
    · refine ⟨hout, i, j, k, core, hcore, hk, he, ?_⟩
      simp only [if_pos hout]
      simp only [he, Int.toNat_natCast, hcore]
      rfl
  · exact .inl ⟨hout, if_neg hout⟩

/-! ## One iteration -/

/-- `p` is taken from the front of `ready_queue`. -/
structure Taken (s : Sys) (p : PcbPtr) (t : Sys) : Prop where
  eq : t = { s with sched := t.sched }
  wf : t.sched.WF
  same : Scheduler.SameConfig s.sched t.sched
  perm : s.waiting ~ p :: t.waiting
  levels : t.sched.priorityQueues = s.sched.priorityQueues
  room : t.sched.readyQueue.currentSize < t.sched.readyQueue.maxCapacity

theorem taken_of_dequeue {s : Sys} (h : s.sched.WF) {p : PcbPtr} {rq : ProcessQueue}
    (hd : s.sched.readyQueue.dequeueProcess = some (p, rq)) :
    Taken s p { s with sched := { s.sched with readyQueue := rq } } := by
  obtain ⟨hwf, hl, hcap, hsize⟩ := ProcessQueue.dequeueProcess_some h.ready hd
  refine ⟨rfl, h.setReady hwf, .setReady _ hcap, ?_, rfl, ?_⟩
  · simp [Sys.waiting, Scheduler.waiting, hl]
  · show rq.currentSize < rq.maxCapacity
    have := h.ready.sizeLe
    omega

/-- `p` is put on its priority queue, or back on `ready_queue`. Either way
some priority queue is not empty afterwards if `p` has one. -/
structure Filed (s : Sys) (p : PcbPtr) (t : Sys) : Prop where
  eq : t = { s with sched := t.sched }
  wf : t.sched.WF
  same : Scheduler.SameConfig s.sched t.sched
  perm : t.waiting ~ p :: s.waiting
  ready : (Scheduler.levelOf (s.pcbs.get p).priority).isSome → hasReadyProcesses t.sched = true
  more : hasReadyProcesses s.sched = true → hasReadyProcesses t.sched = true

theorem hasReady_of_level {sched : Scheduler} (hpol : sched.policy = .preemptivePrio) {i : Nat}
    {pq : ProcessQueue} (hi : sched.priorityQueues[i]? = some pq) (hpos : 0 < pq.currentSize) :
    hasReadyProcesses sched = true := by
  rw [Scheduler.hasReadyProcesses_iff, if_pos hpol]
  exact ⟨pq, List.mem_of_getElem? hi, hpos⟩

/-- Rewriting one level by a queue that is not empty keeps work waiting. -/
theorem hasReady_setLevel {sched : Scheduler} (hpol : sched.policy = .preemptivePrio) {i : Nat}
    {pq pq' : ProcessQueue} (hi : sched.priorityQueues[i]? = some pq)
    (hpos : 0 < pq'.currentSize) :
    hasReadyProcesses { sched with priorityQueues := sched.priorityQueues.set i pq' } = true := by
  refine hasReady_of_level hpol (i := i) ?_ hpos
  have hlt := (List.getElem?_eq_some_iff.mp hi).1
  simp [hlt]

theorem filed_of_enqueue {s : Sys} (h : s.sched.WF) (hpol : s.sched.policy = .preemptivePrio)
    {p : PcbPtr} {sched : Scheduler} (he : enqueueToScheduler s.sched s.pcbs p = some sched) :
    Filed s p { s with sched } := by
  rcases Scheduler.enqueueToScheduler_cases h s.pcbs p with
    ⟨hnone, _⟩ | ⟨sched', pq, he', _, _, hwf, hsame, hperm⟩
  · rw [hnone] at he
    cases he
  · obtain rfl := Option.some.inj (he'.symm.trans he)
    have hready : hasReadyProcesses sched' = true := by
      obtain ⟨i, pq, pq', _, hi, henq, rfl⟩ := Scheduler.enqueue_levels hpol he
      obtain ⟨_, _, _, _, hsize⟩ :=
        ProcessQueue.enqueueProcess_some (h.levels pq (List.mem_of_getElem? hi)) henq
      exact hasReady_setLevel hpol hi (by omega)
    exact ⟨rfl, hwf, hsame, hperm, fun _ => hready, fun _ => hready⟩

theorem filed_of_putBack {s : Sys} (h : s.sched.WF) (hpol : s.sched.policy = .preemptivePrio)
    {p : PcbPtr} (hroom : s.sched.readyQueue.currentSize < s.sched.readyQueue.maxCapacity)
    (he : enqueueToScheduler s.sched s.pcbs p = none) :
    Filed s p { s with sched := { s.sched with
      readyQueue := (s.sched.readyQueue.enqueueProcess p).getD s.sched.readyQueue } } := by
  rcases ProcessQueue.enqueueProcess_cases h.ready p with
    ⟨hfull, _⟩ | ⟨_, rq, hsome, hwf, hl, hcap, _⟩
  · omega
  · rw [hsome]
    refine ⟨rfl, h.setReady hwf, .setReady _ hcap, Scheduler.waiting_setReady_perm hl, ?_, ?_⟩
    · intro hlev
      obtain ⟨i, hi⟩ := Option.isSome_iff_exists.mp hlev
      rcases Scheduler.enqueueToScheduler_cases h s.pcbs p with
        ⟨_, hfull⟩ | ⟨_, _, he', _⟩
      · have hlt : i < s.sched.priorityQueues.length := by
          rw [h.numLevels hpol]
          unfold Scheduler.levelOf at hi
          split at hi
          · cases hi
          · obtain rfl := Option.some.inj hi
            simp only [minPriority, maxPriority, numPriorityLevels] at *
            omega
        have hget := List.getElem?_eq_getElem hlt
        have hsize := hfull _ (by rw [Scheduler.queueFor?_prio hpol, hi]; exact hget)
        have hpos := (h.levels _ (List.getElem_mem hlt)).capPos
        exact hasReady_of_level hpol hget (by omega)
      · rw [he] at he'
        cases he'
    · intro hready
      rw [Scheduler.hasReadyProcesses_iff, if_pos hpol] at hready ⊢
      exact hready

/-! ## The loop -/

/-- The iteration that takes `newPcb` preempts. -/
def Sys.Preempts (s : Sys) (newPcb : PcbPtr) : Prop :=
  canCpuExecuteProcess s.machine = false ∧ s.Outranks newPcb

instance (s : Sys) (p : PcbPtr) : Decidable (s.Outranks p) := by
  unfold Sys.Outranks
  infer_instance

instance (s : Sys) (p : PcbPtr) : Decidable (s.Preempts p) := by
  unfold Sys.Preempts
  infer_instance

/-- The first iteration of the transfer loop that preempts, if one does,
finds a state that is `ok`. -/
def TransferOk (ok : Sys → Prop) : Nat → Sys → Prop
  | 0, _ => True
  | n + 1, s =>
      match s.sched.readyQueue.dequeueProcess with
      | none => True
      | some (p, rq) =>
          let s := { s with sched := { s.sched with readyQueue := rq } }
          if s.Preempts p then ok s
          else
            match enqueueToScheduler s.sched s.pcbs p with
            | some sched => TransferOk ok n { s with sched }
            | none => True

theorem transferOk_true (n : Nat) (s : Sys) : TransferOk (fun _ => True) n s := by
  induction n generalizing s with
  | zero => trivial
  | succ n ih =>
      unfold TransferOk
      split
      · trivial
      · dsimp only
        split
        · trivial
        · split
          · exact ih _
          · trivial

instance decidableTransferOk (ok : Sys → Prop) [DecidablePred ok] :
    (n : Nat) → (s : Sys) → Decidable (TransferOk ok n s)
  | 0, _ => .isTrue trivial
  | n + 1, s =>
      match hd : s.sched.readyQueue.dequeueProcess with
      | none => decidable_of_iff True (by simp [TransferOk, hd])
      | some (p, rq) =>
          let t : Sys := { s with sched := { s.sched with readyQueue := rq } }
          match he : enqueueToScheduler t.sched t.pcbs p with
          | none => decidable_of_iff (if t.Preempts p then ok t else True) (by
              simp only [t] at he
              simp only [TransferOk, hd, he, t])
          | some sched =>
              have := decidableTransferOk ok n { t with sched }
              decidable_of_iff
                (if t.Preempts p then ok t else TransferOk ok n { t with sched }) (by
                  simp only [t] at he
                  simp only [TransferOk, hd, he, t])

theorem stays_of_not_preempts {s : Sys} (hpol : s.sched.policy = .preemptivePrio) {p : PcbPtr}
    (hpre : ¬ s.Preempts p) :
    (if canCpuExecuteProcess s.machine then s else preemptLowerPriorityProcesses s p) = s := by
  split
  · rfl
  · rename_i hcan
    rcases preempt_cases hpol p with ⟨_, he⟩ | ⟨hout, _⟩
    · exact he
    · exact absurd ⟨Bool.eq_false_iff.mpr hcan, hout⟩ hpre

/-- What one iteration of the loop does. -/
theorem transferReady_cases {s : Sys} (h : s.sched.WF) (hpol : s.sched.policy = .preemptivePrio)
    (n : Nat) :
    transferReady (n + 1) s = s ∨
    ∃ p t, Taken s p t ∧
      ((¬ t.Preempts p ∧
          ∃ u, Filed t p u ∧ (transferReady (n + 1) s = u ∨
            (transferReady (n + 1) s = transferReady n u ∧
              ∀ ok, TransferOk ok (n + 1) s → TransferOk ok n u))) ∨
        (t.Preempts p ∧ (∀ ok, TransferOk ok (n + 1) s → ok t) ∧
          ∀ v, preemptLowerPriorityProcesses t p = v → v.sched.WF →
            v.sched.policy = .preemptivePrio →
            v.sched.readyQueue.currentSize < v.sched.readyQueue.maxCapacity →
            ∃ u, Filed v p u ∧ (transferReady (n + 1) s = u ∨
              transferReady (n + 1) s = transferReady n u))) := by
  cases hd : s.sched.readyQueue.dequeueProcess with
  | none =>
      left
      simp only [transferReady, hd]
  | some pr =>
      obtain ⟨p, rq⟩ := pr
      right
      have htaken := taken_of_dequeue h hd
      refine ⟨p, _, htaken, ?_⟩
      by_cases hpre : Sys.Preempts { s with sched := { s.sched with readyQueue := rq } } p
      · right
        refine ⟨hpre, fun ok hok => ?_, ?_⟩
        · simpa only [TransferOk, hd, if_pos hpre] using hok
        -- after the preemption the process is filed, at the latest in `ready_queue`
        · rintro v rfl hwf hpolv hroom
          have hcan := hpre.1
          simp only at hcan
          simp only [transferReady, hd, hcan, Bool.false_eq_true, if_false]
          cases he : enqueueToScheduler (preemptLowerPriorityProcesses
              { s with sched := { s.sched with readyQueue := rq } } p).sched
              (preemptLowerPriorityProcesses
              { s with sched := { s.sched with readyQueue := rq } } p).pcbs p with
          | some sched => exact ⟨_, filed_of_enqueue hwf hpolv he, .inr rfl⟩
          | none => exact ⟨_, filed_of_putBack hwf hpolv hroom he, .inl rfl⟩
      · left
        refine ⟨hpre, ?_⟩
        -- with a free slot, or nobody to outrank, the machine stays
        have hstay : (if canCpuExecuteProcess s.machine then
            { s with sched := { s.sched with readyQueue := rq } } else
            preemptLowerPriorityProcesses
              { s with sched := { s.sched with readyQueue := rq } } p) =
            { s with sched := { s.sched with readyQueue := rq } } := by
          exact stays_of_not_preempts
            (s := { s with sched := { s.sched with readyQueue := rq } }) hpol hpre
        simp only [transferReady, hd, hstay]
        cases he : enqueueToScheduler { s.sched with readyQueue := rq } s.pcbs p with
        | some sched =>
            refine ⟨_, filed_of_enqueue htaken.wf hpol he, .inr ⟨rfl, fun ok hok => ?_⟩⟩
            simpa only [TransferOk, hd, if_neg hpre, he] using hok
        | none => exact ⟨_, filed_of_putBack htaken.wf hpol htaken.room he, .inl rfl⟩

/-- What every iteration without preemption keeps. -/
structure TransferInv (P : Sys → Prop) : Prop where
  wf : ∀ s, P s → s.sched.WF
  policy : ∀ s, P s → s.sched.policy = .preemptivePrio
  move : ∀ s p t u, P s → Taken s p t → Filed t p u → P u

/-- On a machine with a free slot nothing is preempted. -/
theorem transferReady_free {P : Sys → Prop} (hP : TransferInv P) (n : Nat) {s : Sys} (h : P s)
    (hcan : canCpuExecuteProcess s.machine = true) : P (transferReady n s) := by
  induction n generalizing s with
  | zero => exact h
  | succ n ih =>
      rcases transferReady_cases (hP.wf s h) (hP.policy s h) n with
        he | ⟨p, t, htaken, ⟨_, u, hfiled, he⟩ | ⟨hpre, _⟩⟩
      · rwa [he]
      · have hu := hP.move s p t u h htaken hfiled
        rcases he with he | ⟨he, _⟩
        · rwa [he]
        · rw [he]
          refine ih hu ?_
          rw [hfiled.eq, htaken.eq]
          exact hcan
      · have hno := hpre.1
        rw [htaken.eq] at hno
        rw [hcan] at hno
        cases hno

/-- The loop rule: `P` until something is preempted, `Q` from then on. -/
theorem transferReady_inv {P Q : Sys → Prop} (ok : Sys → Prop) (hP : TransferInv P)
    (hQ : TransferInv Q) (hQfree : ∀ s, Q s → canCpuExecuteProcess s.machine = true)
    (hpre : ∀ s p t, P s → Taken s p t → t.Preempts p → ok t →
      (preemptLowerPriorityProcesses t p).sched.WF ∧
      (preemptLowerPriorityProcesses t p).sched.policy = .preemptivePrio ∧
      (preemptLowerPriorityProcesses t p).sched.readyQueue.currentSize <
        (preemptLowerPriorityProcesses t p).sched.readyQueue.maxCapacity ∧
      ∀ u, Filed (preemptLowerPriorityProcesses t p) p u → Q u)
    (n : Nat) {s : Sys} (h : P s) (hok : TransferOk ok n s) :
    P (transferReady n s) ∨ Q (transferReady n s) := by
  induction n generalizing s with
  | zero => exact .inl h
  | succ n ih =>
      rcases transferReady_cases (hP.wf s h) (hP.policy s h) n with
        he | ⟨p, t, htaken, ⟨_, u, hfiled, he⟩ | ⟨hpreempts, hokt, hrest⟩⟩
      · rw [he]
        exact .inl h
      · have hu := hP.move s p t u h htaken hfiled
        rcases he with he | ⟨he, hoku⟩
        · rw [he]
          exact .inl hu
        · rw [he]
          exact ih hu (hoku ok hok)
      · obtain ⟨hwf, hpol, hroom, hfile⟩ := hpre s p t h htaken hpreempts (hokt ok hok)
        obtain ⟨u, hfiled, he⟩ := hrest _ rfl hwf hpol hroom
        right
        rcases he with he | he
        · rw [he]
          exact hfile u hfiled
        · rw [he]
          exact transferReady_free hQ n (hfile u hfiled) (hQfree u (hfile u hfiled))

end LocOS
