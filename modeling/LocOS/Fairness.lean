import LocOS.Lib.Fifo
import LocOS.RoundRobin

/-!
# Fairness

Round Robin serves in the order of arrival. The log is a history of
`ready_queue`: a dispatch takes out, a requeue puts in. It replays to the
queue as it is, so a process that waits is passed at most once by each other.
-/

namespace LocOS

open scoped List

/-! ## The history of the queue -/

/-- What the event did to `ready_queue`. -/
def Event.readyOp : Event → Option (Fifo.Op PcbPtr)
  | .assigned p _ => some (.take p)
  | .expired p _ true => some (.put p)
  | .putBack p _ true => some (.put p)
  | _ => none

/-- The dispatches, in order. -/
def dispatches (log : List Event) : List PcbPtr :=
  log.filterMap fun
    | .assigned p _ => some p
    | _ => none

/-- `ready_queue` after a log that started with `n` processes in load order. -/
def readyAfter (n : Nat) (log : List Event) : Option (List PcbPtr) :=
  Fifo.replay (List.range n) (log.filterMap Event.readyOp)

theorem taken_readyOps (log : List Event) :
    Fifo.taken (log.filterMap Event.readyOp) = dispatches log := by
  induction log with
  | nil => rfl
  | cons e log ih =>
      cases e with
      | assigned p pid => exact congrArg (p :: ·) ih
      | expired p pid enqueued => cases enqueued <;> exact ih
      | putBack p pid enqueued => cases enqueued <;> exact ih
      | _ => exact ih

theorem readyAfter_append (n : Nat) (log log' : List Event) :
    readyAfter n (log ++ log') =
      (readyAfter n log).bind fun q => Fifo.replay q (log'.filterMap Event.readyOp) := by
  rw [readyAfter, List.filterMap_append, Fifo.replay_append, readyAfter]

/-- The log tells the whole history of `ready_queue`, and no process was ever
in it twice. -/
structure History (n : Nat) (s : Sys) : Prop where
  ready : readyAfter n s.log = some s.sched.readyQueue.toList
  distinct : ∀ log, log <+: s.log → ∀ q, readyAfter n log = some q → q.Nodup

namespace History

variable {n : Nat} {s s' : Sys}

/-- A step that prints nothing and leaves the queue. -/
theorem same (h : History n s) (hlog : s'.log = s.log)
    (hready : s'.sched.readyQueue.toList = s.sched.readyQueue.toList) : History n s' where
  ready := by
    rw [hlog, hready]
    exact h.ready
  distinct := by
    rw [hlog]
    exact h.distinct

/-- A step and its event. -/
theorem step (h : History n s) {e : Event} (hlog : s'.log = s.log ++ [e])
    (hready : Fifo.replay s.sched.readyQueue.toList ([e].filterMap Event.readyOp) =
      some s'.sched.readyQueue.toList)
    (hnd : s'.sched.readyQueue.toList.Nodup) : History n s' := by
  have hnow : readyAfter n s'.log = some s'.sched.readyQueue.toList := by
    rw [hlog, readyAfter_append, h.ready]
    exact hready
  refine ⟨hnow, fun log hlog' q hq => ?_⟩
  rw [hlog] at hlog'
  rcases List.prefix_concat_iff.mp hlog' with rfl | hold
  · rw [← hlog, hnow] at hq
    exact Option.some.inj hq ▸ hnd
  · exact h.distinct log hold q hq

end History

/-! ## Round Robin keeps the history -/

namespace RoundRobin

variable {pids : List Int} {n : Nat} {s : Sys}

theorem nodup_ready (h : RoundRobin pids s) (hnd : pids.Nodup) :
    s.sched.readyQueue.toList.Nodup := by
  rw [← h.waiting_eq]
  exact (h.conserved.nodup hnd).of_append_right

/-- A requeue puts the process at the rear. -/
theorem enqueue_ready {sched sched' : Scheduler} (hwf : sched.WF)
    (hpol : sched.policy ≠ .preemptivePrio) {pcbs : PcbHeap} {p : PcbPtr}
    (h : enqueueToScheduler sched pcbs p = some sched') :
    sched'.readyQueue.toList = sched.readyQueue.toList ++ [p] := by
  rw [Scheduler.enqueueToScheduler_single hpol] at h
  obtain ⟨rq, hrq, rfl⟩ := Option.map_eq_some_iff.mp h
  obtain ⟨_, _, hl, _⟩ := ProcessQueue.enqueueProcess_some hwf.ready hrq
  exact hl

/-- A selection takes the process from the front. -/
theorem select_ready {sched sched' : Scheduler} (hwf : sched.WF)
    (hpol : sched.policy = .roundRobin) {pcbs : PcbHeap} {p : PcbPtr}
    (h : selectNextProcess sched pcbs = some (p, sched')) :
    sched.readyQueue.toList = p :: sched'.readyQueue.toList := by
  simp only [selectNextProcess, hpol] at h
  obtain ⟨⟨q, rq⟩, hrq, he⟩ := Option.map_eq_some_iff.mp h
  obtain ⟨rfl, rfl⟩ := Prod.mk.inj he
  exact (ProcessQueue.dequeueProcess_some hwf.ready hrq).2.1

theorem history_tickThread (h : RoundRobin pids s) (hh : History n s) (hnd : pids.Nodup)
    (hc : s.machine.Compact) (i j k : Nat) : History n (LocOS.tickThread i j k s) := by
  have hnext := (h.tickThread hnd hc i j k).nodup_ready hnd
  rcases tickThread_cases i j k s with
    ⟨_, he⟩ | ⟨core, hw, p, _, _, he⟩ | ⟨core, hw, p, pm, base, _, _, _, _, he⟩
  · rwa [he]
  · rw [he]
    exact hh.same rfl rfl
  · rw [he] at hnext ⊢
    exact hh.step exec_log rfl hnext

theorem history_scanThread (h : RoundRobin pids s) (hh : History n s) (hnd : pids.Nodup)
    (hc : s.machine.Compact) {i j k : Nat} {core : Core} {hw : HardwareThread} {p : PcbPtr}
    (hslot : s.machine.slot? i j k = some (core, hw, p)) :
    History n (LocOS.scanThread i j k s) := by
  have hnext := (h.scanThread hnd hc hslot).nodup_ready hnd
  have hprio : (s.charge p).sched.policy ≠ .preemptivePrio := by
    show s.sched.policy ≠ .preemptivePrio
    rw [h.policy]
    decide
  rcases scanThread_cases hslot with ⟨_, he⟩ | ⟨_, _, he⟩ | ⟨_, _, he⟩
  · rw [he] at hnext ⊢
    exact hh.step rfl rfl hnext
  · rw [he] at hnext ⊢
    rcases expireThread_cases (h.charge p).conserved.queues i j k core hw p with
      ⟨sched, henq, _, _, _, hexp⟩ | ⟨_, hexp⟩
    · rw [hexp] at hnext ⊢
      refine hh.step rfl ?_ hnext
      rw [enqueue_ready (h.charge p).conserved.queues hprio henq]
      rfl
    · rw [hexp] at hnext ⊢
      exact hh.step rfl rfl hnext
  · rw [he]
    exact hh.same rfl rfl

theorem history_dispatched (h : RoundRobin pids s) (hh : History n s) {p : PcbPtr}
    {sched : Scheduler} {i j : Nat} {core : Core} (hnext : sched.readyQueue.toList.Nodup)
    (hsel : selectNextProcess s.sched s.pcbs = some (p, sched)) :
    History n (s.dispatched sched p i j core) := by
  refine hh.step rfl ?_ hnext
  rw [select_ready h.conserved.queues h.policy hsel]
  exact if_pos rfl

/-- A critical section of the clock or of the scheduler keeps the history. -/
theorem history_next (h : RoundRobin pids s) (hh : History n s) (hnd : pids.Nodup)
    (hc : s.machine.Compact) (a : Action) : History n (s.next a) := by
  cases a with
  | tick =>
      have hinv := clockTick_inv (s := s)
        (fun t => (RoundRobin pids t ∧ History n t) ∧ t.machine.Compact)
        ⟨⟨h.tickEvent, hh.step rfl rfl (h.nodup_ready hnd)⟩, hc⟩
        fun i j k t ht => ⟨⟨ht.1.1.tickThread hnd ht.2 i j k,
          ht.1.1.history_tickThread ht.1.2 hnd ht.2 i j k⟩, (tickThread_machine ht.2 i j k).1⟩
      exact hinv.1.2
  | pass =>
      exact (h.schedulerPass_inv hnd hc (fun _ => History n)
        (fun _ _ _ _ _ _ _ _ hrt hct hslot ht => hrt.history_scanThread ht hnd hct hslot)
        (fun _ _ _ _ _ _ hrt _ hnext _ _ _ _ hsel ht =>
          hrt.history_dispatched ht (hnext.nodup_ready hnd) hsel) hh).2.2

end RoundRobin

theorem History.boot {cfg : Config} {pcbs : List PCB} {s : Sys} (h : Booted cfg pcbs s) :
    History pcbs.length s where
  ready := by
    rw [h.log, h.readyList]
    rfl
  distinct := by
    intro log hlog q hq
    rw [h.log, List.prefix_nil] at hlog
    rw [hlog] at hq
    exact Option.some.inj hq ▸ List.nodup_range

/-- Round Robin is fair, for any machine, any processes with distinct PIDs and
any interleaving of ticks and scheduler passes. The log replays to
`ready_queue`, and during any stretch of it in which `w` waits without being
dispatched no process is dispatched twice. -/
theorem roundRobin_fair {cfg : Config} {pcbs : List PCB} (hpol : cfg.policy = .roundRobin)
    (hidle : cfg.machine.Idle) (hnd : (pcbs.map PCB.pid).Nodup) {s : Sys}
    (hs : (sysRuns cfg pcbs).Reachable s) :
    readyAfter pcbs.length s.log = some s.sched.readyQueue.toList ∧
      ∀ past stretch rest, s.log = past ++ stretch ++ rest →
        ∃ q, readyAfter pcbs.length past = some q ∧
          ∀ w ∈ q, w ∉ dispatches stretch → ∀ p, (dispatches stretch).count p ≤ 1 := by
  obtain ⟨h, hh, hc⟩ : RoundRobin (pcbs.map PCB.pid) s ∧ History pcbs.length s ∧
      s.machine.Compact := by
    refine hs.invariant (fun s => RoundRobin (pcbs.map PCB.pid) s ∧ History pcbs.length s ∧
      s.machine.Compact) ?_ ?_
    · intro s hb
      have hbooted := boot_spec hb
      exact ⟨.boot hbooted hpol hidle, .boot hbooted, hbooted.machine ▸ hidle.compact⟩
    · rintro s a t ⟨h, hh, hc⟩ rfl
      have hnext := h.next hnd hc a
      exact ⟨hnext.1, h.history_next hh hnd hc a, hnext.2⟩
  refine ⟨hh.ready, fun past stretch rest hlog => ?_⟩
  -- the whole log replays, so every part of it does
  have hwhole := hh.ready
  rw [hlog, readyAfter_append] at hwhole
  obtain ⟨q', hq', _⟩ := Option.bind_eq_some_iff.mp hwhole
  rw [readyAfter_append] at hq'
  obtain ⟨q, hq, hreplay⟩ := Option.bind_eq_some_iff.mp hq'
  refine ⟨q, hq, fun w hw hnot p => ?_⟩
  have hprefix : past <+: s.log := by
    rw [hlog, List.append_assoc]
    exact List.prefix_append ..
  rw [← taken_readyOps] at hnot ⊢
  exact Fifo.count_taken_le (hh.distinct past hprefix q hq) hreplay hw hnot p

/-- Three processes on one hardware thread: the third waits while the first
and the second run. -/
theorem roundRobin_fair_three : ∃ s, (sysRuns (oneCore 1 .roundRobin 1)
      [loadedPcb 1 0, loadedPcb 2 0, loadedPcb 3 0]).Reachable s ∧
    dispatches s.log = [0, 1] ∧ 2 ∈ s.sched.readyQueue.toList ∧
    ∀ p, (dispatches s.log).count p ≤ 1 := by
  obtain ⟨s, hs⟩ : ∃ s, boot (oneCore 1 .roundRobin 1)
      [loadedPcb 1 0, loadedPcb 2 0, loadedPcb 3 0] = some s := ⟨_, rfl⟩
  have hreach := reachable_next (reachable_next (.init hs) .pass) .pass
  have hrun : dispatches (s.next .pass |>.next .pass).log = [0, 1] ∧
      2 ∈ (s.next .pass |>.next .pass).sched.readyQueue.toList := by
    obtain rfl := Option.some.inj hs
    decide
  refine ⟨_, hreach, hrun.1, hrun.2, ?_⟩
  obtain ⟨q, hq, hfair⟩ := (roundRobin_fair rfl (Machine.createMachine_idle 1 1 1) (by decide)
    hreach).2 [] _ [] (by rw [List.nil_append, List.append_nil])
  refine hfair 2 ?_ ?_
  · rw [← Option.some.inj hq]
    decide
  · rw [hrun.1]
    decide

end LocOS
