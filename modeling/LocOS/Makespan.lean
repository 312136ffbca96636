import LocOS.Lib.Sharing
import LocOS.Rounds
import LocOS.WorkConserving

/-!
# Makespan

When everybody is done. The scheduler is greedy: after a pass either nobody
waits or every hardware thread is at work. So the processes of a roomy system
end within the greedy bound: the TTL of all of them and, on all threads but
one, the longest, shared by the threads.
-/

namespace LocOS

open scoped List

/-- Ticks, one at least, and the passes after them, one at least: how an
interleaving goes on after a pass. -/
def Sys.turn (s : Sys) (n : Nat × Nat) : Sys :=
  (fun t => t.next .pass)^[n.2 + 1] ((fun t => t.next .tick)^[n.1 + 1] s)

/-- The rounds a process needs a hardware thread for at most. Without a tick
left it needs one to be completed in. -/
def Sys.work (s : Sys) (p : PcbPtr) : Nat := max 1 (s.left p)

/-- Nobody waits, or every hardware thread is at work. -/
def Sys.Packed (threads : Nat) (s : Sys) : Prop :=
  s.waiting ≠ [] → s.running.length = threads

namespace Roomy

variable {pids : List Int} {threads : Nat} {s : Sys}

/-! ## Ticks -/

/-- A tick moves nobody. -/
theorem tick_moves (h : Roomy pids s) :
    (s.next .tick).waiting = s.waiting ∧ (s.next .tick).running = s.running := by
  obtain ⟨hplaces, hrun, _⟩ := h.tick_left
  refine ⟨?_, hrun⟩
  have hplaces : (s.next .tick).running ++ (s.next .tick).waiting = s.running ++ s.waiting :=
    hplaces
  rw [show (s.next .tick).running = s.running from hrun] at hplaces
  exact List.append_cancel_left hplaces

/-- Ticks, one at least, take one from whoever executes. -/
theorem ticks_left (h : Roomy pids s) (hthreads : Sound threads s) (n : Nat) : ∃ t,
    (fun t : Sys => t.next .tick)^[n + 1] s = t ∧ Roomy pids t ∧ Sound threads t ∧
      t.waiting = s.waiting ∧ t.running = s.running ∧ (∀ q, t.left q ≤ s.left q) ∧
      ∀ q ∈ s.running, t.left q ≤ s.left q - 1 := by
  induction n with
  | zero =>
      obtain ⟨_, _, hle, hlt⟩ := h.tick_left
      exact ⟨_, rfl, h.clockTick, hthreads.next .tick, h.tick_moves.1, h.tick_moves.2, hle, hlt⟩
  | succ n ih =>
      obtain ⟨t, ht, hroomy, hsound, hwaiting, hrun, hle, hlt⟩ := ih
      obtain ⟨_, _, hle', _⟩ := hroomy.tick_left
      refine ⟨t.next .tick, ?_, hroomy.clockTick, hsound.next .tick,
        hroomy.tick_moves.1.trans hwaiting, hroomy.tick_moves.2.trans hrun,
        fun q => (hle' q).trans (hle q), fun q hq => (hle' q).trans (hlt q hq)⟩
      rw [Function.iterate_succ_apply', ht]

/-! ## Passes -/

/-- A pass leaves nobody waiting beside an idle thread. -/
theorem pass_packed (h : Roomy pids s) (hnd : pids.Nodup) (hthreads : Sound threads s) :
    (LocOS.schedulerPass s).Packed threads := by
  obtain ⟨hnext, _, hbusy⟩ := h.pass_left hnd
  obtain ⟨hsound, hstop⟩ := hthreads.schedulerPass
  intro hne
  cases hnext.uncrowded with
  | ring policy noLevels _ =>
      have hwaiting : (LocOS.schedulerPass s).waiting =
          (LocOS.schedulerPass s).sched.readyQueue.toList := by
        simp [Sys.waiting, Scheduler.waiting, noLevels]
      have hready : hasReadyProcesses (LocOS.schedulerPass s).sched = true := by
        rw [Scheduler.hasReadyProcesses_ready, Scheduler.ready_single (by rw [policy]; decide),
          ← hwaiting]
        exact hne
      rw [Sys.dispatchGuard, hready, Bool.true_and] at hstop
      rw [← hsound.threads]
      exact Machine.Compact.length_full hnext.compact hstop
  -- the only process executes
  | single one _ _ =>
      have hplaces : (LocOS.schedulerPass s).places ≠ [] := by
        rw [Sys.places]
        exact fun hnil => hne (List.append_eq_nil_iff.mp hnil).2
      obtain ⟨p, hp⟩ := List.exists_mem_of_ne_nil _ (hbusy hplaces)
      exact absurd (hnext.waiting_nil one hp) hne

theorem PassedOver.trans {t u : Sys} (h : PassedOver s [] t) (h' : PassedOver t [] u) :
    PassedOver s [] u := by
  intro q hq
  obtain ⟨hqt, httl, _⟩ := h' q hq
  obtain ⟨hqs, httl', hrun⟩ := h q hqt
  rw [httl]
  exact ⟨hqs, httl', hrun⟩

/-- Passes, one at least. -/
theorem passes_left (h : Roomy pids s) (hnd : pids.Nodup) (hthreads : Sound threads s) (n : Nat) :
    ∃ t, (fun t : Sys => t.next .pass)^[n + 1] s = t ∧ Roomy pids t ∧ Sound threads t ∧
      PassedOver s [] t ∧ t.Packed threads := by
  induction n with
  | zero =>
      obtain ⟨hroomy, hpassed, _⟩ := h.pass_left hnd
      exact ⟨_, rfl, hroomy, hthreads.next .pass, hpassed, h.pass_packed hnd hthreads⟩
  | succ n ih =>
      obtain ⟨t, ht, hroomy, hsound, hpassed, _⟩ := ih
      obtain ⟨hroomy', hpassed', _⟩ := hroomy.pass_left hnd
      refine ⟨t.next .pass, ?_, hroomy', hsound.next .pass, hpassed.trans hpassed',
        hroomy.pass_packed hnd hsound⟩
      rw [Function.iterate_succ_apply', ht]

/-! ## Turns -/

/-- What every turn keeps. -/
structure Busy (pids : List Int) (threads : Nat) (s : Sys) : Prop where
  roomy : Roomy pids s
  sound : Sound threads s
  packed : s.Packed threads

/-- A turn is a greedy round: whoever executes loses a tick of its TTL or is
completed. -/
theorem Busy.turn (h : Busy pids threads s) (hnd : pids.Nodup) (n : Nat × Nat) :
    Busy pids threads (s.turn n) ∧
      Sharing.Serves (fun s => s.places.toFinset) Sys.work threads s (s.turn n) := by
  obtain ⟨t, ht, hroomy, hsound, hwaiting, hrun, hle, hlt⟩ := h.roomy.ticks_left h.sound n.1
  obtain ⟨u, hu, hroomy', hsound', hpassed, hpacked⟩ := hroomy.passes_left hnd hsound n.2
  have hturn : s.turn n = u := by rw [Sys.turn, ht, hu]
  have hplaces : t.places = s.places := by rw [Sys.places, Sys.places, hrun, hwaiting]
  rw [hturn]
  have hwork : ∀ q ∈ u.places, u.left q = t.left q := fun q hq =>
    congrArg Int.toNat (hpassed q hq).2.1
  refine ⟨⟨hroomy', hsound', hpacked⟩, ?_, ?_, s.running.toFinset, ?_, ?_, ?_⟩
  · intro q hq
    rw [List.mem_toFinset] at hq ⊢
    rw [← hplaces]
    exact (hpassed q hq).1
  · intro q hq
    rw [List.mem_toFinset] at hq
    have hq' := hle q
    rw [Sys.work, Sys.work, hwork q hq]
    omega
  · intro q hq
    rw [List.mem_toFinset] at hq ⊢
    exact List.mem_append_left _ hq
  -- whoever executes and stays had more than one tick left
  · intro q hq hstays
    rw [List.mem_toFinset] at hq hstays
    have hpos : 0 < (u.pcbs.get q).ttl :=
      ((hpassed q hstays).2.2 (hrun ▸ hq)).resolve_left List.not_mem_nil
    have hleft : 0 < u.left q := Int.pos_iff_toNat_pos.mp hpos
    have hspent := hlt q hq
    rw [hwork q hstays] at hleft
    rw [Sys.work, Sys.work, hwork q hstays]
    omega
  · by_cases hwait : s.waiting = []
    · right
      rw [Sys.places, hwait, List.append_nil]
    · left
      rw [List.toFinset_card_of_nodup (h.roomy.conserved.nodup_running hnd)]
      exact Nat.le_of_eq (h.packed hwait).symm

/-- After the first pass, as many turns as the greedy bound says end
everybody. -/
theorem ends_within (h : Roomy pids s) (hnd : pids.Nodup) (hsound : Sound threads s)
    (hthreads : 0 < threads) (turns : List (Nat × Nat))
    (hlong : Sharing.potential (fun s => s.places.toFinset) Sys.work threads s / threads ≤
      turns.length) :
    (turns.foldl Sys.turn (s.next .pass)).places = [] ∧
      Roomy pids (turns.foldl Sys.turn (s.next .pass)) := by
  obtain ⟨t, ht, hroomy, hsound', hpassed, hpacked⟩ := h.passes_left hnd hsound 0
  have ht : s.next .pass = t := ht
  have hbusy : Busy pids threads t := ⟨hroomy, hsound', hpacked⟩
  have hkeep : ∀ s n, Busy pids threads s → Busy pids threads (s.turn n) := fun s n hs =>
    (hs.turn hnd n).1
  have hserves : ∀ s n, Busy pids threads s →
      Sharing.Serves (fun s => s.places.toFinset) Sys.work threads s (s.turn n) := fun s n hs =>
    (hs.turn hnd n).2
  have hpotential : Sharing.potential (fun s => s.places.toFinset) Sys.work threads t ≤
      Sharing.potential (fun s => s.places.toFinset) Sys.work threads s := by
    refine Sharing.potential_mono (fun q hq => ?_) fun q hq => ?_
    · rw [List.mem_toFinset] at hq ⊢
      exact (hpassed q hq).1
    · rw [List.mem_toFinset] at hq
      rw [Sys.work, Sys.work, Sys.left, Sys.left, (hpassed q hq).2.1]
  rw [ht]
  have hend := Sharing.all_end_within (Busy pids threads)
    (fun s _ q _ => Nat.le_max_left 1 (s.left q)) hkeep hserves hthreads turns hbusy
    ((Nat.div_le_div_right hpotential).trans hlong)
  exact ⟨(List.toFinset_eq_empty_iff _).mp hend,
    (Sharing.live_foldl_subset (Busy pids threads) hkeep hserves turns hbusy).1.roomy⟩

end Roomy

/-! ## Round Robin -/

/-- The greedy bound for Round Robin, for any machine with a hardware thread,
any processes with distinct PIDs, and from every reachable state on: however
the clock and the scheduler go on, if no two ticks in a row count for more
than one then all processes are completed after the next pass and
`(W + (T - 1) * L) / T` turns, where `W` is what is left of all TTLs, `L` the
longest of them and `T` the number of hardware threads. A process without TTL
left counts as one in `W` and `L`: it needs a thread to be completed on. -/
theorem roundRobin_makespan {cfg : Config} {pcbs : List PCB} (hpol : cfg.policy = .roundRobin)
    (hidle : cfg.machine.Idle) (hthreads : 0 < cfg.machine.threadCount)
    (hnd : (pcbs.map PCB.pid).Nodup) {s : Sys} (hs : (sysRuns cfg pcbs).Reachable s)
    (turns : List (Nat × Nat))
    (hlong : (∑ p ∈ s.places.toFinset, s.work p +
        (cfg.machine.threadCount - 1) * s.places.toFinset.sup s.work) / cfg.machine.threadCount ≤
      turns.length) :
    (turns.foldl Sys.turn (s.next .pass)).places = [] ∧
      completedPids (turns.foldl Sys.turn (s.next .pass)).log ~ pcbs.map PCB.pid := by
  have hfree : canCpuExecuteProcess cfg.machine = true := by
    by_contra hfull
    have hlen := hidle.compact.length_full (Bool.eq_false_iff.mpr hfull)
    rw [hidle.running, List.length_nil] at hlen
    omega
  obtain ⟨h, hsound⟩ : Roomy (pcbs.map PCB.pid) s ∧ Sound cfg.machine.threadCount s := by
    refine hs.invariant
      (fun s => Roomy (pcbs.map PCB.pid) s ∧ Sound cfg.machine.threadCount s) ?_ ?_
    · intro s hb
      have hbooted := boot_spec hb
      exact ⟨.boot hbooted hidle hfree (.inl hpol), .boot hbooted hidle.compact.bounded⟩
    · rintro s a t ⟨h, hsound⟩ rfl
      refine ⟨?_, hsound.next a⟩
      cases a with
      | tick => exact h.clockTick
      | pass => exact (h.pass_left hnd).1
  obtain ⟨hend, hroomy⟩ := h.ends_within hnd hsound hthreads turns hlong
  refine ⟨hend, ?_⟩
  have haccount := hroomy.conserved.account
  rw [hend, endedPids, show droppedPids _ = [] from hroomy.noneRefused, List.append_nil] at haccount
  exact haccount

/-- Three processes of ten ticks on two hardware threads: `(30 + 10) / 2`
turns, of a tick and a pass each. -/
theorem roundRobin_makespan_three : ∃ s, (sysRuns (oneCore 2 .roundRobin 3)
      [loadedPcb 1 0, loadedPcb 2 0, loadedPcb 3 0]).Reachable s ∧
    ((List.replicate 20 (0, 0)).foldl Sys.turn (s.next .pass)).places = [] ∧
    completedPids ((List.replicate 20 (0, 0)).foldl Sys.turn (s.next .pass)).log ~ [1, 2, 3] := by
  obtain ⟨s, hs⟩ : ∃ s, boot (oneCore 2 .roundRobin 3)
      [loadedPcb 1 0, loadedPcb 2 0, loadedPcb 3 0] = some s := ⟨_, rfl⟩
  have hreach : (sysRuns (oneCore 2 .roundRobin 3)
      [loadedPcb 1 0, loadedPcb 2 0, loadedPcb 3 0]).Reachable s := .init hs
  refine ⟨s, hreach, roundRobin_makespan rfl (Machine.createMachine_idle 1 1 2) (by decide)
    (by decide) hreach _ ?_⟩
  obtain rfl := Option.some.inj hs
  decide

end LocOS
