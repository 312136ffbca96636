import LocOS.Deadlines
import LocOS.Output
import LocOS.Report
import LocOS.Response

/-!
# BfsRuns

Whole runs under BFS. A process that expires comes back with a deadline
counted from the clock, so once the clock has gone past the deadline of a
process that waits, nobody comes between it and those with earlier deadlines.
From then on it is served as in a first-in first-out queue, and nobody
starves.
-/

namespace LocOS

open scoped List

/-- The runs in which the scheduler starts at clock value `started`: the clock
runs while `main` loads. -/
def lateRuns (cfg : Config) (pcbs : List PCB) (started : Int) : Runs Sys Action where
  init s := ∃ sys, boot cfg pcbs = some sys ∧ s = { sys with clkCounter := started }
  step s a t := t = s.next a

theorem Booted.late {cfg : Config} {pcbs : List PCB} {s : Sys} (h : Booted cfg pcbs s)
    (started : Int) : Booted cfg pcbs { s with clkCounter := started } :=
  { h with }

/-! ## Deadlines in a step -/

namespace Sys

/-- The virtual deadline of a process. -/
def deadline (s : Sys) (p : PcbPtr) : Int := (s.pcbs.get p).virtualDeadline

/-- The deadline `p` would get if its quantum expired now. -/
def nextDeadline (s : Sys) (p : PcbPtr) : Int :=
  bfsDeadline s.sched s.clkCounter (s.pcbs.get p).priority

/-- What a step does to the deadlines: `gone` are dispatched from `ready_queue`,
`come` enter it with the deadline that the clock gives them, the others keep
theirs. -/
structure Moves (gone come : List PcbPtr) (s t : Sys) : Prop where
  log : ∃ events, t.log = s.log ++ events ∧ dispatches events = gone
  places : ∀ q ∈ t.places, q ∈ s.places ∧ t.nextDeadline q = s.nextDeadline q
  waiting : s.waiting ++ come ~ gone ++ t.waiting
  kept : ∀ q ∈ s.waiting, q ∈ t.waiting → t.deadline q = s.deadline q
  came : ∀ q ∈ come, q ∈ s.places ∧ t.deadline q = s.nextDeadline q

end Sys

/-- A step that leaves the queues and the clock, and the fields of the PCBs
that deadlines are made of. -/
theorem Sys.Moves.same {s t : Sys}
    (hlog : ∃ events, t.log = s.log ++ events ∧ dispatches events = [])
    (hplaces : ∀ q ∈ t.places, q ∈ s.places)
    (hsched : t.sched.quantum = s.sched.quantum) (hclk : t.clkCounter = s.clkCounter)
    (hwaiting : t.waiting = s.waiting)
    (hprio : ∀ q ∈ t.places, (t.pcbs.get q).priority = (s.pcbs.get q).priority)
    (hdeadline : ∀ q ∈ t.waiting, t.deadline q = s.deadline q) : Moves [] [] s t where
  log := hlog
  places := by
    intro q hq
    refine ⟨hplaces q hq, ?_⟩
    rw [nextDeadline, nextDeadline, bfsDeadline, bfsDeadline, hsched, hclk, hprio q hq]
  waiting := by
    rw [hwaiting, List.append_nil]
    exact .refl _
  kept := fun q _ hq => hdeadline q hq
  came := fun q hq => absurd hq List.not_mem_nil

namespace OneQueue

variable {pids : List Int} {s : Sys}

theorem moves_tickThread (hc : s.machine.Compact) (i j k : Nat) :
    Sys.Moves [] [] s (LocOS.tickThread i j k s) := by
  obtain ⟨hsched, hrun, _, hprio⟩ := Ranked.tickThread_same hc i j k
  obtain ⟨hclk, hlog⟩ : (LocOS.tickThread i j k s).clkCounter = s.clkCounter ∧
      ∃ events, (LocOS.tickThread i j k s).log = s.log ++ events ∧ dispatches events = [] := by
    rcases tickThread_cases i j k s with
      ⟨_, he⟩ | ⟨_, _, _, _, _, he⟩ | ⟨_, _, _, _, _, _, _, _, _, he⟩
    · rw [he]
      exact ⟨rfl, [], (List.append_nil _).symm, rfl⟩
    · rw [he]
      exact ⟨rfl, [], (List.append_nil _).symm, rfl⟩
    · rw [he]
      exact ⟨rfl, _, exec_log, rfl⟩
  have hwaiting : (LocOS.tickThread i j k s).waiting = s.waiting :=
    congrArg Scheduler.waiting hsched
  refine .same hlog (fun q hq => ?_) (congrArg Scheduler.quantum hsched) hclk hwaiting
    (fun q _ => hprio q) fun q _ => ?_
  · rwa [Sys.places, hrun, hwaiting] at hq
  · exact tickThread_field PCB.virtualDeadline PCB.decrementTtl_virtualDeadline
      (fun _ _ => rfl) i j k s q

theorem charge_field {α : Type*} (f : PCB → α) (hf : ∀ pcb, f (PCB.charge pcb) = f pcb) (s : Sys)
    (p q : PcbPtr) : f ((s.charge p).pcbs.get q) = f (s.pcbs.get q) :=
  PcbHeap.get_set_congr f s.pcbs (hf _) q

theorem moves_charge (s : Sys) (p : PcbPtr) : Sys.Moves [] [] s (s.charge p) :=
  .same ⟨[], (List.append_nil _).symm, rfl⟩ (fun _ => id) rfl rfl rfl
    (fun q _ => charge_field PCB.priority (fun _ => rfl) s p q)
    fun q _ => charge_field PCB.virtualDeadline (fun _ => rfl) s p q

/-- Whoever leaves its thread with its quantum expired gets the deadline that
the clock gives it. -/
theorem moves_scanThread (h : OneQueue .bfs pids s) (hnd : pids.Nodup)
    (hc : s.machine.Compact) {i j k : Nat} {core : Core} {hw : HardwareThread} {p : PcbPtr}
    (hslot : s.machine.slot? i j k = some (core, hw, p)) :
    ∃ come, Sys.Moves [] come s (LocOS.scanThread i j k s) := by
  have hpr := Machine.mem_running_of_slot hc hslot
  have hpl := h.conserved.live p (List.mem_append_left _ hpr)
  have hrun := Machine.running_removeThread_perm hc hslot
  have hwait : ∀ q ∈ s.waiting, q ≠ p := by
    rintro q hq rfl
    exact List.disjoint_of_nodup_append (h.conserved.nodup hnd) hpr hq
  have hgone : ∀ q ∈ (s.machine.setCore i j (core.removeThread k)).running, q ∈ s.running ∧ q ≠ p :=
    fun q hq => (Machine.mem_running_removeThread hc (h.conserved.nodup_running hnd) hslot).mp hq
  have hother : ∀ q, q ≠ p → (LocOS.scanThread i j k s).pcbs.get q = s.pcbs.get q :=
    fun q hq => scanThread_get_ne hslot hq
  rcases scanThread_cases hslot with ⟨_, he⟩ | ⟨_, _, he⟩ | ⟨_, _, he⟩
  -- completed
  · refine ⟨[], ?_⟩
    have hstays : ∀ q ∈ (LocOS.scanThread i j k s).places, q ∈ s.places ∧ q ≠ p := by
      intro q hq
      rw [he] at hq
      rcases List.mem_append.mp hq with hq | hq
      · exact ⟨List.mem_append_left _ (hgone q hq).1, (hgone q hq).2⟩
      · exact ⟨List.mem_append_right _ hq, hwait q hq⟩
    have hlog : ∃ events, (LocOS.scanThread i j k s).log = s.log ++ events ∧
        dispatches events = [] := by
      rw [he]
      exact ⟨_, rfl, rfl⟩
    refine .same hlog (fun q hq => (hstays q hq).1) (by rw [he]; rfl) (by rw [he]; rfl)
      (by rw [he]; rfl) (fun q hq => by rw [hother q (hstays q hq).2]) fun q hq => ?_
    rw [Sys.deadline, hother q (hstays q (List.mem_append_right _ hq)).2, Sys.deadline]
  -- expired
  · rcases expireThread_cases (h.charge p).conserved.queues i j k core hw p with
      ⟨sched, _, _, hsame, hperm, hexp⟩ | ⟨hnone, _⟩
    · refine ⟨[p], ?_⟩
      rw [hexp] at he
      rw [he] at hother ⊢
      have hperm : sched.waiting ~ p :: s.waiting := hperm
      refine ⟨⟨_, rfl, rfl⟩, fun q hq => ?_, ?_, fun q hq _ => ?_, fun q hq => ?_⟩
      · refine ⟨?_, ?_⟩
        · rcases List.mem_append.mp hq with hq | hq
          · exact List.mem_append_left _ (hgone q hq).1
          · rcases List.mem_cons.mp (hperm.mem_iff.mp hq) with rfl | hq
            · exact List.mem_append_left _ hpr
            · exact List.mem_append_right _ hq
        · have hprio : (((s.charge p).pcbs.set p (expiredPcb (s.charge p) hw p)).get q).priority =
              (s.pcbs.get q).priority :=
            (PcbHeap.get_set_congr PCB.priority (s.charge p).pcbs (expiredPcb_priority ..) q).trans
              (charge_field PCB.priority (fun _ => rfl) s p q)
          rw [Sys.nextDeadline, Sys.nextDeadline, bfsDeadline, bfsDeadline, hprio]
          rw [show sched.quantum = s.sched.quantum from hsame.quantum]
          rfl
      · exact List.perm_append_singleton _ _ |>.trans hperm.symm
      · rw [Sys.deadline, hother q (hwait q hq), Sys.deadline]
      · obtain rfl := List.mem_singleton.mp hq
        refine ⟨List.mem_append_left _ hpr, ?_⟩
        have hlive : (s.charge q).pcbs.Live q := (PcbHeap.live_set ..).mpr hpl
        have hget : (s.charge q).pcbs.get q = (s.pcbs.get q).charge := PcbHeap.get_set_self hpl _
        show (((s.charge q).pcbs.set q _).get q).virtualDeadline = _
        rw [PcbHeap.get_set_self hlive, expiredPcb, if_pos (h.charge q).samePolicy, hget]
        rfl
    · exact absurd hnone ((h.charge p).accepts hpr _ p)
  · rw [he]
    exact ⟨[], moves_charge s p⟩

theorem moves_dispatched (h : OneQueue .bfs pids s) (hnd : pids.Nodup) (hc : s.machine.Compact)
    {p : PcbPtr} {sched : Scheduler} {i j : Nat} {core : Core}
    (hcore : s.machine.core? i j = some core) (hspace : core.hasSpace = true)
    (hsame : Scheduler.SameConfig s.sched sched) (hperm : s.sched.waiting ~ p :: sched.waiting) :
    Sys.Moves [p] [] s (s.dispatched sched p i j core) := by
  have hplaces := s.places_dispatched hc.counted hcore hspace hperm
  have hnodup : (p :: sched.waiting).Nodup :=
    hperm.nodup_iff.mp (h.conserved.nodup hnd).of_append_right
  refine ⟨⟨_, rfl, rfl⟩, fun q hq => ⟨hplaces.mem_iff.mpr hq, ?_⟩, ?_, fun q _ hq => ?_,
    fun q hq => absurd hq List.not_mem_nil⟩
  · have hprio : ((s.started sched p).get q).priority = (s.pcbs.get q).priority :=
      PcbHeap.get_set_congr PCB.priority s.pcbs (PCB.start_priority ..) q
    rw [Sys.nextDeadline, Sys.nextDeadline, bfsDeadline, bfsDeadline]
    rw [show ((s.dispatched sched p i j core).pcbs.get q).priority = _ from hprio,
      show (s.dispatched sched p i j core).sched.quantum = _ from hsame.quantum]
    rfl
  · rw [List.append_nil]
    exact hperm
  · have hne : q ≠ p := by
      rintro rfl
      exact (List.nodup_cons.mp hnodup).1 hq
    show ((s.started sched p).get q).virtualDeadline = _
    rw [Sys.started, PcbHeap.get_set_ne _ hne]
    rfl

end OneQueue

/-! ## Deadlines that are not negative -/

/-- No deadline is negative, and none will be. -/
structure Floored (s : Sys) : Prop where
  waiting : ∀ q ∈ s.waiting, 0 ≤ s.deadline q
  next : ∀ q ∈ s.places, 0 ≤ s.nextDeadline q

namespace Floored

variable {gone come : List PcbPtr} {s t : Sys}

theorem moves (h : Floored s) (hm : Sys.Moves gone come s t) : Floored t where
  waiting := by
    intro q hq
    have hmem : q ∈ s.waiting ++ come :=
      hm.waiting.mem_iff.mpr (List.mem_append_right _ hq)
    rcases List.mem_append.mp hmem with hwait | hcome
    · rw [hm.kept q hwait hq]
      exact h.waiting q hwait
    · obtain ⟨hplace, hdeadline⟩ := hm.came q hcome
      rw [hdeadline]
      exact h.next q hplace
  next := by
    intro q hq
    obtain ⟨hplace, hnext⟩ := hm.places q hq
    rw [hnext]
    exact h.next q hplace

end Floored

theorem Sys.nextDeadline_tick (s : Sys) (q : PcbPtr) :
    ({ s with clkCounter := s.clkCounter + 1
              log := s.log ++ [Event.tick (s.clkCounter + 1)] } : Sys).nextDeadline q =
      s.nextDeadline q + 1 := by
  simp only [nextDeadline, bfsDeadline]
  omega

/-- What a step does to the deadlines decides what a whole tick keeps, once it
survives the count. -/
theorem OneQueue.clockTick_moves {s : Sys} (hc : s.machine.Compact)
    (P : Sys → Prop)
    (hcount : P { s with clkCounter := s.clkCounter + 1
                         log := s.log ++ [Event.tick (s.clkCounter + 1)] })
    (hmoves : ∀ t u, Sys.Moves [] [] t u → P t → P u) : P (clockTick s) := by
  have htick := clockTick_inv (s := s) (fun t => P t ∧ t.machine.Compact) ⟨hcount, hc⟩
    fun i j k t ht => ⟨hmoves t _ (moves_tickThread ht.2 i j k) ht.1,
      (tickThread_machine ht.2 i j k).1⟩
  exact htick.1

theorem Floored.next_action {pids : List Int} {s : Sys} (h : Floored s)
    (hq : OneQueue .bfs pids s) (hnd : pids.Nodup) (hc : s.machine.Compact) (a : Action) :
    Floored (s.next a) := by
  cases a with
  | tick =>
      refine OneQueue.clockTick_moves hc Floored ⟨h.waiting, fun q hq => ?_⟩
        fun t u hm ht => ht.moves hm
      have hnext := h.next q hq
      rw [s.nextDeadline_tick]
      omega
  | pass =>
      refine (hq.schedulerPass_inv hnd hc (fun _ => Floored) ?_ ?_ h).2.2
      · rintro todo i j k t core hw p hqt hct hslot ht
        obtain ⟨come, hm⟩ := hqt.moves_scanThread hnd hct hslot
        exact ht.moves hm
      · rintro t p sched i j core hqt hct hcore hspace - hsame hperm - ht
        exact ht.moves (hqt.moves_dispatched hnd hct hcore hspace hsame hperm)

/-! ## Those with earlier deadlines -/

/-- Those that wait with no later deadline than `p`. -/
def Sys.earlier (s : Sys) (p : PcbPtr) : List PcbPtr :=
  s.waiting.filter fun q => q ≠ p ∧ s.deadline q ≤ s.deadline p

/-- `p` waits, those with no later deadline are ahead of it, and whoever comes
from now on will have a later one. -/
structure Overdue (p : PcbPtr) (s : Sys) (ps : List PcbPtr) : Prop where
  floored : Floored s
  waits : p ∈ s.waiting
  ahead : ps ~ s.earlier p
  late : ∀ q ∈ s.places, s.deadline p < s.nextDeadline q

namespace Overdue

variable {p : PcbPtr} {come ps : List PcbPtr} {s t : Sys}

/-- Whoever comes has a later deadline. -/
theorem earlier_come (h : Overdue p s ps) (hm : Sys.Moves [] come s t) :
    s.earlier p ~ t.earlier p := by
  have hmem : ∀ q ∈ s.waiting, q ∈ t.waiting := fun q hq =>
    hm.waiting.mem_iff.mp (List.mem_append_left _ hq)
  have hkept : ∀ q ∈ s.waiting, t.deadline q = s.deadline q := fun q hq =>
    hm.kept q hq (hmem q hq)
  have hnone : come.filter (fun q => q ≠ p ∧ t.deadline q ≤ t.deadline p) = [] := by
    refine List.filter_eq_nil_iff.mpr fun q hq => ?_
    obtain ⟨hplace, hdeadline⟩ := hm.came q hq
    have hlt := h.late q hplace
    have hp := hkept p h.waits
    simp only [decide_eq_true_eq, not_and]
    omega
  have hperm := hm.waiting.filter fun q => q ≠ p ∧ t.deadline q ≤ t.deadline p
  rw [List.filter_append, hnone, List.append_nil, List.nil_append] at hperm
  refine (List.Perm.of_eq (List.filter_congr fun q hq => ?_)).trans hperm
  rw [hkept q hq, hkept p h.waits]

/-- Whoever goes leaves the others with their deadlines. -/
theorem earlier_gone {r : PcbPtr} (h : Overdue p s ps) (hm : Sys.Moves [r] [] s t) (hne : r ≠ p)
    (hle : s.deadline r ≤ s.deadline p) : s.earlier p ~ r :: t.earlier p := by
  have hwaiting : s.waiting ~ r :: t.waiting := by
    have hperm := hm.waiting
    rwa [List.append_nil] at hperm
  have hmem : ∀ q ∈ t.waiting, q ∈ s.waiting := fun q hq =>
    hwaiting.mem_iff.mpr (List.mem_cons_of_mem r hq)
  have hkept : ∀ q ∈ t.waiting, t.deadline q = s.deadline q := fun q hq =>
    hm.kept q (hmem q hq) hq
  have hp : p ∈ t.waiting :=
    (List.mem_cons.mp (hwaiting.mem_iff.mp h.waits)).resolve_left fun he => hne he.symm
  have hperm := hwaiting.filter fun q => q ≠ p ∧ s.deadline q ≤ s.deadline p
  rw [List.filter_cons_of_pos (by simpa using ⟨hne, hle⟩)] at hperm
  refine hperm.trans (.of_eq (congrArg (r :: ·) (List.filter_congr fun q hq => ?_)))
  rw [hkept q hq, hkept p hp]

theorem late_moves {gone : List PcbPtr} (h : Overdue p s ps) (hm : Sys.Moves gone come s t)
    (hpt : p ∈ t.waiting) : ∀ q ∈ t.places, t.deadline p < t.nextDeadline q := by
  intro q hq
  obtain ⟨hplace, hnext⟩ := hm.places q hq
  rw [hm.kept p h.waits hpt, hnext]
  exact h.late q hplace

theorem comes (h : Overdue p s ps) (hm : Sys.Moves [] come s t) : Overdue p t ps := by
  have hpt : p ∈ t.waiting := hm.waiting.mem_iff.mp (List.mem_append_left _ h.waits)
  exact ⟨h.floored.moves hm, hpt, h.ahead.trans (h.earlier_come hm), h.late_moves hm hpt⟩

theorem goes {r : PcbPtr} (h : Overdue p s ps) (hm : Sys.Moves [r] [] s t) (hne : r ≠ p)
    (hle : s.deadline r ≤ s.deadline p) : ps ~ r :: t.earlier p ∧ Overdue p t (t.earlier p) := by
  have hpt : p ∈ t.waiting := by
    have hmem := hm.waiting.mem_iff.mp (List.mem_append_left _ h.waits)
    exact (List.mem_cons.mp hmem).resolve_left fun he => hne he.symm
  exact ⟨h.ahead.trans (h.earlier_gone hm hne hle), h.floored.moves hm, hpt, .refl _,
    h.late_moves hm hpt⟩

theorem tickEvent (h : Overdue p s ps) :
    Overdue p { s with clkCounter := s.clkCounter + 1
                       log := s.log ++ [Event.tick (s.clkCounter + 1)] } ps where
  floored := by
    refine ⟨h.floored.waiting, fun q hq => ?_⟩
    have hnext := h.floored.next q hq
    rw [s.nextDeadline_tick]
    omega
  waits := h.waits
  ahead := h.ahead
  late := by
    intro q hq
    have hlate := h.late q hq
    rw [s.nextDeadline_tick]
    exact Int.lt_add_one_of_le (Int.le_of_lt hlate)

end Overdue

/-- BFS serves an overdue process after those with earlier deadlines. -/
theorem overdue_discipline {pids : List Int} (hnd : pids.Nodup) (p : PcbPtr) :
    Discipline .bfs pids p (Overdue p) where
  waits := fun _ h => h.waits
  tick := by
    intro s ps _ hc h
    exact OneQueue.clockTick_moves hc (Overdue p · ps) h.tickEvent fun t u hm ht => ht.comes hm
  scan := by
    intro s ps i j k core hw q hq hc hslot h
    obtain ⟨come, hm⟩ := hq.moves_scanThread hnd hc hslot
    exact h.comes hm
  dispatch := by
    intro s ps q sched i j core hq hc hcore hspace _ hsame hperm hsel h
    by_cases hqp : q = p
    · exact .inl hqp
    · have hready : hasReadyProcesses s.sched = true := by
        rw [Scheduler.hasReadyProcesses_ready,
          Scheduler.ready_single (hq.samePolicy.trans_ne hq.single), ← hq.waiting_eq]
        exact List.ne_nil_of_mem h.waits
      obtain ⟨n, _, _, hsel', hleast⟩ := Scheduler.selectNextProcess_position
        hq.conserved.queues hq.samePolicy s.pcbs hready
      obtain ⟨rfl, -⟩ := Prod.mk.inj (Option.some.inj (hsel.symm.trans hsel'))
      -- no deadline is negative, so the scan finds the least
      have hle := hleast (fun r hr => h.floored.waiting r (hq.waiting_eq ▸ hr)) p
        (hq.waiting_eq ▸ h.waits)
      exact .inr ⟨_, h.goes (hq.moves_dispatched hnd hc hcore hspace hsame hperm) hqp hle⟩

/-! ## Waiting for the clock -/

/-- Since `s₀` the process `p` was dispatched, or it waits with the deadline it
had, and whoever comes would get a deadline `ticks` later than then. -/
structure Unserved (s₀ : Sys) (p : PcbPtr) (ticks : Nat) (s : Sys) : Prop where
  outcome : ∃ stretch, s.log = s₀.log ++ stretch ∧
    (p ∈ dispatches stretch ∨ (p ∈ s.waiting ∧ s.deadline p = s₀.deadline p ∧
      ∀ q ∈ s.places, q ∈ s₀.places ∧ s₀.nextDeadline q + ticks ≤ s.nextDeadline q))

namespace Unserved

variable {s₀ s t : Sys} {p : PcbPtr} {ticks : Nat}

theorem start (hp : p ∈ s.waiting) : Unserved s p 0 s :=
  ⟨[], (List.append_nil _).symm, .inr ⟨hp, rfl, fun _ hq => ⟨hq, Int.le_of_eq (Int.add_zero _)⟩⟩⟩

theorem moves (h : Unserved s₀ p ticks s) {gone come : List PcbPtr}
    (hm : Sys.Moves gone come s t) : Unserved s₀ p ticks t := by
  obtain ⟨stretch, hlog, hout⟩ := h.outcome
  obtain ⟨events, hevents, hgone⟩ := hm.log
  refine ⟨stretch ++ events, ?_, ?_⟩
  · rw [hevents, hlog, List.append_assoc]
  · rw [dispatches_append, hgone, List.mem_append]
    rcases hout with hserved | ⟨hp, hdeadline, hplaces⟩
    · exact .inl (.inl hserved)
    · rcases List.mem_append.mp (hm.waiting.mem_iff.mp (List.mem_append_left _ hp)) with
        hgone | hpt
      · exact .inl (.inr hgone)
      · refine .inr ⟨hpt, (hm.kept p hp hpt).trans hdeadline, fun q hq => ?_⟩
        obtain ⟨hplace, hnext⟩ := hm.places q hq
        obtain ⟨hplace₀, hle⟩ := hplaces q hplace
        exact ⟨hplace₀, hnext ▸ hle⟩

theorem tickEvent (h : Unserved s₀ p ticks s) :
    Unserved s₀ p (ticks + 1) { s with clkCounter := s.clkCounter + 1
                                       log := s.log ++ [Event.tick (s.clkCounter + 1)] } := by
  obtain ⟨stretch, hlog, hout⟩ := h.outcome
  refine ⟨stretch ++ [.tick (s.clkCounter + 1)], ?_, ?_⟩
  · rw [← List.append_assoc, ← hlog]
  · rw [dispatches_append, show dispatches [Event.tick (s.clkCounter + 1)] = [] from rfl,
      List.append_nil]
    refine hout.imp_right ?_
    rintro ⟨hp, hdeadline, hplaces⟩
    refine ⟨hp, hdeadline, fun q hq => ?_⟩
    obtain ⟨hplace, hle⟩ := hplaces q hq
    rw [s.nextDeadline_tick]
    exact ⟨hplace, by omega⟩

theorem run {pids : List Int} (hnd : pids.Nodup) (as : List Action)
    (hq : OneQueue .bfs pids s) (hc : s.machine.Compact) (h : Unserved s₀ p ticks s) :
    Unserved s₀ p (ticks + as.count .tick) (as.foldl Sys.next s) := by
  induction as generalizing s ticks with
  | nil => exact h
  | cons a as ih =>
      obtain ⟨hnext, hcnext⟩ := hq.next hnd hc a
      cases a with
      | tick =>
          have htick : Unserved s₀ p (ticks + 1) (s.next .tick) :=
            OneQueue.clockTick_moves hc (Unserved s₀ p (ticks + 1)) h.tickEvent
              fun t u hm ht => ht.moves hm
          have hrun := ih hnext hcnext htick
          rwa [List.count_cons_self, ← Nat.add_assoc, Nat.add_right_comm]
      | pass =>
          have hpass : Unserved s₀ p ticks (s.next .pass) := by
            refine (hq.schedulerPass_inv hnd hc (fun _ => Unserved s₀ p ticks) ?_ ?_ h).2.2
            · rintro todo i j k t core hw r hqt hct hslot ht
              obtain ⟨come, hm⟩ := hqt.moves_scanThread hnd hct hslot
              exact ht.moves hm
            · rintro t r sched i j core hqt hct hcore hspace - hsame hperm - ht
              exact ht.moves (hqt.moves_dispatched hnd hct hcore hspace hsame hperm)
          rw [List.count_cons_of_ne (by decide)]
          exact ih hnext hcnext hpass

end Unserved

/-! ## Runs -/

/-- What a run under BFS keeps. -/
structure BfsRun (pids : List Int) (threads : Nat) (slice : Nat) (s : Sys) : Prop where
  oneQueue : OneQueue .bfs pids s
  compact : s.machine.Compact
  sound : Sound threads s
  inSlice : s.InSlice
  slice : s.sched.slice = slice
  floored : Floored s

section
variable {cfg : Config} {pcbs : List PCB} {started : Int} {s : Sys}

theorem OneQueue.late (hpol : cfg.policy = .bfs) (hidle : cfg.machine.Idle)
    (hfits : 2 * pcbs.length ≤ cfg.readyQueueSize + 2) (h : Booted cfg pcbs s) :
    OneQueue cfg.policy (pcbs.map PCB.pid) s :=
  .boot h (by rw [hpol]; decide) hidle fun _ => hfits

theorem BfsRun.reachable (hpol : cfg.policy = .bfs) (hidle : cfg.machine.Idle)
    (hnd : (pcbs.map PCB.pid).Nodup) (hfits : 2 * pcbs.length ≤ cfg.readyQueueSize + 2)
    (hfloor : ∀ pcb ∈ pcbs, 0 ≤ pcb.virtualDeadline ∧
      0 ≤ started + (cfg.quantum * pcb.priority).tdiv 100)
    (hs : (lateRuns cfg pcbs started).Reachable s) :
    BfsRun (pcbs.map PCB.pid) cfg.machine.threadCount (cfg.syncMode.slice cfg.quantum) s := by
  refine hs.invariant (BfsRun _ _ _) ?_ ?_
  · rintro s ⟨sys, hboot, rfl⟩
    have hb := (boot_spec hboot).late started
    have hq := OneQueue.late hpol hidle hfits hb
    rw [hpol] at hq
    have hplaces : ∀ q ∈ sys.places, q < pcbs.length := by
      intro q hq
      have hb := boot_spec hboot
      rw [Sys.places, Sys.running, hb.machine, hidle.running, hb.waiting, List.nil_append] at hq
      exact List.mem_range.mp hq
    have hloaded : ∀ q ∈ sys.places, ∃ pcb ∈ pcbs, sys.pcbs.get q = pcb := by
      intro q hq
      have hget := List.getElem?_eq_getElem (hplaces q hq)
      refine ⟨_, List.getElem_mem (hplaces q hq), ?_⟩
      rw [(boot_spec hboot).heap, get_bootHeap hget]
    refine ⟨hq, ?_, .boot hb hidle.compact.bounded, OneQueue.inSlice_boot hb hidle, ?_,
      fun q hq => ?_, fun q hq => ?_⟩
    · rw [hb.machine]
      exact hidle.compact
    · rw [Scheduler.slice, hb.syncMode, hb.quantum]
    · obtain ⟨pcb, hmem, hpcb⟩ := hloaded q (List.mem_append_right _ hq)
      rw [Sys.deadline, hpcb]
      exact (hfloor pcb hmem).1
    · obtain ⟨pcb, hmem, hpcb⟩ := hloaded q hq
      rw [Sys.nextDeadline, bfsDeadline, hb.quantum, hpcb]
      exact (hfloor pcb hmem).2
  · rintro s a t h rfl
    obtain ⟨hnext, hcnext⟩ := h.oneQueue.next hnd h.compact a
    obtain ⟨hin, hslice⟩ := h.oneQueue.inSlice_next hnd h.compact h.inSlice a
    exact ⟨hnext, hcnext, h.sound.next a, hin, hslice.trans h.slice,
      h.floored.next_action h.oneQueue hnd h.compact a⟩

/-- BFS conserves the processes, for any machine, any processes with distinct
PIDs, any interleaving, and any clock value at the start, when `ready_queue` is
long enough for its removals. Each process is in one place, nobody is refused,
no PCB is used or freed after it was freed, and the shutdown report completes
the account. -/
theorem bfs_conserves (hpol : cfg.policy = .bfs) (hidle : cfg.machine.Idle)
    (hlegacy : ∀ core ∈ cfg.machine.cores, core.pcbs.length = core.numKernelThreads)
    (hnd : (pcbs.map PCB.pid).Nodup) (hfits : 2 * pcbs.length ≤ cfg.readyQueueSize + 2)
    (hs : (lateRuns cfg pcbs started).Reachable s) :
    s.sched.readyQueue.toList.map s.pid ++ s.running.map s.pid ++ completedPids s.log ~
        pcbs.map PCB.pid ∧
      droppedPids s.log = [] ∧ s.machine.Compact ∧ PcbsSafe s ∧
      ∃ report f, cleanupSystem s = some (report, f) ∧
        completedPids s.log ++ report.executingPids ++ report.readyPids ~ pcbs.map PCB.pid ∧
        freedPcbs s.log ++ f.freed ++ s.running ~ List.range pcbs.length := by
  have h : Reporting cfg.policy (pcbs.map PCB.pid) cfg.machine.threadCount s := by
    refine hs.invariant (Reporting _ _ _) ?_ fun s a t h ht => ht ▸ h.next hnd a
    rintro s ⟨sys, hboot, rfl⟩
    have hb := (boot_spec hboot).late started
    exact .boot hb (.late hpol hidle hfits hb) hidle hlegacy
  obtain ⟨report, f, hrun, hpids, _, _, hfreed, _⟩ := h.cleanup hnd
  rw [List.length_map] at hfreed
  refine ⟨?_, h.oneQueue.dropped, h.compact, h.safe.pcbsSafe, report, f, hrun, hpids, hfreed⟩
  have haccount := h.oneQueue.conserved.account
  rw [endedPids, h.oneQueue.dropped, List.append_nil, Sys.places, List.map_append,
    h.oneQueue.waiting_eq] at haccount
  exact (List.perm_append_comm.append_right _).trans haccount

/-- Three processes and a ring of four, the shortest that is long enough: after
three passes the first has completed, the second executes and the third
waits. -/
theorem bfs_conserves_three : ∃ s report f,
    (lateRuns { oneCore 1 .bfs 1 with readyQueueSize := 4, sizePos := by decide }
      [(loadedPcb 1 0).setTtl 0, loadedPcb 2 0, loadedPcb 3 0] 2).Reachable s ∧
    s.sched.readyQueue.toList = [2] ∧ s.running = [1] ∧ completedPids s.log = [1] ∧
    PcbsSafe s ∧ cleanupSystem s = some (report, f) ∧
    [1] ++ report.executingPids ++ report.readyPids ~ [1, 2, 3] ∧
    freedPcbs s.log ++ f.freed ++ [1] ~ [0, 1, 2] := by
  obtain ⟨s, hs⟩ : ∃ s, boot { oneCore 1 .bfs 1 with readyQueueSize := 4, sizePos := by decide }
      [(loadedPcb 1 0).setTtl 0, loadedPcb 2 0, loadedPcb 3 0] = some s := ⟨_, rfl⟩
  have hstart : (lateRuns { oneCore 1 .bfs 1 with readyQueueSize := 4, sizePos := by decide }
      [(loadedPcb 1 0).setTtl 0, loadedPcb 2 0, loadedPcb 3 0] 2).Reachable
        { s with clkCounter := 2 } := .init ⟨s, hs, rfl⟩
  have hreach := hstart.foldl (fun _ _ => rfl) [Action.pass, .tick, .pass]
  have hstate : ([Action.pass, .tick, .pass].foldl Sys.next
        { s with clkCounter := 2 }).sched.readyQueue.toList = [2] ∧
      ([Action.pass, .tick, .pass].foldl Sys.next { s with clkCounter := 2 }).running = [1] ∧
      completedPids ([Action.pass, .tick, .pass].foldl Sys.next { s with clkCounter := 2 }).log =
        [1] := by
    obtain rfl := Option.some.inj hs
    decide +kernel
  obtain ⟨_, _, _, hsafe, report, f, hrun, hpids, hfreed⟩ := bfs_conserves rfl
    (Machine.createMachine_idle 1 1 1) (by decide) (by decide) (by decide) hreach
  rw [hstate.2.2] at hpids
  rw [hstate.2.1] at hfreed
  exact ⟨_, report, f, hreach, hstate.1, hstate.2.1, hstate.2.2, hsafe, hrun, hpids, hfreed⟩

/-- Nobody overtakes twice under BFS, as long as `ready_queue` has the room its
removals need and no deadline is negative. From every reachable state on, when
each process would come back with a later deadline than that of `p`, however the
run goes on: those dispatched as long as `p` waits are dispatched once, and each
of them waited from the start, with no later deadline. -/
theorem bfs_overtakes (hpol : cfg.policy = .bfs) (hidle : cfg.machine.Idle)
    (hnd : (pcbs.map PCB.pid).Nodup) (hfits : 2 * pcbs.length ≤ cfg.readyQueueSize + 2)
    (hfloor : ∀ pcb ∈ pcbs, 0 ≤ pcb.virtualDeadline ∧
      0 ≤ started + (cfg.quantum * pcb.priority).tdiv 100)
    (hs : (lateRuns cfg pcbs started).Reachable s) {p : PcbPtr}
    (hp : p ∈ s.sched.readyQueue.toList)
    (hlate : ∀ q ∈ s.places, s.deadline p < s.nextDeadline q) (as : List Action) :
    ∃ stretch, (as.foldl Sys.next s).log = s.log ++ stretch ∧
      (p ∉ dispatches stretch → (dispatches stretch).Nodup ∧ ∀ q ∈ dispatches stretch,
        q ∈ s.sched.readyQueue.toList ∧ q ≠ p ∧ s.deadline q ≤ s.deadline p) := by
  have h := BfsRun.reachable hpol hidle hnd hfits hfloor hs
  have hp : p ∈ s.waiting := h.oneQueue.waiting_eq ▸ hp
  have hdue : Overdue p s (s.earlier p) := ⟨h.floored, hp, .refl _, hlate⟩
  have hrun := (overdue_discipline hnd p).overtaken hnd as h.oneQueue h.compact
    (Pending.start (p := p) h.inSlice hdue)
  obtain ⟨stretch, hlog, hout⟩ := hrun.outcome
  refine ⟨stretch, hlog, fun hnot => ?_⟩
  obtain ⟨ps, _, hperm, _⟩ := hout.resolve_left hnot
  have hnodup : (s.earlier p).Nodup :=
    ((h.oneQueue.conserved.nodup hnd).of_append_right).filter _
  refine ⟨(hperm.nodup_iff.mp hnodup).of_append_left, fun q hq => ?_⟩
  have hmem := List.mem_filter.mp (hperm.mem_iff.mpr (List.mem_append_left _ hq))
  rw [← h.oneQueue.waiting_eq]
  simpa using hmem

/-- Three processes with the deadline 0, when the clock is at 1: the first two
are dispatched before the third. -/
theorem bfs_overtakes_two : ∃ s, (lateRuns (oneCore 1 .bfs 1)
      [loadedPcb 1 0, loadedPcb 2 0, loadedPcb 3 0] 1).Reachable s ∧
    ∃ stretch, ([Action.pass, .tick, .pass].foldl Sys.next s).log = s.log ++ stretch ∧
      dispatches stretch = [0, 1] ∧ ∀ q ∈ dispatches stretch,
        q ∈ s.sched.readyQueue.toList ∧ q ≠ 2 ∧ s.deadline q ≤ s.deadline 2 := by
  obtain ⟨s, hs⟩ : ∃ s, boot (oneCore 1 .bfs 1)
      [loadedPcb 1 0, loadedPcb 2 0, loadedPcb 3 0] = some s := ⟨_, rfl⟩
  have hstart : (lateRuns (oneCore 1 .bfs 1)
      [loadedPcb 1 0, loadedPcb 2 0, loadedPcb 3 0] 1).Reachable { s with clkCounter := 1 } :=
    .init ⟨s, hs, rfl⟩
  have hstate : 2 ∈ ({ s with clkCounter := 1 } : Sys).sched.readyQueue.toList ∧
      (∀ q ∈ ({ s with clkCounter := 1 } : Sys).places,
        ({ s with clkCounter := 1 } : Sys).deadline 2 <
          ({ s with clkCounter := 1 } : Sys).nextDeadline q) ∧
      ({ s with clkCounter := 1 } : Sys).log = [] ∧
      dispatches ([Action.pass, .tick, .pass].foldl Sys.next { s with clkCounter := 1 }).log =
        [0, 1] := by
    obtain rfl := Option.some.inj hs
    decide +kernel
  obtain ⟨hwaits, hlate, hempty, hserved⟩ := hstate
  obtain ⟨stretch, hlog, hovertake⟩ := bfs_overtakes rfl (Machine.createMachine_idle 1 1 1)
    (by decide) (by decide) (by decide) hstart hwaits hlate [.pass, .tick, .pass]
  have hstretch : dispatches stretch = [0, 1] := by
    rw [hlog, hempty] at hserved
    exact hserved
  exact ⟨_, hstart, stretch, hlog, hstretch, (hovertake (by rw [hstretch]; decide)).2⟩

/-- Nobody starves under BFS, with the same room and without negative deadlines.
From every reachable state on, a process that waits is dispatched
once the clock has counted far enough that every process would come back with a
later deadline, the offset of its priority included, and then the quanta of all
others fit into the passes, shared by `T` hardware threads. -/
theorem bfs_response (hpol : cfg.policy = .bfs) (hidle : cfg.machine.Idle)
    (hthreads : 0 < cfg.machine.threadCount)
    (hnd : (pcbs.map PCB.pid).Nodup) (hfits : 2 * pcbs.length ≤ cfg.readyQueueSize + 2)
    (hfloor : ∀ pcb ∈ pcbs, 0 ≤ pcb.virtualDeadline ∧
      0 ≤ started + (cfg.quantum * pcb.priority).tdiv 100)
    (hs : (lateRuns cfg pcbs started).Reachable s) {p : PcbPtr}
    (hp : p ∈ s.sched.readyQueue.toList) (as as' : List Action)
    (hticks : ∀ q ∈ s.places, s.deadline p < s.nextDeadline q + as.count .tick)
    (hpasses : cfg.syncMode.slice cfg.quantum * (pcbs.length - 1) / cfg.machine.threadCount +
      cfg.syncMode.slice cfg.quantum ≤ as'.count .pass) :
    ∃ stretch, ((as ++ as').foldl Sys.next s).log = s.log ++ stretch ∧
      p ∈ dispatches stretch := by
  have h := BfsRun.reachable hpol hidle hnd hfits hfloor hs
  have hmid : (lateRuns cfg pcbs started).Reachable (as.foldl Sys.next s) :=
    hs.foldl (fun _ _ => rfl) as
  have h' := BfsRun.reachable hpol hidle hnd hfits hfloor hmid
  have hwaits : p ∈ s.waiting := h.oneQueue.waiting_eq ▸ hp
  obtain ⟨stretch, hlog, hout⟩ :=
    ((Unserved.start hwaits).run hnd as h.oneQueue h.compact).outcome
  rw [List.foldl_append]
  rcases hout with hserved | ⟨hp', hdeadline, hplaces⟩
  -- dispatched while the clock was counting
  · obtain ⟨more, hmore⟩ := (Prints.foldl (fun a => Prints.next a) as').prefix_log
      (as.foldl Sys.next s)
    refine ⟨stretch ++ more, ?_, ?_⟩
    · rw [← hmore, hlog, List.append_assoc]
    · rw [dispatches_append]
      exact List.mem_append_left _ hserved
  · have hdue : Overdue p (as.foldl Sys.next s) ((as.foldl Sys.next s).earlier p) := by
      refine ⟨h'.floored, hp', .refl _, fun q hq => ?_⟩
      obtain ⟨hplace, hle⟩ := hplaces q hq
      have hlt := hticks q hplace
      omega
    have hlen : ((as.foldl Sys.next s).earlier p).length ≤ pcbs.length - 1 := by
      have hlt : ((as.foldl Sys.next s).earlier p).length < (as.foldl Sys.next s).waiting.length :=
        List.length_filter_lt_length_iff_exists.mpr ⟨p, hp', by simp⟩
      have hsize := h'.oneQueue.size_le
      rw [← ProcessQueue.length_toList, ← h'.oneQueue.waiting_eq, List.length_map] at hsize
      omega
    have hall : (as.foldl Sys.next s).sched.slice * ((as.foldl Sys.next s).earlier p).length +
        (as.foldl Sys.next s).machine.threadCount * (as.foldl Sys.next s).sched.slice <
          (as.foldl Sys.next s).machine.threadCount * (as'.count .pass + 1) := by
      rw [h'.slice, h'.sound.threads]
      have hahead := Nat.mul_le_mul_left (cfg.syncMode.slice cfg.quantum) hlen
      have hdiv := Nat.lt_mul_div_succ (cfg.syncMode.slice cfg.quantum * (pcbs.length - 1)) hthreads
      have hmul := Nat.mul_le_mul_left cfg.machine.threadCount hpasses
      rw [Nat.mul_add] at hmul
      rw [Nat.mul_succ] at hdiv ⊢
      omega
    obtain ⟨more, hmore, hserved⟩ := (overdue_discipline hnd p).served_run hnd as' h'.oneQueue
      h'.compact h'.inSlice hdue hall
    refine ⟨stretch ++ more, ?_, ?_⟩
    · rw [hmore, hlog, List.append_assoc]
    · rw [dispatches_append]
      exact List.mem_append_right _ hserved

/-- Three processes with the deadline 0, when the clock is at 0: after a tick
and three passes on one hardware thread the last has been dispatched. -/
theorem bfs_response_three : ∃ s, (lateRuns (oneCore 1 .bfs 1)
      [loadedPcb 1 0, loadedPcb 2 0, loadedPcb 3 0] 0).Reachable s ∧
    ∃ stretch, ([Action.tick, .pass, .tick, .pass, .tick, .pass].foldl Sys.next s).log =
      s.log ++ stretch ∧ 2 ∈ dispatches stretch := by
  obtain ⟨s, hs⟩ : ∃ s, boot (oneCore 1 .bfs 1)
      [loadedPcb 1 0, loadedPcb 2 0, loadedPcb 3 0] = some s := ⟨_, rfl⟩
  have hstart : (lateRuns (oneCore 1 .bfs 1)
      [loadedPcb 1 0, loadedPcb 2 0, loadedPcb 3 0] 0).Reachable { s with clkCounter := 0 } :=
    .init ⟨s, hs, rfl⟩
  have hstate : 2 ∈ ({ s with clkCounter := 0 } : Sys).sched.readyQueue.toList ∧
      ∀ q ∈ ({ s with clkCounter := 0 } : Sys).places,
        ({ s with clkCounter := 0 } : Sys).deadline 2 <
          ({ s with clkCounter := 0 } : Sys).nextDeadline q + 1 := by
    obtain rfl := Option.some.inj hs
    decide +kernel
  exact ⟨_, hstart, bfs_response rfl (Machine.createMachine_idle 1 1 1) (by decide) (by decide)
    (by decide) (by decide) hstart hstate.1 [.tick] [.pass, .tick, .pass, .tick, .pass] hstate.2
    (by decide)⟩

end

end LocOS
