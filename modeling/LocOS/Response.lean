import LocOS.Fairness
import LocOS.OneQueue
import LocOS.Quantum
import LocOS.WorkConserving
import Mathlib.Algebra.Group.Action.Defs

/-!
# Response

How long a process waits in `ready_queue`. Each pass takes one from what
every executing process has left of its quantum, and a thread that becomes
free goes to somebody who waits. So when nobody comes between a waiting
process and those ahead of it, their quanta are used up by all hardware
threads at once, and their number bounds the passes until its dispatch. Under
Round Robin they are those before it in the queue.
-/

namespace LocOS

open scoped List

/-! ## What is left of a quantum -/

/-- The passes a process keeps its hardware thread at most. In timer mode one
activation uses the quantum up. -/
def SyncMode.slice (quantum : Int) : SyncMode → Nat
  | .timer => 1
  | .clock => quantum.toNat

/-- See `SyncMode.slice`. -/
def Scheduler.slice (sched : Scheduler) : Nat := sched.syncMode.slice sched.quantum

theorem Scheduler.SameConfig.slice {sched sched' : Scheduler}
    (h : Scheduler.SameConfig sched sched') : sched'.slice = sched.slice := by
  unfold Scheduler.slice
  rw [h.syncMode, h.quantum]

/-- The quantum expires when the slice is used up. -/
theorem quantumExpired_slice {sched : Scheduler} {pcb : PCB} (hpos : 0 ≤ pcb.quantumCounter) :
    quantumExpired sched pcb = false → pcb.quantumCounter.toNat < sched.slice := by
  unfold quantumExpired Scheduler.slice SyncMode.slice
  cases sched.syncMode with
  | timer =>
      intro h
      have := of_decide_eq_false h
      dsimp only
      omega
  | clock =>
      intro h
      have := of_decide_eq_false h
      dsimp only
      omega

namespace Sys

/-- Passes left of the slice of a process. -/
def credit (s : Sys) (p : PcbPtr) : Nat := s.sched.slice - (s.pcbs.get p).quantumCounter.toNat

/-- Passes left of the slices of all executing processes. -/
def credits (s : Sys) : Nat := (s.running.map s.credit).sum

/-- Every executing process is within its slice. -/
structure InSlice (s : Sys) : Prop where
  pos : 1 ≤ s.sched.slice
  counted : ∀ p ∈ s.running, 0 ≤ (s.pcbs.get p).quantumCounter
  left : ∀ p ∈ s.running, 1 ≤ s.credit p

/-- The credits of a list of processes none of which a step touches. -/
theorem map_credit_congr {s t : Sys} (hslice : t.sched.slice = s.sched.slice) {ps : List PcbPtr}
    (h : ∀ q ∈ ps, (t.pcbs.get q).quantumCounter = (s.pcbs.get q).quantumCounter) :
    ps.map t.credit = ps.map s.credit := by
  refine List.map_congr_left fun q hq => ?_
  rw [credit, credit, hslice, h q hq]

theorem credits_perm {s : Sys} {ps : List PcbPtr} (h : s.running ~ ps) :
    s.credits = (ps.map s.credit).sum := (h.map s.credit).sum_nat

theorem credits_le {s : Sys} : s.credits ≤ s.running.length * s.sched.slice := by
  have hle : ∀ c ∈ s.running.map s.credit, c ≤ s.sched.slice := by
    intro c hc
    obtain ⟨p, _, rfl⟩ := List.mem_map.mp hc
    exact Nat.sub_le ..
  have hsum := List.sum_le_card_nsmul _ _ hle
  rwa [List.length_map, smul_eq_mul] at hsum

theorem InSlice.length_le {s : Sys} (h : s.InSlice) : s.running.length ≤ s.credits := by
  have hle : ∀ c ∈ s.running.map s.credit, 1 ≤ c := by
    intro c hc
    obtain ⟨p, hp, rfl⟩ := List.mem_map.mp hc
    exact h.left p hp
  have hsum := List.card_nsmul_le_sum _ _ hle
  rwa [List.length_map, smul_eq_mul, Nat.mul_one] at hsum

/-- A process that leaves its hardware thread takes its credit with it. -/
theorem InSlice.leave {s t : Sys} (h : s.InSlice) (hslice : t.sched.slice = s.sched.slice)
    {p : PcbPtr} (hrun : s.running ~ p :: t.running)
    (hkeep : ∀ q ∈ t.running, (t.pcbs.get q).quantumCounter = (s.pcbs.get q).quantumCounter) :
    t.InSlice ∧ t.credits + 1 ≤ s.credits := by
  have hmem : ∀ q ∈ t.running, q ∈ s.running := fun q hq =>
    hrun.mem_iff.mpr (List.mem_cons_of_mem p hq)
  have hcredit : ∀ q ∈ t.running, t.credit q = s.credit q := by
    intro q hq
    rw [credit, credit, hslice, hkeep q hq]
  refine ⟨⟨hslice ▸ h.pos, fun q hq => ?_, fun q hq => ?_⟩, ?_⟩
  · rw [hkeep q hq]
    exact h.counted q (hmem q hq)
  · rw [hcredit q hq]
    exact h.left q (hmem q hq)
  · have hp := h.left p (hrun.mem_iff.mpr (List.mem_cons_self ..))
    rw [credits_perm hrun, credits, map_credit_congr hslice hkeep, List.map_cons, List.sum_cons]
    omega

/-- A pass within the slice costs a process one of its credits. -/
theorem InSlice.spend {s : Sys} (h : s.InSlice) (hnd : s.running.Nodup) {p : PcbPtr}
    (hp : p ∈ s.running) (hlive : s.pcbs.Live p)
    (hexp : quantumExpired s.sched (s.pcbs.get p).charge = false) :
    (s.charge p).InSlice ∧ (s.charge p).credits + 1 ≤ s.credits := by
  have hself : ((s.charge p).pcbs.get p).quantumCounter = (s.pcbs.get p).quantumCounter + 1 := by
    rw [charge, PcbHeap.get_set_self hlive]
    rfl
  have hother : ∀ q, q ≠ p →
      ((s.charge p).pcbs.get q).quantumCounter = (s.pcbs.get q).quantumCounter := by
    intro q hqp
    rw [charge, PcbHeap.get_set_ne _ hqp]
  have hpos := h.counted p hp
  have hcharged : 0 ≤ (s.pcbs.get p).charge.quantumCounter := Int.add_nonneg hpos (by decide)
  have hlt : ((s.pcbs.get p).quantumCounter + 1).toNat < s.sched.slice :=
    quantumExpired_slice hcharged hexp
  have hcredit : (s.charge p).credit p + 1 = s.credit p := by
    rw [credit, credit, hself]
    show s.sched.slice - _ + 1 = _
    omega
  refine ⟨⟨h.pos, fun q hq => ?_, fun q hq => ?_⟩, ?_⟩
  · by_cases hqp : q = p
    · rw [hqp, hself]
      omega
    · rw [hother q hqp]
      exact h.counted q hq
  · by_cases hqp : q = p
    · rw [hqp, credit, hself]
      show 1 ≤ s.sched.slice - _
      omega
    · rw [credit, hother q hqp]
      exact h.left q hq
  · have hperm := List.perm_cons_erase hp
    have hsame : (s.charge p).sched.slice = s.sched.slice := rfl
    have hrest : (s.running.erase p).map (s.charge p).credit = (s.running.erase p).map s.credit :=
      map_credit_congr hsame fun q hq => hother q fun hqp => (hnd.mem_erase_iff.mp hq).1 hqp
    rw [credits_perm (s := s.charge p) hperm, credits_perm hperm, List.map_cons, List.map_cons,
      List.sum_cons, List.sum_cons, hrest]
    omega

end Sys

/-! ## One visit of the scan -/

theorem PCB.decrementTtl_quantumCounter (pcb : PCB) :
    pcb.decrementTtl.quantumCounter = pcb.quantumCounter := by
  unfold decrementTtl
  split <;> rfl

theorem dispatches_append (l l' : List Event) :
    dispatches (l ++ l') = dispatches l ++ dispatches l' := List.filterMap_append

/-- What a visit does to the slices and to the log. -/
structure Visited (s t : Sys) : Prop where
  slice : t.sched.slice = s.sched.slice
  inSlice : t.InSlice
  credits : t.credits + 1 ≤ s.credits
  log : ∃ events, t.log = s.log ++ events ∧ dispatches events = []

namespace OneQueue

variable {policy : Policy} {pids : List Int} {s : Sys}

theorem visited (h : OneQueue policy pids s) (hnd : pids.Nodup) (hc : s.machine.Compact)
    (hslice : s.InSlice) {i j k : Nat} {core : Core} {hw : HardwareThread} {p : PcbPtr}
    (hslot : s.machine.slot? i j k = some (core, hw, p)) :
    Visited s (LocOS.scanThread i j k s) := by
  have hrunning := h.conserved.nodup_running hnd
  have hrem := Machine.running_removeThread_perm hc hslot
  -- whoever stays on its thread is not the one visited
  have hleave : ∀ t : Sys, t.machine = s.machine.setCore i j (core.removeThread k) →
      t.pcbs = (LocOS.scanThread i j k s).pcbs → t.sched.slice = s.sched.slice →
      t.InSlice ∧ t.credits + 1 ≤ s.credits := by
    intro t hmachine hpcbs heq
    have hrun : t.running = (s.machine.setCore i j (core.removeThread k)).running :=
      congrArg Machine.running hmachine
    refine hslice.leave heq (p := p) (hrun ▸ hrem) fun q hq => ?_
    rw [hrun] at hq
    rw [hpcbs, scanThread_get_ne hslot
      ((Machine.mem_running_removeThread hc hrunning hslot).mp hq).2]
  rcases scanThread_cases hslot with ⟨_, he⟩ | ⟨_, _, he⟩ | ⟨_, hexp, he⟩
  · obtain ⟨hin, hcredits⟩ := hleave _ (by rw [he]; rfl) rfl (by rw [he]; rfl)
    refine ⟨by rw [he]; rfl, hin, hcredits, ?_⟩
    rw [he]
    exact ⟨_, rfl, rfl⟩
  · rcases expireThread_cases (h.charge p).conserved.queues i j k core hw p with
      ⟨sched, _, _, hsame, _, hexp⟩ | ⟨_, hexp⟩
    · rw [hexp] at he
      have heq : (LocOS.scanThread i j k s).sched.slice = s.sched.slice := by
        rw [he]
        exact hsame.slice
      obtain ⟨hin, hcredits⟩ := hleave _ (by rw [he]; rfl) rfl heq
      refine ⟨heq, hin, hcredits, ?_⟩
      rw [he]
      exact ⟨_, rfl, rfl⟩
    · rw [hexp] at he
      obtain ⟨hin, hcredits⟩ := hleave _ (by rw [he]; rfl) rfl (by rw [he]; rfl)
      refine ⟨by rw [he]; rfl, hin, hcredits, ?_⟩
      rw [he]
      exact ⟨_, rfl, rfl⟩
  · have hp := Machine.mem_running_of_slot hc hslot
    rw [he]
    obtain ⟨hin, hcredits⟩ := hslice.spend hrunning hp
      (h.conserved.live p (List.mem_append_left _ hp)) hexp
    exact ⟨rfl, hin, hcredits, [], (List.append_nil _).symm, rfl⟩

/-- Whoever is dispatched starts with a whole slice. -/
theorem inSlice_dispatched (h : OneQueue policy pids s) (hnd : pids.Nodup) (hc : s.machine.Compact)
    (hin : s.InSlice) {r : PcbPtr} {sched : Scheduler} {i j : Nat} {core : Core}
    (hcore : s.machine.core? i j = some core) (hspace : core.hasSpace = true)
    (hsame : Scheduler.SameConfig s.sched sched) (hperm : s.sched.waiting ~ r :: sched.waiting) :
    (s.dispatched sched r i j core).InSlice ∧
      (s.dispatched sched r i j core).credits = s.sched.slice + s.credits := by
  have hrun : (s.dispatched sched r i j core).running ~ r :: s.running :=
    (s.running_dispatched hc.counted hcore hspace sched r).symm
  have hwaiting : r ∈ s.waiting := hperm.mem_iff.mpr (List.mem_cons_self ..)
  have hlive := h.conserved.live r (List.mem_append_right _ hwaiting)
  have hself : ((s.dispatched sched r i j core).pcbs.get r).quantumCounter = 0 := by
    show ((s.started sched r).get r).quantumCounter = 0
    rw [Sys.started, PcbHeap.get_set_self hlive]
    exact Stints.start_quantumCounter ..
  have hother : ∀ q ∈ s.running, ((s.dispatched sched r i j core).pcbs.get q).quantumCounter =
      (s.pcbs.get q).quantumCounter := by
    intro q hq
    have hqr : q ≠ r := by
      rintro rfl
      exact List.disjoint_of_nodup_append (h.conserved.nodup hnd) hq hwaiting
    show ((s.started sched r).get q).quantumCounter = _
    rw [Sys.started, PcbHeap.get_set_ne _ hqr]
  have hslice : (s.dispatched sched r i j core).sched.slice = s.sched.slice := hsame.slice
  have hcredit : (s.dispatched sched r i j core).credit r = s.sched.slice := by
    rw [Sys.credit, hself, hslice]
    rfl
  refine ⟨⟨hslice ▸ hin.pos, fun q hq => ?_, fun q hq => ?_⟩, ?_⟩
  · rcases List.mem_cons.mp (hrun.mem_iff.mp hq) with rfl | hq
    · rw [hself]
    · rw [hother q hq]
      exact hin.counted q hq
  · rcases List.mem_cons.mp (hrun.mem_iff.mp hq) with rfl | hq
    · rw [hcredit]
      exact hin.pos
    · rw [Sys.credit, hother q hq, hslice]
      exact hin.left q hq
  · rw [Sys.credits_perm hrun, List.map_cons, List.sum_cons, hcredit,
      Sys.map_credit_congr hslice hother, Sys.credits]

/-! ### Ticks -/

/-- A tick writes no queue, no place and no quantum counter. -/
theorem clockTick_same (hc : s.machine.Compact) :
    (LocOS.clockTick s).sched = s.sched ∧ (LocOS.clockTick s).running = s.running ∧
      (∃ events, (LocOS.clockTick s).log = s.log ++ events ∧ dispatches events = []) ∧
      ∀ q, ((LocOS.clockTick s).pcbs.get q).quantumCounter = (s.pcbs.get q).quantumCounter := by
  refine (clockTick_inv (s := s)
    (fun t => t.machine.Compact ∧ t.sched = s.sched ∧ t.running = s.running ∧
      (∃ events, t.log = s.log ++ events ∧ dispatches events = []) ∧
      ∀ q, (t.pcbs.get q).quantumCounter = (s.pcbs.get q).quantumCounter)
    ⟨hc, rfl, rfl, ⟨_, rfl, rfl⟩, fun _ => rfl⟩ ?_).2
  rintro i j k t ⟨hct, hsched, hrun, ⟨events, hlog, hnone⟩, hcounter⟩
  obtain ⟨hsched', hrun', _⟩ := Ranked.tickThread_same hct i j k
  have hfield := tickThread_field PCB.quantumCounter PCB.decrementTtl_quantumCounter
    (fun _ _ => rfl) i j k t
  refine ⟨(tickThread_machine hct i j k).1, hsched'.trans hsched, hrun'.trans hrun, ?_,
    fun q => (hfield q).trans (hcounter q)⟩
  rcases tickThread_cases i j k t with
    ⟨_, he⟩ | ⟨core, hw, q, _, _, he⟩ | ⟨core, hw, q, pm, base, _, _, _, _, he⟩
  · rw [he]
    exact ⟨events, hlog, hnone⟩
  · rw [he]
    exact ⟨events, hlog, hnone⟩
  · rw [he]
    refine ⟨events ++ [.exec q ((t.pcbs.age q).get q).pid (fetch (t.exec hw pm q))], ?_, ?_⟩
    · show (executeInstruction _ _ _).log = _
      rw [exec_log, hlog, List.append_assoc]
    · rw [dispatches_append, hnone]
      rfl

theorem inSlice_tick (hc : s.machine.Compact) (hin : s.InSlice) :
    (LocOS.clockTick s).InSlice ∧ (LocOS.clockTick s).credits = s.credits := by
  obtain ⟨hsched, hrun, _, hcounter⟩ := clockTick_same hc
  have hcredit : ∀ q, (LocOS.clockTick s).credit q = s.credit q := by
    intro q
    rw [Sys.credit, Sys.credit, hsched, hcounter]
  refine ⟨⟨hsched ▸ hin.pos, fun q hq => ?_, fun q hq => ?_⟩, ?_⟩
  · rw [hcounter]
    exact hin.counted q (hrun ▸ hq)
  · rw [hcredit]
    exact hin.left q (hrun ▸ hq)
  · rw [Sys.credits, hrun, List.map_congr_left fun q _ => hcredit q, Sys.credits]

end OneQueue

/-! ## What lies ahead of a waiting process -/

/-- How `ready_queue` serves a process that waits, when `ahead s ps` says that
`ps` are ahead of it: nobody comes between, and as long as somebody is ahead,
one of them is dispatched. -/
structure Discipline (policy : Policy) (pids : List Int) (p : PcbPtr)
    (ahead : Sys → List PcbPtr → Prop) : Prop where
  waits : ∀ {s ps}, OneQueue policy pids s → ahead s ps → p ∈ s.waiting
  tick : ∀ {s ps}, OneQueue policy pids s → s.machine.Compact → ahead s ps → ahead (clockTick s) ps
  scan : ∀ {s ps i j k core hw q}, OneQueue policy pids s → s.machine.Compact →
    s.machine.slot? i j k = some (core, hw, q) → ahead s ps → ahead (scanThread i j k s) ps
  dispatch : ∀ {s ps q sched i j core}, OneQueue policy pids s → s.machine.Compact →
    s.machine.core? i j = some core → core.hasSpace = true → sched.WF →
    Scheduler.SameConfig s.sched sched → s.sched.waiting ~ q :: sched.waiting →
    selectNextProcess s.sched s.pcbs = some (q, sched) → ahead s ps →
    q = p ∨ ∃ ps', ps ~ q :: ps' ∧ ahead (s.dispatched sched q i j core) ps'

/-- `p` still waits after `taken` of those that were ahead of it, `before`.
The quanta of the rest and those being used come to `budget` passes at most,
one thread after the other. -/
def Sys.WaitsWithin (s : Sys) (ahead : Sys → List PcbPtr → Prop) (before taken : List PcbPtr)
    (budget : Nat) : Prop :=
  ∃ ps, ahead s ps ∧ before ~ taken ++ ps ∧ s.sched.slice * ps.length + s.credits ≤ budget

/-- Since the log was `past`, `p` was dispatched, or it waits within the
budget. -/
structure Pending (past : List Event) (p : PcbPtr) (ahead : Sys → List PcbPtr → Prop)
    (before : List PcbPtr) (budget : Nat) (s : Sys) : Prop where
  inSlice : s.InSlice
  outcome : ∃ stretch, s.log = past ++ stretch ∧
    (p ∈ dispatches stretch ∨ s.WaitsWithin ahead before (dispatches stretch) budget)

namespace Pending

variable {past : List Event} {p : PcbPtr} {ahead : Sys → List PcbPtr → Prop}
  {before : List PcbPtr} {budget : Nat} {s t : Sys}

/-- A step under which the budget of a waiting process shrinks to `budget'`. -/
theorem step (h : Pending past p ahead before budget s) {budget' : Nat} (hin : t.InSlice)
    {events : List Event} (hlog : t.log = s.log ++ events)
    (hwaits : ∀ taken, s.WaitsWithin ahead before taken budget →
      p ∈ dispatches events ∨ t.WaitsWithin ahead before (taken ++ dispatches events) budget') :
    Pending past p ahead before budget' t where
  inSlice := hin
  outcome := by
    obtain ⟨stretch, hpast, hout⟩ := h.outcome
    refine ⟨stretch ++ events, ?_, ?_⟩
    · rw [hlog, hpast, List.append_assoc]
    · rw [dispatches_append, List.mem_append]
      rcases hout with hserved | hw
      · exact .inl (.inl hserved)
      · exact (hwaits _ hw).imp_left .inr

/-- A step without a dispatch. -/
theorem quiet (h : Pending past p ahead before budget s) {budget' : Nat} (hin : t.InSlice)
    (hlog : ∃ events, t.log = s.log ++ events ∧ dispatches events = [])
    (hahead : ∀ ps, ahead s ps → ahead t ps) (hslice : t.sched.slice = s.sched.slice)
    (hbudget : t.credits + budget ≤ s.credits + budget') :
    Pending past p ahead before budget' t := by
  obtain ⟨events, hlog, hnone⟩ := hlog
  refine h.step hin hlog fun taken ⟨ps, hps, hbefore, hle⟩ => .inr ⟨ps, hahead ps hps, ?_, ?_⟩
  · rw [hnone, List.append_nil]
    exact hbefore
  · rw [hslice]
    omega

theorem mono (h : Pending past p ahead before budget s) {budget' : Nat} (hle : budget ≤ budget') :
    Pending past p ahead before budget' s :=
  h.quiet h.inSlice ⟨[], (List.append_nil _).symm, rfl⟩ (fun _ => id) rfl (by omega)

theorem start (hin : s.InSlice) (hahead : ahead s before) :
    Pending s.log p ahead before (s.sched.slice * before.length + s.credits) s :=
  ⟨hin, [], (List.append_nil _).symm, .inr ⟨before, hahead, .refl _, Nat.le_refl _⟩⟩

/-- A full machine has a pass left on each of its threads. -/
theorem served (h : Pending past p ahead before budget s)
    (hfull : (∃ ps, ahead s ps) → budget < s.running.length) :
    ∃ stretch, s.log = past ++ stretch ∧ p ∈ dispatches stretch := by
  obtain ⟨stretch, hpast, hserved | ⟨ps, hps, _, hle⟩⟩ := h.outcome
  · exact ⟨stretch, hpast, hserved⟩
  · have hlt := hfull ⟨ps, hps⟩
    have hlen := h.inSlice.length_le
    omega

end Pending

namespace Discipline

variable {policy : Policy} {pids : List Int} {s : Sys} {past : List Event} {p : PcbPtr}
  {ahead : Sys → List PcbPtr → Prop} {before : List PcbPtr} {budget : Nat}

/-- Somebody ahead is dispatched: one quantum less ahead, and one more being
used. -/
theorem pending_dispatched (hd : Discipline policy pids p ahead) (h : OneQueue policy pids s)
    (hnd : pids.Nodup) (hc : s.machine.Compact) {r : PcbPtr} {sched : Scheduler} {i j : Nat}
    {core : Core} (hcore : s.machine.core? i j = some core) (hspace : core.hasSpace = true)
    (hwf : sched.WF) (hsame : Scheduler.SameConfig s.sched sched)
    (hperm : s.sched.waiting ~ r :: sched.waiting)
    (hsel : selectNextProcess s.sched s.pcbs = some (r, sched))
    (hp : Pending past p ahead before budget s) :
    Pending past p ahead before budget (s.dispatched sched r i j core) := by
  obtain ⟨hin, hcredits⟩ := h.inSlice_dispatched hnd hc hp.inSlice hcore hspace hsame hperm
  refine hp.step hin rfl fun taken ⟨ps, hps, hbefore, hle⟩ => ?_
  rcases hd.dispatch h hc hcore hspace hwf hsame hperm hsel hps with rfl | ⟨ps', hout, hps'⟩
  · exact .inl (List.mem_singleton_self _)
  · refine .inr ⟨ps', hps', ?_, ?_⟩
    · have htaken : before ~ taken ++ ([r] ++ ps') := hbefore.trans (hout.append_left taken)
      rwa [← List.append_assoc] at htaken
    · rw [hout.length_eq, List.length_cons, Nat.mul_succ] at hle
      rw [hcredits, show (s.dispatched sched r i j core).sched.slice = _ from hsame.slice]
      omega

/-- A pass takes one from the budget for each process it finds executing. -/
theorem pending_pass (hd : Discipline policy pids p ahead) (h : OneQueue policy pids s)
    (hnd : pids.Nodup) (hc : s.machine.Compact)
    (hp : Pending past p ahead before (budget + s.running.length) s) :
    Pending past p ahead before budget (LocOS.schedulerPass s) := by
  have hpass := h.schedulerPass_inv hnd hc
    (fun todo t => Pending past p ahead before (budget + todo.length) t)
    (fun todo i j k t core hw q hqt hct hslot ht => by
      have hv := hqt.visited hnd hct ht.inSlice hslot
      have hcredits := hv.credits
      rw [List.length_cons] at ht
      exact ht.quiet hv.inSlice hv.log (fun ps hps => hd.scan hqt hct hslot hps) hv.slice
        (by omega))
    (fun t q sched i j core hqt hct hcore hspace hwf hsame hperm hsel ht =>
      hd.pending_dispatched hqt hnd hct hcore hspace hwf hsame hperm hsel ht)
    (s.machine.scanOrder_perm.length_eq ▸ hp)
  exact hpass.2.2

theorem pending_tick (hd : Discipline policy pids p ahead) (h : OneQueue policy pids s)
    (hc : s.machine.Compact) (hp : Pending past p ahead before budget s) :
    Pending past p ahead before budget (LocOS.clockTick s) := by
  obtain ⟨hin, hcredits⟩ := OneQueue.inSlice_tick hc hp.inSlice
  obtain ⟨hsched, _, hlog, _⟩ := OneQueue.clockTick_same hc
  refine hp.quiet hin hlog (fun ps hps => hd.tick h hc hps) ?_ ?_
  · rw [hsched]
  · rw [hcredits]

/-! ## Runs -/

/-- Those that were ahead of a process are dispatched before it, once each,
and nobody else is. -/
theorem overtaken (hd : Discipline policy pids p ahead) (hnd : pids.Nodup) (as : List Action)
    (h : OneQueue policy pids s) (hc : s.machine.Compact)
    (hp : Pending past p ahead before budget s) :
    Pending past p ahead before budget (as.foldl Sys.next s) := by
  induction as generalizing s with
  | nil => exact hp
  | cons a as ih =>
      obtain ⟨hnext, hcnext⟩ := h.next hnd hc a
      refine ih hnext hcnext ?_
      cases a with
      | tick => exact hd.pending_tick h hc hp
      | pass => exact hd.pending_pass h hnd hc (hp.mono (Nat.le_add_right ..))

/-- A process that waits after a pass leaves no hardware thread unused. -/
theorem pass_full (h : OneQueue policy pids s) (hnd : pids.Nodup) (hc : s.machine.Compact) :
    (LocOS.schedulerPass s).machine.threadCount = s.machine.threadCount ∧
      ((LocOS.schedulerPass s).waiting ≠ [] →
        (LocOS.schedulerPass s).running.length = s.machine.threadCount) := by
  obtain ⟨hpass, hcpass⟩ := h.next hnd hc .pass
  have hpass : OneQueue policy pids (LocOS.schedulerPass s) := hpass
  have hsound : Sound s.machine.threadCount s := ⟨h.conserved.queues, hc.bounded, rfl⟩
  obtain ⟨hnext, hstop⟩ := hsound.schedulerPass
  refine ⟨hnext.threads, fun hne => ?_⟩
  have hready : hasReadyProcesses (LocOS.schedulerPass s).sched = true := by
    rw [Scheduler.hasReadyProcesses_ready,
      Scheduler.ready_single (hpass.samePolicy.trans_ne hpass.single), ← hpass.waiting_eq]
    exact hne
  rw [Sys.dispatchGuard, hready, Bool.true_and] at hstop
  rw [← hnext.threads]
  exact Machine.Compact.length_full hcpass hstop

/-- Once the machine is full, every pass takes as many from the budget as there
are hardware threads. -/
theorem pending_run (hd : Discipline policy pids p ahead) (hnd : pids.Nodup) (as : List Action)
    (h : OneQueue policy pids s) (hc : s.machine.Compact)
    (hfull : s.waiting ≠ [] → s.running.length = s.machine.threadCount)
    (hp : Pending past p ahead before (budget + s.machine.threadCount * as.count .pass) s) :
    ∃ t, t = as.foldl Sys.next s ∧ OneQueue policy pids t ∧ Pending past p ahead before budget t ∧
      (t.waiting ≠ [] → t.running.length = s.machine.threadCount) := by
  induction as generalizing s with
  | nil => exact ⟨s, rfl, h, hp, hfull⟩
  | cons a as ih =>
      obtain ⟨hnext, hcnext⟩ := h.next hnd hc a
      cases a with
      | tick =>
          obtain ⟨hsched, hrun, _⟩ := OneQueue.clockTick_same hc
          have hthreads : (LocOS.clockTick s).machine.threadCount = s.machine.threadCount :=
            (Sound.clockTick ⟨h.conserved.queues, hc.bounded, rfl⟩).threads
          have hwaiting : (LocOS.clockTick s).waiting = s.waiting :=
            congrArg Scheduler.waiting hsched
          rw [List.count_cons_of_ne (by decide)] at hp
          have hih := ih (s := LocOS.clockTick s) hnext hcnext
          rw [hwaiting, hrun, hthreads] at hih
          exact hih hfull (hd.pending_tick h hc hp)
      | pass =>
          obtain ⟨hthreads, hfull'⟩ := pass_full h hnd hc
          rw [List.count_cons_self, Nat.mul_succ, ← Nat.add_assoc] at hp
          have hp' : Pending past p ahead before
              (budget + s.machine.threadCount * as.count .pass) (LocOS.schedulerPass s) := by
            refine hd.pending_pass h hnd hc (hp.step hp.inSlice
              (List.append_nil _).symm ?_)
            rintro taken ⟨ps, hps, hbefore, hle⟩
            rw [hfull (List.ne_nil_of_mem (hd.waits h hps))]
            exact .inr ⟨ps, hps, (List.append_nil taken).symm ▸ hbefore, hle⟩
          have hih := ih (s := LocOS.schedulerPass s) hnext hcnext
          rw [hthreads] at hih
          exact hih hfull' hp'

/-- A process is dispatched when the passes have used up the quanta ahead of
it. -/
theorem served_run (hd : Discipline policy pids p ahead) (hnd : pids.Nodup) (as : List Action)
    (h : OneQueue policy pids s) (hc : s.machine.Compact) (hin : s.InSlice) {ps : List PcbPtr}
    (hps : ahead s ps)
    (hpasses : s.sched.slice * ps.length + s.machine.threadCount * s.sched.slice <
      s.machine.threadCount * (as.count .pass + 1)) :
    ∃ stretch, (as.foldl Sys.next s).log = s.log ++ stretch ∧ p ∈ dispatches stretch := by
  induction as generalizing s with
  | nil =>
      have hslice := Nat.le_mul_of_pos_right s.machine.threadCount hin.pos
      rw [List.count_nil] at hpasses
      omega
  | cons a as ih =>
      obtain ⟨hnext, hcnext⟩ := h.next hnd hc a
      have hstart := Pending.start (p := p) hin hps
      cases a with
      | tick =>
          obtain ⟨hsched, _, ⟨events, hevents, _⟩, _⟩ := OneQueue.clockTick_same hc
          have hthreads : (LocOS.clockTick s).machine.threadCount = s.machine.threadCount :=
            (Sound.clockTick ⟨h.conserved.queues, hc.bounded, rfl⟩).threads
          rw [List.count_cons_of_ne (by decide)] at hpasses
          obtain ⟨stretch, hlog, hserved⟩ := ih (s := LocOS.clockTick s) hnext hcnext
            (OneQueue.inSlice_tick hc hin).1 (hd.tick h hc hps)
            (by rw [hsched, hthreads]; exact hpasses)
          refine ⟨events ++ stretch, ?_, ?_⟩
          · rw [← List.append_assoc, ← hevents]
            exact hlog
          · rw [dispatches_append]
            exact List.mem_append_right _ hserved
      | pass =>
          obtain ⟨hthreads, hfull⟩ := pass_full h hnd hc
          -- the first pass costs what it finds executing, the others all threads
          have hlen := hin.length_le
          have hle : s.running.length ≤ s.machine.threadCount := hc.length_le
          have hcredits := s.credits_le
          have hpos : 0 < s.machine.threadCount :=
            Nat.pos_of_mul_pos_right (Nat.zero_lt_of_lt hpasses)
          have hthreads : (s.next .pass).machine.threadCount = s.machine.threadCount := hthreads
          have hpass : Pending s.log p ahead ps
              (s.sched.slice * ps.length + s.credits - s.running.length) (s.next .pass) :=
            hd.pending_pass h hnd hc (hstart.mono (by omega))
          -- the passes still to come need their share of the budget
          have hrest : Pending s.log p ahead ps
              (s.sched.slice * ps.length + s.credits - s.running.length -
                s.machine.threadCount * as.count .pass +
                (s.next .pass).machine.threadCount * as.count .pass) (s.next .pass) :=
            hpass.mono (by rw [hthreads]; omega)
          obtain ⟨t, rfl, hq, hp, hfull'⟩ :=
            hd.pending_run hnd as hnext hcnext (by rw [hthreads]; exact hfull) hrest
          rw [hthreads] at hfull'
          refine hp.served fun ⟨ps', hps'⟩ => ?_
          rw [hfull' (List.ne_nil_of_mem (hd.waits hq hps'))]
          rw [List.count_cons_self, Nat.mul_succ, Nat.mul_succ] at hpasses
          obtain ⟨more, hslice⟩ := Nat.exists_eq_add_of_le' hin.pos
          have hmore := Nat.mul_le_mul_right more hle
          rw [hslice, Nat.mul_succ] at hcredits hpasses
          rw [hslice]
          omega

end Discipline

namespace OneQueue

variable {policy : Policy} {pids : List Int} {s : Sys}

/-- Before the first pass nobody executes. -/
theorem inSlice_boot {cfg : Config} {pcbs : List PCB} (hb : Booted cfg pcbs s)
    (hidle : cfg.machine.Idle) : s.InSlice := by
  have hrun : s.running = [] := by
    rw [Sys.running, hb.machine]
    exact hidle.running
  refine ⟨?_, fun q hq => ?_, fun q hq => ?_⟩
  · have hquantum := hb.quantumPos
    unfold Scheduler.slice SyncMode.slice
    split
    · exact Nat.le_refl _
    · rw [hb.quantum]
      omega
  · rw [hrun] at hq
    cases hq
  · rw [hrun] at hq
    cases hq

/-- Every process stays within its slice, which never changes. -/
theorem inSlice_next (h : OneQueue policy pids s) (hnd : pids.Nodup) (hc : s.machine.Compact)
    (hin : s.InSlice) (a : Action) :
    (s.next a).InSlice ∧ (s.next a).sched.slice = s.sched.slice := by
  cases a with
  | tick => exact ⟨(inSlice_tick hc hin).1, congrArg Scheduler.slice (clockTick_same hc).1⟩
  | pass =>
      refine (h.schedulerPass_inv hnd hc
        (fun _ t => t.InSlice ∧ t.sched.slice = s.sched.slice) ?_ ?_ ⟨hin, rfl⟩).2.2
      · rintro todo i j k t core hw q hrt hct hslot ⟨ht, heq⟩
        have hv := hrt.visited hnd hct ht hslot
        exact ⟨hv.inSlice, hv.slice.trans heq⟩
      · rintro t q sched i j core hrt hct hcore hspace - hsame hperm - ⟨ht, heq⟩
        exact ⟨(hrt.inSlice_dispatched hnd hct ht hcore hspace hsame hperm).1,
          hsame.slice.trans heq⟩

end OneQueue

/-! ## Round Robin -/

/-- Those before a process in `ready_queue` are ahead of it under Round
Robin. -/
def InFront (p : PcbPtr) (s : Sys) (ps : List PcbPtr) : Prop :=
  ∃ rest, s.sched.readyQueue.toList = ps ++ p :: rest

/-- The dispatch takes the front, and whoever comes goes to the rear. -/
theorem inFront_discipline (pids : List Int) (p : PcbPtr) :
    Discipline .roundRobin pids p (InFront p) where
  waits := by
    intro s ps h ⟨rest, hready⟩
    rw [h.waiting_eq, hready]
    exact List.mem_append_right _ (List.mem_cons_self ..)
  tick := by
    intro s ps _ hc hready
    rw [InFront, (OneQueue.clockTick_same hc).1]
    exact hready
  scan := by
    intro s ps i j k core hw q h _ hslot ⟨rest, hready⟩
    have hcharged := h.charge q
    rcases scanThread_cases hslot with ⟨_, he⟩ | ⟨_, _, he⟩ | ⟨_, _, he⟩
    · rw [he]
      exact ⟨rest, hready⟩
    · rcases expireThread_cases hcharged.conserved.queues i j k core hw q with
        ⟨sched, henq, _, _, _, hexp⟩ | ⟨_, hexp⟩
      · have hrear := RoundRobin.enqueue_ready hcharged.conserved.queues
          (hcharged.samePolicy.trans_ne hcharged.single) henq
        rw [he, hexp]
        refine ⟨rest ++ [q], hrear.trans ?_⟩
        rw [show (s.charge q).sched.readyQueue.toList = _ from hready, List.append_assoc,
          List.cons_append]
      · rw [he, hexp]
        exact ⟨rest, hready⟩
    · rw [he]
      exact ⟨rest, hready⟩
  dispatch := by
    intro s ps q sched i j core h _ _ _ _ _ _ hsel ⟨rest, hready⟩
    rw [RoundRobin.select_ready h.conserved.queues h.samePolicy hsel] at hready
    cases ps with
    | nil => exact .inl (List.cons.inj hready).1
    | cons r ps =>
        obtain ⟨rfl, hrest⟩ := List.cons.inj hready
        exact .inr ⟨ps, .refl _, rest, hrest⟩

/-- Round Robin answers in bounded time, for any machine, any processes with
distinct PIDs and any interleaving: from every reachable state on, a process
at position `d` of `ready_queue` is dispatched within `slice * d / T + slice`
passes, where `T` is the number of hardware threads and `slice` the quantum,
or one in timer mode. -/
theorem roundRobin_response {cfg : Config} {pcbs : List PCB} (hpol : cfg.policy = .roundRobin)
    (hidle : cfg.machine.Idle) (hthreads : 0 < cfg.machine.threadCount)
    (hnd : (pcbs.map PCB.pid).Nodup) {s : Sys} (hs : (sysRuns cfg pcbs).Reachable s) {p : PcbPtr}
    {d : Nat} (hd : s.sched.readyQueue.toList[d]? = some p) (as : List Action)
    (hpasses : cfg.syncMode.slice cfg.quantum * d / cfg.machine.threadCount +
      cfg.syncMode.slice cfg.quantum ≤ as.count .pass) :
    ∃ stretch, (as.foldl Sys.next s).log = s.log ++ stretch ∧ p ∈ dispatches stretch := by
  have hsingle : cfg.policy ≠ .preemptivePrio := by
    rw [hpol]
    decide
  have hfits : cfg.policy = .bfs → 2 * pcbs.length ≤ cfg.readyQueueSize + 2 := by
    rw [hpol]
    intro hbfs
    cases hbfs
  obtain ⟨h, hc, hsound, hin, hslice⟩ : OneQueue cfg.policy (pcbs.map PCB.pid) s ∧
      s.machine.Compact ∧ Sound cfg.machine.threadCount s ∧ s.InSlice ∧
      s.sched.slice = cfg.syncMode.slice cfg.quantum := by
    refine hs.invariant (fun s => OneQueue cfg.policy (pcbs.map PCB.pid) s ∧ s.machine.Compact ∧
      Sound cfg.machine.threadCount s ∧ s.InSlice ∧
      s.sched.slice = cfg.syncMode.slice cfg.quantum) ?_ ?_
    · intro s hb
      have hbooted := boot_spec hb
      refine ⟨.boot hbooted hsingle hidle hfits, hbooted.machine ▸ hidle.compact,
        .boot hbooted hidle.compact.bounded, OneQueue.inSlice_boot hbooted hidle, ?_⟩
      rw [Scheduler.slice, hbooted.syncMode, hbooted.quantum]
    · rintro s a t ⟨h, hc, hsound, hin, hslice⟩ rfl
      obtain ⟨hnext, hcnext⟩ := h.next hnd hc a
      obtain ⟨hin', hslice'⟩ := h.inSlice_next hnd hc hin a
      exact ⟨hnext, hcnext, hsound.next a, hin', hslice'.trans hslice⟩
  rw [hpol] at h
  obtain ⟨hlt, hget⟩ := List.getElem?_eq_some_iff.mp hd
  have hahead : InFront p s (s.sched.readyQueue.toList.take d) := by
    refine ⟨s.sched.readyQueue.toList.drop (d + 1), ?_⟩
    rw [← hget, ← List.drop_eq_getElem_cons hlt, List.take_append_drop]
  refine (inFront_discipline _ p).served_run hnd as h hc hin hahead ?_
  rw [List.length_take, Nat.min_eq_left (Nat.le_of_lt hlt)]
  rw [hslice, hsound.threads]
  have hdiv := Nat.lt_mul_div_succ (cfg.syncMode.slice cfg.quantum * d) hthreads
  have hmul := Nat.mul_le_mul_left cfg.machine.threadCount hpasses
  rw [Nat.mul_add] at hmul
  rw [Nat.mul_succ] at hdiv ⊢
  omega

/-- One hardware thread and a quantum of two: the third process, second in the
queue, is dispatched by the fourth pass, and not by the third. -/
theorem roundRobin_response_four : ∃ s, (sysRuns (oneCore 1 .roundRobin 2)
      [loadedPcb 1 0, loadedPcb 2 0, loadedPcb 3 0]).Reachable s ∧
    s.sched.readyQueue.toList = [1, 2] ∧
    dispatches ([Action.pass, .tick, .pass, .pass].foldl Sys.next s).log = [0, 1] ∧
    ∃ stretch, ([Action.pass, .tick, .pass, .pass, .pass].foldl Sys.next s).log =
      s.log ++ stretch ∧ 2 ∈ dispatches stretch := by
  obtain ⟨s, hs⟩ : ∃ s, boot (oneCore 1 .roundRobin 2)
      [loadedPcb 1 0, loadedPcb 2 0, loadedPcb 3 0] = some s := ⟨_, rfl⟩
  have hreach := reachable_next (.init hs) .pass
  have hrun : (s.next .pass).sched.readyQueue.toList = [1, 2] ∧
      dispatches ([Action.pass, .tick, .pass, .pass].foldl Sys.next (s.next .pass)).log =
        [0, 1] := by
    obtain rfl := Option.some.inj hs
    decide +kernel
  refine ⟨_, hreach, hrun.1, hrun.2, ?_⟩
  refine roundRobin_response (d := 1) rfl (Machine.createMachine_idle 1 1 1) (by decide)
    (by decide) hreach ?_ [.pass, .tick, .pass, .pass, .pass] (by decide)
  rw [hrun.1]
  rfl

end LocOS
