import LocOS.FreeSlots
import LocOS.Lib.Reorder
import LocOS.Locality
import LocOS.Output
import LocOS.Transparency

/-!
# TickOrder

The hardware threads of a tick are meant to run at the same time; the clock
runs them one after another. For processes that stay in their pages nobody
can tell: whatever order every tick takes, a run under Round Robin ends in the
same state, and only executions of different processes in one tick change
places in what is printed.
-/

namespace LocOS

/-! ## The threads of a machine -/

namespace Machine

variable (m : Machine)

/-- The slots of core `(i, j)`. -/
def slotsOf (ij : Nat × Nat) : List Slot :=
  match m.core? ij.1 ij.2 with
  | none => []
  | some core => (List.range core.numKernelThreads).map fun k => (ij.1, ij.2, k)

/-- All slots, in the order of the loops. -/
def slots : List Slot := m.coreIndices.flatMap m.slotsOf

/-- The machine after thread `t` was replaced. -/
def setThread (t : Slot) (hw : HardwareThread) : Machine where
  cpus := m.cpus.modify t.1 fun cpu =>
    { cores := cpu.cores.modify t.2.1 fun core => core.setThread t.2.2 hw }

variable {m}

theorem setThread_eq {i j : Nat} {core : Core} (h : m.core? i j = some core) (k : Nat)
    (hw : HardwareThread) : m.setThread (i, j, k) hw = m.setCore i j (core.setThread k hw) := by
  obtain ⟨cpu, hcpu, hcore⟩ := Option.bind_eq_some_iff.mp h
  rw [setThread, setCore, List.modify_eq_set_of_getElem? hcpu,
    List.modify_eq_set_of_getElem? hcpu, List.modify_eq_set_of_getElem? hcore]

theorem setThread_comm {t u : Slot} (hne : t ≠ u) (hw hw' : HardwareThread) :
    (m.setThread t hw).setThread u hw' = (m.setThread u hw').setThread t hw := by
  obtain ⟨i, j, k⟩ := t
  obtain ⟨i', j', k'⟩ := u
  simp only [setThread, mk.injEq]
  by_cases hi : i = i'
  · subst hi
    rw [List.modify_modify_eq, List.modify_modify_eq]
    congr 1
    funext cpu
    simp only [Function.comp_apply, CPU.mk.injEq]
    by_cases hj : j = j'
    · subst hj
      rw [List.modify_modify_eq, List.modify_modify_eq]
      congr 1
      funext core
      have hk : k ≠ k' := fun he => hne (by rw [he])
      simp only [Function.comp_apply, Core.setThread, List.set_comm hw hw' hk]
    · exact List.modify_modify_ne _ _ _ hj
  · exact List.modify_modify_ne _ _ _ hi

theorem thread?_setThread_ne {t u : Slot} (hne : t ≠ u) (hw : HardwareThread) :
    (m.setThread t hw).thread? u = m.thread? u := by
  obtain ⟨i, j, k⟩ := t
  obtain ⟨i', j', k'⟩ := u
  simp only [thread?, core?, setThread, List.getElem?_modify, Option.map_eq_map]
  cases m.cpus[i']? with
  | none => rfl
  | some cpu =>
      by_cases hi : i = i'
      · simp only [hi, if_true, Option.map_some, Option.bind_some, List.getElem?_modify,
          Option.map_eq_map]
        cases cpu.cores[j']? with
        | none => rfl
        | some core =>
            by_cases hj : j = j'
            · have hk : k ≠ k' := fun he => hne (by rw [hi, hj, he])
              simp only [hj, if_true, Option.map_some, Option.bind_some, Core.setThread,
                List.getElem?_set_ne hk]
            · simp only [if_neg hj, Option.map_some]
      · simp only [if_neg hi, Option.map_some]

theorem slot?_thread? {t : Slot} {core : Core} {hw : HardwareThread} {p : PcbPtr}
    (h : m.slot? t.1 t.2.1 t.2.2 = some (core, hw, p)) :
    m.core? t.1 t.2.1 = some core ∧ m.thread? t = some hw ∧ hw.pcb = some p := by
  obtain ⟨hcore, hk, hp⟩ := slot?_eq_some.mp h
  refine ⟨hcore, ?_, hp⟩
  rw [thread?, hcore]
  exact hk

theorem exists_slot? {t : Slot} {hw : HardwareThread} {p : PcbPtr} (h : m.thread? t = some hw)
    (hp : hw.pcb = some p) : ∃ core, m.slot? t.1 t.2.1 t.2.2 = some (core, hw, p) := by
  obtain ⟨core, hcore, hk⟩ := Option.bind_eq_some_iff.mp h
  exact ⟨core, slot?_eq_some.mpr ⟨hcore, hk, hp⟩⟩

/-- A process is on one slot at most. -/
theorem slot_unique (hc : m.Compact) (hnd : m.running.Nodup) {t u : Slot}
    {hw hw' : HardwareThread} {p : PcbPtr} (ht : m.thread? t = some hw) (hp : hw.pcb = some p)
    (hu : m.thread? u = some hw') (hp' : hw'.pcb = some p) : t = u := by
  obtain ⟨i, j, k⟩ := t
  obtain ⟨i', j', k'⟩ := u
  obtain ⟨core, hslot⟩ := exists_slot? ht hp
  obtain ⟨core', hslot'⟩ := exists_slot? hu hp'
  obtain ⟨hcore, hk, _⟩ := slot?_eq_some.mp hslot
  obtain ⟨hcore', hk', _⟩ := slot?_eq_some.mp hslot'
  by_cases hij : (i', j') = (i, j)
  · obtain ⟨rfl, rfl⟩ := Prod.mk.inj hij
    obtain rfl := Option.some.inj (hcore.symm.trans hcore')
    have hnd' : core.running.Nodup :=
      (List.nodup_flatMap.mp hnd).1 core (mem_cores_of_core? hcore)
    have hget := (hc.core hcore).busy hk hp
    have hlt := (List.getElem?_eq_some_iff.mp hget).1
    have hkk := (List.getElem?_inj hlt hnd').mp (hget.trans ((hc.core hcore).busy hk' hp').symm)
    exact congrArg (fun k => (i', j', k)) hkk
  -- on another core it would still be there after a removal
  · have hmem : p ∈ (m.setCore i j (core.removeThread k)).running := by
      refine mem_running_of_core ((core?_setCore_ne m _ hij).trans hcore') ?_
      exact List.mem_of_getElem? ((hc.core hcore').busy hk' hp')
    exact absurd rfl ((mem_running_removeThread hc hnd hslot).mp hmem).2

end Machine

/-! ## Visits -/

namespace Sys

variable {s : Sys} {t u : Slot} {hw hw' : HardwareThread} {p q : PcbPtr} {pm : PhysicalMemory}

/-- The share of one thread in a tick. -/
def visit (s : Sys) (t : Slot) : Sys := tickThread t.1 t.2.1 t.2.2 s

/-- The state after thread `t` wrote `effect` for process `p`. -/
def wrote (s : Sys) (t : Slot) (pageTable : Option Nat) (pm : PhysicalMemory) (p : PcbPtr)
    (effect : CycleEffect) : Sys :=
  { s with
    machine := s.machine.setThread t effect.hw
    clockPmRef := some (pm.storeThrough pageTable effect.store)
    pcbs := s.pcbs.set p effect.pcb
    log := s.log ++ effect.events }

theorem visit_idle (h : ∀ hw p, s.machine.thread? t = some hw → hw.pcb ≠ some p) :
    s.visit t = s := by
  have hnone : ∀ core hw p, s.machine.slot? t.1 t.2.1 t.2.2 ≠ some (core, hw, p) := by
    intro core hw p hslot
    obtain ⟨_, ht, hp⟩ := Machine.slot?_thread? hslot
    exact h hw p ht hp
  rcases tickThread_cases t.1 t.2.1 t.2.2 s with
    ⟨_, he⟩ | ⟨core, hw, p, hslot, _⟩ | ⟨core, hw, p, _, _, hslot, _⟩
  · exact he
  · exact absurd hslot (hnone core hw p)
  · exact absurd hslot (hnone core hw p)

theorem visit_busy (hpm : s.clockPmRef = some pm) (ht : s.machine.thread? t = some hw)
    (hp : hw.pcb = some p) :
    s.visit t = s.wrote t hw.ptbr pm p (cycleEffect hw pm (s.pcbs.get p) p) := by
  obtain ⟨core, hslot⟩ := Machine.exists_slot? ht hp
  obtain ⟨hcore, hk, _⟩ := Machine.slot?_eq_some.mp hslot
  have hset : ∀ hw', s.machine.setCore t.1 t.2.1 (core.setThread t.2.2 hw') =
      s.machine.setThread t hw' := fun hw' => (Machine.setThread_eq hcore t.2.2 hw').symm
  have hstate : ((s.pcbs.age p).get p).state = (s.pcbs.get p).state :=
    PcbHeap.get_set_congr PCB.state s.pcbs (PCB.decrementTtl_state _) p
  rw [visit, tickThread_busy hslot, hpm]
  dsimp only
  by_cases hst : (s.pcbs.get p).state = .terminated
  · -- the clock has counted, and the thread keeps what it has
    rw [if_pos (hstate.trans hst), cycleEffect, if_pos (.inl hst)]
    have hsame : s.machine.setThread t hw = s.machine := by
      rw [← hset, Core.setThread_self hk, Machine.setCore_self hcore]
    simp only [wrote, idleEffect, PhysicalMemory.storeThrough, List.append_nil, hsame, ← hpm]
    rfl
  · rw [if_neg fun he => hst (hstate.symm.trans he), exec, executeInstructionCycle_apply hp]
    simp only [absorb, CycleEffect.apply, hset]
    rfl

theorem visit_thread? (hne : t ≠ u) : (s.visit t).machine.thread? u = s.machine.thread? u := by
  rcases tickThread_cases t.1 t.2.1 t.2.2 s with
    ⟨_, he⟩ | ⟨core, hw, p, _, _, he⟩ | ⟨core, hw, p, pm, base, hslot, _, _, _, he⟩
  · rw [visit, he]
  · rw [visit, he]
  · obtain ⟨hcore, _, _⟩ := Machine.slot?_eq_some.mp hslot
    rw [visit, he, absorb, ← Machine.setThread_eq hcore]
    exact Machine.thread?_setThread_ne hne _

theorem wrote_thread? (hne : t ≠ u) (pageTable : Option Nat) (effect : CycleEffect) :
    (s.wrote t pageTable pm p effect).machine.thread? u = s.machine.thread? u :=
  Machine.thread?_setThread_ne hne _

theorem wrote_get (hne : q ≠ p) (pageTable : Option Nat) (effect : CycleEffect) :
    (s.wrote t pageTable pm p effect).pcbs.get q = s.pcbs.get q :=
  PcbHeap.get_set_ne _ hne _

end Sys

/-! ## Threads that stay in their pages -/

/-- The threads `todo` are still to be visited, and each of them stays in the
pages of its process. -/
structure TickReady (spaces : List Space) (todo : List Slot) (s : Sys) : Prop where
  memory : ∃ pm, s.clockPmRef = some pm ∧ Layout pm spaces
  compact : s.machine.Compact
  distinct : s.machine.running.Nodup
  once : todo.Nodup
  names : ∀ t ∈ todo, ∀ hw p, s.machine.thread? t = some hw → hw.pcb = some p →
    Names spaces p hw.ptbr
  stays : ∀ t ∈ todo, ∀ hw p pm, s.machine.thread? t = some hw → hw.pcb = some p →
    s.clockPmRef = some pm → StaysInPages spaces p (s.exec hw pm p)

namespace TickReady

variable {spaces : List Space} {todo : List Slot} {s : Sys} {t u : Slot}
  {hw hw' : HardwareThread} {p q : PcbPtr} {pm : PhysicalMemory}

theorem perm (h : TickReady spaces todo s) {todo' : List Slot} (hperm : todo.Perm todo') :
    TickReady spaces todo' s where
  memory := h.memory
  compact := h.compact
  distinct := h.distinct
  once := hperm.nodup_iff.mp h.once
  names := fun t ht => h.names t (hperm.mem_iff.mpr ht)
  stays := fun t ht => h.stays t (hperm.mem_iff.mpr ht)

theorem storesIn (h : TickReady spaces todo s) (ht : t ∈ todo)
    (hthread : s.machine.thread? t = some hw) (hp : hw.pcb = some p)
    (hpm : s.clockPmRef = some pm) :
    StoresIn spaces p hw.ptbr (cycleEffect hw pm (s.pcbs.get p) p).store :=
  cycleEffect_store (h.names t ht hw p hthread hp) hp (h.stays t ht hw p pm hthread hp hpm)

/-- A visit leaves the other threads ready. -/
theorem visit (h : TickReady spaces (t :: todo) s) : TickReady spaces todo (s.visit t) := by
  obtain ⟨hnot, honce⟩ := List.nodup_cons.mp h.once
  have htail : ∀ u ∈ todo, u ∈ t :: todo := fun u => List.mem_cons_of_mem t
  obtain ⟨hcompact, hrunning⟩ : (s.visit t).machine.Compact ∧
      (s.visit t).machine.running = s.machine.running :=
    tickThread_machine h.compact t.1 t.2.1 t.2.2
  have hdistinct : (s.visit t).machine.running.Nodup := hrunning ▸ h.distinct
  by_cases hbusy : ∃ hw p, s.machine.thread? t = some hw ∧ hw.pcb = some p
  · obtain ⟨hw, p, hthread, hp⟩ := hbusy
    obtain ⟨pm, hpm, hL⟩ := h.memory
    have hstore := h.storesIn (List.mem_cons_self ..) hthread hp hpm
    rw [Sys.visit_busy hpm hthread hp] at hcompact hdistinct ⊢
    refine ⟨⟨_, rfl, hL.storeThrough hstore⟩, hcompact, hdistinct, honce,
      fun u hu hw' q hu' hq => ?_, fun u hu hw' q pm' hu' hq hpm' => ?_⟩
    all_goals
      have hne : t ≠ u := by
        rintro rfl
        exact hnot hu
      rw [Sys.wrote_thread? hne] at hu'
    · exact h.names u (htail u hu) hw' q hu' hq
    · obtain rfl := Option.some.inj hpm'
      have hqp : q ≠ p := by
        rintro rfl
        exact hne (Machine.slot_unique h.compact h.distinct hthread hp hu' hq)
      exact (h.stays u (htail u hu) hw' q pm hu' hq hpm).congr hL
        (h.names u (htail u hu) hw' q hu' hq)
        (fun b hb => hL.storeThrough_same hstore hqp hb) (Sys.wrote_get hqp _ _)
  · rw [Sys.visit_idle fun hw p hthread hp => hbusy ⟨hw, p, hthread, hp⟩]
    exact ⟨h.memory, h.compact, h.distinct, honce, fun u hu => h.names u (htail u hu),
      fun u hu => h.stays u (htail u hu)⟩

/-- After a visit another thread still writes what it would have written. -/
theorem visit_visit (h : TickReady spaces todo s) (ht : t ∈ todo) (hu : u ∈ todo) (hne : t ≠ u)
    (hpm : s.clockPmRef = some pm) (hL : Layout pm spaces)
    (hthread : s.machine.thread? t = some hw) (hp : hw.pcb = some p)
    (hthread' : s.machine.thread? u = some hw') (hq : hw'.pcb = some q) (hqp : q ≠ p) :
    (s.visit t).visit u =
      (s.wrote t hw.ptbr pm p (cycleEffect hw pm (s.pcbs.get p) p)).wrote u hw'.ptbr
        (pm.storeThrough hw.ptbr (cycleEffect hw pm (s.pcbs.get p) p).store) q
        (cycleEffect hw' pm (s.pcbs.get q) q) := by
  have hstore := h.storesIn ht hthread hp hpm
  rw [Sys.visit_busy hpm hthread hp,
    Sys.visit_busy rfl ((Sys.wrote_thread? hne _ _).trans hthread') hq, Sys.wrote_get hqp,
    cycleEffect_congr hL (h.names u hu hw' q hthread' hq) hq
      (h.stays u hu hw' q pm hthread' hq hpm) fun b hb => hL.storeThrough_same hstore hqp hb]

end TickReady

/-! ## What is printed -/

/-- A process sees its own instructions, and everything the clock and the
scheduler print. -/
def Event.seenBy (p : PcbPtr) : Event → Bool
  | .exec q _ _ => decide (q = p)
  | _ => true

/-- The states are the same, and no process can tell their output apart. -/
structure SameSeen (s t : Sys) : Prop where
  rest : t = { s with log := t.log }
  seen : ∀ p, t.log.filter (Event.seenBy p) = s.log.filter (Event.seenBy p)

namespace SameSeen

variable {s t u : Sys}

theorem refl (s : Sys) : SameSeen s s := ⟨rfl, fun _ => rfl⟩

theorem trans (h : SameSeen s t) (h' : SameSeen t u) : SameSeen s u where
  rest := by
    rw [h'.rest, h.rest]
  seen := fun p => (h'.seen p).trans (h.seen p)

/-- Nothing is printed more or less often. -/
theorem perm (h : SameSeen s t) : s.log.Perm t.log := by
  rw [List.perm_iff_count]
  intro e
  -- some process sees the event
  have hseen : ∃ p, e.seenBy p = true := by
    cases e with
    | exec q pid instruction => exact ⟨q, decide_eq_true rfl⟩
    | _ => exact ⟨0, rfl⟩
  obtain ⟨p, hp⟩ := hseen
  rw [← List.count_filter hp, ← h.seen p, List.count_filter hp]

end SameSeen

theorem filter_cycleEffect_ne {hw : HardwareThread} {pm : PhysicalMemory} {pcb : PCB}
    {p q : PcbPtr} (hne : p ≠ q) :
    (cycleEffect hw pm pcb p).events.filter (Event.seenBy q) = [] := by
  unfold cycleEffect
  split
  · rfl
  · simp [instructionEffect, Event.seenBy, hne]

/-- Two threads of one tick may change places. -/
theorem TickReady.swap {spaces : List Space} {todo : List Slot} {s : Sys} {t u : Slot}
    (h : TickReady spaces (t :: u :: todo) s) :
    SameSeen ((s.visit t).visit u) ((s.visit u).visit t) := by
  have hne : t ≠ u := fun he => (List.nodup_cons.mp h.once).1 (he ▸ List.mem_cons_self ..)
  have ht : t ∈ t :: u :: todo := List.mem_cons_self ..
  have hu : u ∈ t :: u :: todo := List.mem_cons_of_mem t (List.mem_cons_self ..)
  -- an idle thread stays idle
  have hidle : ∀ t u : Slot, t ≠ u → (∀ hw p, s.machine.thread? t = some hw → hw.pcb ≠ some p) →
      (s.visit t).visit u = (s.visit u).visit t := by
    intro t u hne hnone
    rw [Sys.visit_idle hnone, Sys.visit_idle (s := s.visit u)]
    rw [Sys.visit_thread? (Ne.symm hne)]
    exact hnone
  by_cases hbt : ∃ hw p, s.machine.thread? t = some hw ∧ hw.pcb = some p
  · by_cases hbu : ∃ hw p, s.machine.thread? u = some hw ∧ hw.pcb = some p
    · obtain ⟨hw, p, hthread, hp⟩ := hbt
      obtain ⟨hw', q, hthread', hq⟩ := hbu
      have hpq : p ≠ q := by
        rintro rfl
        exact hne (Machine.slot_unique h.compact h.distinct hthread hp hthread' hq)
      obtain ⟨pm, hpm, hL⟩ := h.memory
      have hst := h.storesIn ht hthread hp hpm
      have hsu := h.storesIn hu hthread' hq hpm
      have hfirst := h.visit_visit ht hu hne hpm hL hthread hp hthread' hq (Ne.symm hpq)
      have hsecond := h.visit_visit hu ht (Ne.symm hne) hpm hL hthread' hq hthread hp hpq
      rw [hfirst, hsecond]
      refine ⟨?_, fun r => ?_⟩
      · simp only [Sys.wrote, hL.storeThrough_comm hpq hst hsu, Machine.setThread_comm hne,
          PcbHeap.set_comm _ hpq]
      · simp only [Sys.wrote, List.filter_append, List.append_assoc]
        congr 1
        by_cases hr : p = r
        · rw [filter_cycleEffect_ne (hr ▸ Ne.symm hpq), List.append_nil, List.nil_append]
        · rw [filter_cycleEffect_ne hr, List.append_nil, List.nil_append]
    · rw [hidle u t (Ne.symm hne) fun hw p hthread hp => hbu ⟨hw, p, hthread, hp⟩]
      exact .refl _
  · rw [hidle t u hne fun hw p hthread hp => hbt ⟨hw, p, hthread, hp⟩]
    exact .refl _

theorem Prints.congr {f : Sys → Sys} (hf : Prints f) {s t : Sys} (h : SameSeen s t) :
    SameSeen (f s) (f t) := by
  obtain ⟨events, he⟩ := hf s
  have hs : f s = (f s).withLog (s.log ++ events) := he s.log
  have ht : f t = (f s).withLog (t.log ++ events) := by
    rw [← he t.log]
    exact congrArg f h.rest
  refine ⟨?_, fun p => ?_⟩
  · rw [ht]
    rfl
  · rw [ht, congrArg Sys.log hs]
    show (t.log ++ events).filter _ = (s.log ++ events).filter _
    rw [List.filter_append, List.filter_append, h.seen p]

/-! ## Ticks in any order -/

/-- A choice of the order in which a tick visits the threads. -/
structure VisitOrder where
  order : List Slot → List Slot
  perm : ∀ slots, (order slots).Perm slots

/-- The steps of a system whose ticks take any order. -/
inductive FreeAction where
  | tick (visits : VisitOrder)
  | pass

/-- The clock's own step. -/
def FreeAction.erase : FreeAction → Action
  | .tick _ => .tick
  | .pass => .pass

/-- A tick in the given order. -/
def Sys.tickIn (s : Sys) (visits : List Slot) : Sys := visits.foldl Sys.visit (s.micro .count)

/-- The step itself. -/
def Sys.freeNext (s : Sys) : FreeAction → Sys
  | .tick visits => s.tickIn (visits.order s.machine.slots)
  | .pass => schedulerPass s

theorem slotsOf_visit (s : Sys) (t : Slot) (ij : Nat × Nat) :
    (s.visit t).machine.slotsOf ij = s.machine.slotsOf ij := by
  rcases tickThread_cases t.1 t.2.1 t.2.2 s with
    ⟨_, he⟩ | ⟨core, hw, p, _, _, he⟩ | ⟨core, hw, p, pm, base, hslot, _, _, _, he⟩
  · rw [Sys.visit, he]
  · rw [Sys.visit, he]
  · obtain ⟨hcore, _, _⟩ := Machine.slot?_eq_some.mp hslot
    rw [Sys.visit, he, Sys.absorb, Machine.slotsOf, Machine.slotsOf]
    by_cases hij : (ij.1, ij.2) = (t.1, t.2.1)
    · obtain ⟨h1, h2⟩ := Prod.mk.inj hij
      simp only [h1, h2, Machine.core?_setCore_self _ hcore, hcore,
        Core.setThread_numKernelThreads]
    · simp only [Machine.core?_setCore_ne _ _ hij]

theorem slotsOf_visits (visits : List Slot) (s : Sys) (ij : Nat × Nat) :
    (visits.foldl Sys.visit s).machine.slotsOf ij = s.machine.slotsOf ij := by
  induction visits generalizing s with
  | nil => rfl
  | cons t visits ih => exact (ih (s.visit t)).trans (slotsOf_visit s t ij)

theorem tickCore_eq (s : Sys) (ij : Nat × Nat) :
    tickCore s ij = (s.machine.slotsOf ij).foldl Sys.visit s := by
  unfold tickCore Machine.slotsOf
  cases s.machine.core? ij.1 ij.2 with
  | none => rfl
  | some core =>
      dsimp only
      rw [Loop.up_eq_foldl, List.foldl_map]
      rfl

/-- The clock visits all slots, in the order of its loops. -/
theorem clockTick_eq (s : Sys) : clockTick s = s.tickIn s.machine.slots := by
  have hloop : ∀ (ijs : List (Nat × Nat)) (t : Sys), ijs.foldl tickCore t =
      (ijs.flatMap t.machine.slotsOf).foldl Sys.visit t := by
    intro ijs
    induction ijs with
    | nil => exact fun _ => rfl
    | cons ij ijs ih =>
        intro t
        rw [List.foldl_cons, List.flatMap_cons, List.foldl_append, ih, tickCore_eq]
        congr 2
        exact funext fun ij' => slotsOf_visits _ t ij'
  exact hloop s.machine.coreIndices (s.micro .count)

theorem Machine.nodup_slots (m : Machine) : m.slots.Nodup := by
  have hmem : ∀ {ij : Nat × Nat} {t : Slot}, t ∈ m.slotsOf ij → t.1 = ij.1 ∧ t.2.1 = ij.2 := by
    intro ij t ht
    unfold slotsOf at ht
    split at ht
    · cases ht
    · obtain ⟨k, _, rfl⟩ := List.mem_map.mp ht
      exact ⟨rfl, rfl⟩
  refine List.nodup_flatMap.mpr ⟨fun ij _ => ?_, m.nodup_coreIndices.imp fun hne => ?_⟩
  · unfold slotsOf
    split
    · exact .nil
    · refine List.nodup_range.map fun k k' he => ?_
      exact congrArg (fun t : Slot => t.2.2) he
  · intro t ht ht'
    obtain ⟨h1, h2⟩ := hmem ht
    obtain ⟨h1', h2'⟩ := hmem ht'
    exact hne (Prod.ext (h1.symm.trans h1') (h2.symm.trans h2'))

theorem Prints.tickIn (visits : List Slot) : Prints fun s => s.tickIn visits := by
  refine Prints.comp (f := fun s => s.micro .count) (fun s => ?_)
    (.foldl (fun t => .tickThread t.1 t.2.1 t.2.2) visits)
  exact ⟨[Event.tick (s.clkCounter + 1)], fun log => rfl⟩

/-- The next cycle of a process that never leaves its words. -/
theorem Tracked.stays {spaces : List Space} {start : PcbPtr → VirtualProcess}
    {pid : PcbPtr → Int} {pm : PhysicalMemory} {s : Sys} (h : Tracked spaces start pid pm s)
    (hstays : StaysInWords spaces start) {core : Core} {hw : HardwareThread} {p : PcbPtr}
    (hcore : core ∈ s.machine.cores) (hmem : hw ∈ core.hwThreads) (hp : hw.pcb = some p) :
    StaysInPages spaces p (s.exec hw pm p) := by
  intro a ha hrun
  obtain ⟨b, hb, hptbr, _, hview⟩ := (h.age p).threads core hcore hw hmem p hp
  obtain rfl := Option.some.inj (ha.symm.trans hb)
  have hview : (progress start s.log p).Agrees a.words ((s.exec hw pm p).view a p) := hview
  have hlive := (executes_iff hp hptbr).mp hrun
  exact (inPages_iff (h.layout.present_of (List.mem_of_getElem? ha)) hptbr).mpr
    (hview.inWords (hstays p a ha _ (hview.halted.symm.trans hlive)))

/-- Before a tick every thread is ready. -/
theorem TrackedRun.ready {spaces : List Space} {start : PcbPtr → VirtualProcess}
    {pid : PcbPtr → Int} {pids : List Int} {s : Sys} (h : TrackedRun spaces start pid pids s)
    (hnd : pids.Nodup) (hstays : StaysInWords spaces start) :
    TickReady spaces s.machine.slots (s.micro .count) := by
  obtain ⟨pm, htracked⟩ := h.tracked
  have ht := htracked.tickEvent
  have hthread : ∀ {t hw p}, s.machine.thread? t = some hw → hw.pcb = some p →
      ∃ core ∈ s.machine.cores, hw ∈ core.hwThreads := by
    intro t hw p hthread hp
    obtain ⟨core, hslot⟩ := Machine.exists_slot? hthread hp
    obtain ⟨hcore, hk, _⟩ := Machine.slot?_eq_some.mp hslot
    exact ⟨core, Machine.mem_cores_of_core? hcore, List.mem_of_getElem? hk⟩
  refine ⟨⟨pm, ht.memory, ht.layout⟩, h.compact, h.roundRobin.conserved.nodup_running hnd,
    s.machine.nodup_slots, fun t _ hw p hslot hp => ?_, fun t _ hw p pm' hslot hp hpm' => ?_⟩
  · obtain ⟨core, hcore, hmem⟩ := hthread hslot hp
    obtain ⟨a, ha, hptbr, _⟩ := ht.threads core hcore hw hmem p hp
    exact .inr ⟨a, ha, hptbr⟩
  · obtain ⟨core, hcore, hmem⟩ := hthread hslot hp
    obtain rfl := Option.some.inj (ht.memory.symm.trans hpm')
    exact ht.stays hstays hcore hmem hp

/-- The order of one tick does not matter. -/
theorem TickReady.tickIn {spaces : List Space} {s : Sys}
    (h : TickReady spaces s.machine.slots (s.micro .count)) {visits : List Slot}
    (hperm : visits.Perm s.machine.slots) : SameSeen (clockTick s) (s.tickIn visits) := by
  rw [clockTick_eq]
  exact Reorder.foldl_perm SameSeen.refl (fun _ _ _ => SameSeen.trans)
    (fun t _ _ hst => (Prints.tickThread t.1 t.2.1 t.2.2).congr hst) (fun _ _ _ hp ht => ht.perm hp)
    (fun _ _ _ => TickReady.visit) (fun _ _ _ _ => TickReady.swap) hperm.symm h

/-- The order in which a tick visits the hardware threads does not matter, on
any machine under Round Robin, for processes that alone stay in their pages:
after the same ticks and passes the system is in the same state, whatever
order each tick took, and every process has seen the same output. -/
theorem tickOrder_irrelevant {cfg : Config} {programs : List Program}
    (hpol : cfg.policy = .roundRobin) (hidle : cfg.machine.Idle)
    (hstay : ∀ p k, StaysInPages (loadedSpaces programs) p
      (alone (loaded programs).2.physicalMemory (loadedPcbs cfg programs) p k))
    {s : Sys} (hs : boot (cfg.load programs) (loadedPcbs cfg programs) = some s)
    (actions : List FreeAction) :
    SameSeen ((actions.map FreeAction.erase).foldl Sys.next s) (actions.foldl Sys.freeNext s) := by
  have hnd := loadedPcbs_nodup cfg programs
  have hstays : StaysInWords (enqueuedSpaces cfg programs) (freshProcesses cfg programs) :=
    fun q b hb k => (enqueued_alone (hstay q) hb k).inWords
  have hrun : ∀ (actions : List FreeAction) (t u : Sys),
      TrackedRun (enqueuedSpaces cfg programs) (freshProcesses cfg programs)
        (fun p => ((bootHeap (loadedPcbs cfg programs)).get p).pid)
        ((loadedPcbs cfg programs).map PCB.pid) t → SameSeen t u →
      SameSeen ((actions.map FreeAction.erase).foldl Sys.next t)
        (actions.foldl Sys.freeNext u) := by
    intro actions
    induction actions with
    | nil => exact fun _ _ _ hsame => hsame
    | cons a actions ih =>
        intro t u ht hsame
        refine ih _ _ (ht.next hnd hstays a.erase) ?_
        cases a with
        | tick visits =>
            have hslots : u.machine.slots = t.machine.slots := by rw [hsame.rest]
            show SameSeen (clockTick t) (u.tickIn (visits.order u.machine.slots))
            rw [hslots]
            exact ((ht.ready hnd hstays).tickIn (visits.perm _)).trans
              ((Prints.tickIn _).congr hsame)
        | pass => exact Prints.schedulerPass.congr hsame
  exact hrun actions s s (.boot hpol hidle hs) (.refl s)

/-- The last thread first. -/
def VisitOrder.reversed : VisitOrder := ⟨List.reverse, List.reverse_perm⟩

/-- Two processes on two threads: the output tells which thread came first,
the state does not. -/
theorem tickOrder_irrelevant_reversed : ∃ s,
    boot ((oneCore 2 .roundRobin 1).load [loadAndExit, loadAndExit])
      (loadedPcbs (oneCore 2 .roundRobin 1) [loadAndExit, loadAndExit]) = some s ∧
    ([Action.pass, .tick].foldl Sys.next s).log ≠
      ([FreeAction.pass, .tick .reversed].foldl Sys.freeNext s).log ∧
    SameSeen ([Action.pass, .tick].foldl Sys.next s)
      ([FreeAction.pass, .tick .reversed].foldl Sys.freeNext s) := by
  have hrun : (boot ((oneCore 2 .roundRobin 1).load [loadAndExit, loadAndExit])
      (loadedPcbs (oneCore 2 .roundRobin 1) [loadAndExit, loadAndExit])).any (fun s =>
        decide (([Action.pass, .tick].foldl Sys.next s).log ≠
          ([FreeAction.pass, .tick .reversed].foldl Sys.freeNext s).log)) = true := by
    decide +kernel
  obtain ⟨s, hs, hdiffer⟩ := (Option.any_eq_true ..).mp hrun
  exact ⟨s, hs, of_decide_eq_true hdiffer,
    @tickOrder_irrelevant (oneCore 2 .roundRobin 1) [loadAndExit, loadAndExit] rfl
      (Machine.createMachine_idle 1 1 2) loadAlone_stays s hs [.pass, .tick .reversed]⟩

end LocOS
