import LocOS.Slots
import Mathlib.Data.Nat.Init

/-!
# Removal

`remove_process_from_core` (`sys/machine.c`), which finds a process by its PID
and shifts the threads behind it field by field, against the removal the
scheduler does by whole threads. The fields it forgets are the registers and
the MMU: they stay with the slot, not with the process.
-/

namespace LocOS

/-! ## The function -/

/-- The fields the shift copies from the next thread. -/
def HardwareThread.copyFields (hw next : HardwareThread) : HardwareThread :=
  { hw with pcb := next.pcb, ptbr := next.ptbr, pc := next.pc, ir := next.ir }

theorem HardwareThread.copyFields_eq_iff {hw next : HardwareThread} :
    hw.copyFields next = next ↔ hw.registers = next.registers ∧ hw.mmu = next.mmu := by
  obtain ⟨_, _, _, _, _, _⟩ := hw
  obtain ⟨_, _, _, _, _, _⟩ := next
  simp [copyFields]

namespace Core

/-- The body for the process on slot `k`. The legacy array is refreshed from
the PCBs themselves. -/
def removeProcess (core : Core) (pcbs : PcbHeap) (k : Nat) : Core :=
  let last := (core.currentPcbCount - 1).toNat
  let cleared := { core with hwThreads := core.hwThreads.modify k HardwareThread.clear }
  let shifted := Loop.up (fun l core =>
      let next := core.hwThreads.getD (k + l + 1) idleThread
      let core := { core with
        hwThreads := core.hwThreads.modify (k + l) fun hw => hw.copyFields next }
      match next.pcb with
      | none => core
      | some p => { core with pcbs := core.pcbs.set (k + l) (pcbs.get p) })
    (last - k) cleared
  { shifted with
    hwThreads := shifted.hwThreads.modify last fun hw => { hw with pcb := none, ptbr := none }
    currentPcbCount := core.currentPcbCount - 1 }

/-- The first counted slot that holds the PID. -/
def slotOfPid? (core : Core) (pcbs : PcbHeap) (pid : Int) : Option Nat :=
  (List.range core.currentPcbCount.toNat).find? fun k =>
    ((core.hwThreads[k]?).bind (·.pcb)).any fun p => decide ((pcbs.get p).pid = pid)

end Core

/-- `none` when no core holds the PID. -/
def removeProcessFromCore (m : Machine) (pcbs : PcbHeap) (pid : Int) : Option Machine :=
  m.coreIndices.findSome? fun (i, j) =>
    (m.core? i j).bind fun core =>
      (core.slotOfPid? pcbs pid).map fun k => m.setCore i j (core.removeProcess pcbs k)

/-! ## What the two removals must agree on -/

/-- The same processes on the same slots, and every counted slot in the same
state. -/
structure Core.SameSlots (core core' : Core) : Prop where
  count : core.currentPcbCount = core'.currentPcbCount
  occupied : ∀ l : Nat, (core.hwThreads[l]?).bind (·.pcb) = (core'.hwThreads[l]?).bind (·.pcb)
  state : ∀ l : Nat, l < core.currentPcbCount.toNat → core.hwThreads[l]? = core'.hwThreads[l]?

/-- Every core agrees. -/
def Machine.SameSlots (m m' : Machine) : Prop :=
  ∀ i j, Option.Rel Core.SameSlots (m.core? i j) (m'.core? i j)

/-- A cleared MMU. -/
def MMU.off : MMU where
  pageTableBase := none
  enabled := false

/-- The threads that move down one slot find there the registers they had, and
had their MMU off. -/
def Core.ShiftHarmless (core : Core) (k : Nat) : Prop :=
  ∀ (l : Nat) (hw next : HardwareThread), k ≤ l → l + 1 < core.currentPcbCount.toNat →
    core.hwThreads[l]? = some hw → core.hwThreads[l + 1]? = some next →
      hw.registers = next.registers ∧ next.mmu = .off

/-! ## The shift -/

namespace Core

theorem removeProcess_hwThreads (core : Core) (pcbs : PcbHeap) (k : Nat) :
    (core.removeProcess pcbs k).hwThreads =
      (Loop.up (fun l t => t.modify (k + l) fun hw =>
          hw.copyFields (t.getD (k + l + 1) idleThread))
        ((core.currentPcbCount - 1).toNat - k)
        (core.hwThreads.modify k HardwareThread.clear)).modify
        (core.currentPcbCount - 1).toNat clearLast := by
  simp only [removeProcess]
  rw [Loop.up_map Core.hwThreads (fun l t => t.modify (k + l) fun hw =>
    hw.copyFields (t.getD (k + l + 1) idleThread))]
  · rfl
  · intro l core
    split <;> rfl

variable {core : Core} {ps : List PcbPtr} {k : Nat}

/-- How far the shift goes. -/
theorem Holds.shift_bounds (h : core.Holds ps) (hk : k < ps.length) :
    (core.currentPcbCount - 1).toNat = ps.length - 1 ∧
      k + (ps.length - 1 - k) < (core.hwThreads.modify k HardwareThread.clear).length := by
  have hle : ps.length ≤ core.hwThreads.length := h.le
  constructor
  · rw [h.count]
    omega
  · rw [List.length_modify]
    omega

/-- The slots the shift writes get the copied fields of the next thread; on all
others the two removals do the same. -/
theorem Holds.removeProcess_slot (h : core.Holds ps) (hk : k < ps.length) (pcbs : PcbHeap)
    (l : Nat) :
    (core.removeProcess pcbs k).hwThreads[l]? =
      if k ≤ l ∧ l + 1 < ps.length then
        ((core.hwThreads.modify k HardwareThread.clear)[l]?).bind fun hw =>
          (core.hwThreads[l + 1]?).map hw.copyFields
      else (core.removeThread k).hwThreads[l]? := by
  obtain ⟨hlast, hlen⟩ := h.shift_bounds hk
  rw [removeProcess_hwThreads, removeThread_hwThreads, hlast]
  by_cases hin : k ≤ l ∧ l + 1 < ps.length
  · rw [if_pos hin, List.getElem?_modify_ne _ _ (by omega), Loop.getElem?_up_combine _ _ _ _ _ hlen,
      if_pos (by omega), List.getElem?_modify_ne _ (j := l + 1) _ (by omega)]
  · rw [if_neg hin, List.getElem?_modify, List.getElem?_modify,
      Loop.getElem?_up_combine _ _ _ _ _ hlen, Loop.getElem?_up_shift _ _ _ _ hlen,
      if_neg (by omega), if_neg (by omega)]

/-- The scheduler moves the whole thread. -/
theorem Holds.removeThread_shifted (h : core.Holds ps) {l : Nat} (hkl : k ≤ l)
    (hl : l + 1 < ps.length) :
    (core.removeThread k).hwThreads[l]? = core.hwThreads[l + 1]? := by
  obtain ⟨hlast, hlen⟩ := h.shift_bounds (k := k) (by omega)
  rw [removeThread_hwThreads, hlast, List.getElem?_modify_ne _ _ (by omega),
    Loop.getElem?_up_shift _ _ _ _ hlen, if_pos (by omega),
    List.getElem?_modify_ne _ _ (by omega)]

section
variable {l : Nat} {hw next : HardwareThread}

theorem Holds.removeProcess_shifted (h : core.Holds ps) (pcbs : PcbHeap) (hkl : k ≤ l)
    (hl : l + 1 < ps.length) (hhw : core.hwThreads[l]? = some hw)
    (hnext : core.hwThreads[l + 1]? = some next) :
    (core.removeProcess pcbs k).hwThreads[l]? =
      some ((if k = l then hw.clear else hw).copyFields next) := by
  rw [h.removeProcess_slot (by omega), if_pos ⟨hkl, hl⟩, List.getElem?_modify, hhw, hnext]
  rfl

/-- A slot the shift has written comes out right when the thread it got finds
its registers there, and its MMU was as the slot's. -/
theorem Holds.shifted_iff (h : core.Holds ps) (pcbs : PcbHeap) (hkl : k ≤ l)
    (hl : l + 1 < ps.length) (hhw : core.hwThreads[l]? = some hw)
    (hnext : core.hwThreads[l + 1]? = some next) :
    (core.removeProcess pcbs k).hwThreads[l]? = (core.removeThread k).hwThreads[l]? ↔
      hw.registers = next.registers ∧ (if k = l then .off else hw.mmu) = next.mmu := by
  rw [h.removeProcess_shifted pcbs hkl hl hhw hnext, h.removeThread_shifted hkl hl, hnext,
    Option.some_inj, HardwareThread.copyFields_eq_iff]
  by_cases hfirst : k = l
  · rw [if_pos hfirst, if_pos hfirst]
    rfl
  · rw [if_neg hfirst, if_neg hfirst]

end

/-- Both removals leave the same processes on the same slots. -/
theorem Holds.removeProcess_occupied (h : core.Holds ps) (hk : k < ps.length) (pcbs : PcbHeap)
    (l : Nat) :
    ((core.removeProcess pcbs k).hwThreads[l]?).bind (·.pcb) =
      ((core.removeThread k).hwThreads[l]?).bind (·.pcb) := by
  by_cases hin : k ≤ l ∧ l + 1 < ps.length
  · have hle : ps.length ≤ core.hwThreads.length := h.le
    have hhw := List.getElem?_eq_getElem (l := core.hwThreads) (i := l) (by omega)
    have hnext := List.getElem?_eq_getElem (l := core.hwThreads) (i := l + 1) (by omega)
    rw [h.removeProcess_shifted pcbs hin.1 hin.2 hhw hnext, h.removeThread_shifted hin.1 hin.2,
      hnext]
    rfl
  · rw [h.removeProcess_slot hk, if_neg hin]

/-- A shift that goes wrong nowhere needs the MMU off all the way: the first
slot's was cleared. -/
theorem Holds.shiftHarmless_of_state (h : core.Holds ps) (pcbs : PcbHeap)
    (hstate : ∀ l, k ≤ l → l + 1 < ps.length →
      (core.removeProcess pcbs k).hwThreads[l]? = (core.removeThread k).hwThreads[l]?) :
    core.ShiftHarmless k := by
  have hlen : ps.length ≤ core.hwThreads.length := h.le
  intro l hw next hkl
  induction l, hkl using Nat.le_induction generalizing hw next with
  | base =>
      intro hl hhw hnext
      have hl : k + 1 < ps.length := by simpa [h.count] using hl
      have hsame := (h.shifted_iff pcbs (Nat.le_refl k) hl hhw hnext).mp
        (hstate k (Nat.le_refl k) hl)
      rw [if_pos rfl] at hsame
      exact ⟨hsame.1, hsame.2.symm⟩
  | succ l hkl ih =>
      intro hl hhw hnext
      have hl : l + 1 + 1 < ps.length := by simpa [h.count] using hl
      have hsame := (h.shifted_iff pcbs (Nat.le_succ_of_le hkl) hl hhw hnext).mp
        (hstate (l + 1) (Nat.le_succ_of_le hkl) hl)
      rw [if_neg (by omega)] at hsame
      have hbelow := List.getElem?_eq_getElem (l := core.hwThreads) (i := l) (by omega)
      have hoff := (ih _ _ (by simp only [h.count, Int.toNat_natCast]; omega) hbelow hhw).2
      exact ⟨hsame.1, hsame.2.symm.trans hoff⟩

/-- On one core the removals agree exactly when the shift does no harm. -/
theorem Holds.sameSlots_iff (h : core.Holds ps) (hk : k < ps.length) (pcbs : PcbHeap) :
    (core.removeProcess pcbs k).SameSlots (core.removeThread k) ↔ core.ShiftHarmless k := by
  have hlen : ps.length ≤ core.hwThreads.length := h.le
  have hcount : (core.removeProcess pcbs k).currentPcbCount.toNat = ps.length - 1 :=
    (h.shift_bounds hk).1
  constructor
  · intro hsame
    refine h.shiftHarmless_of_state pcbs fun l _ hl => hsame.state l ?_
    rw [hcount]
    omega
  · intro hharmless
    refine ⟨rfl, h.removeProcess_occupied hk pcbs, fun l hl => ?_⟩
    rw [hcount] at hl
    by_cases hkl : k ≤ l
    · have hhw := List.getElem?_eq_getElem (l := core.hwThreads) (i := l) (by omega)
      have hnext := List.getElem?_eq_getElem (l := core.hwThreads) (i := l + 1) (by omega)
      have hin : l + 1 < core.currentPcbCount.toNat := by
        simp only [h.count, Int.toNat_natCast]
        omega
      obtain ⟨hregisters, hoff⟩ := hharmless l _ _ hkl hin hhw hnext
      refine (h.shifted_iff pcbs hkl (by omega) hhw hnext).mpr ⟨hregisters, ?_⟩
      rw [hoff]
      split
      · rfl
      · -- the slot is itself one that moved down
        have hbelow := List.getElem?_eq_getElem (l := core.hwThreads) (i := l - 1) (by omega)
        have hthis : core.hwThreads[l - 1 + 1]? = some core.hwThreads[l] := by
          rw [Nat.sub_add_cancel (by omega), hhw]
        exact (hharmless (l - 1) _ _ (by omega) (by omega) hbelow hthis).2
    · rw [h.removeProcess_slot hk, if_neg fun hin => hkl hin.1]

theorem SameSlots.refl (core : Core) : core.SameSlots core :=
  ⟨rfl, fun _ => rfl, fun _ _ => rfl⟩

/-! ## The search -/

theorem slotOfPid?_spec {pcbs : PcbHeap} {pid : Int} (h : core.slotOfPid? pcbs pid = some k) :
    ∃ hw p, core.hwThreads[k]? = some hw ∧ hw.pcb = some p ∧ (pcbs.get p).pid = pid := by
  have hfound := List.find?_some h
  obtain ⟨p, hp, hpid⟩ := (Option.any_eq_true ..).mp hfound
  obtain ⟨hw, hhw, hpcb⟩ := Option.bind_eq_some_iff.mp hp
  exact ⟨hw, p, hhw, hpcb, of_decide_eq_true hpid⟩

/-- A counted slot with the PID is found, or one before it. -/
theorem slotOfPid?_isSome {pcbs : PcbHeap} {pid : Int} {hw : HardwareThread} {p : PcbPtr}
    (hk : k < core.currentPcbCount.toNat) (hhw : core.hwThreads[k]? = some hw)
    (hp : hw.pcb = some p) (hpid : (pcbs.get p).pid = pid) :
    (core.slotOfPid? pcbs pid).isSome := by
  rw [slotOfPid?, List.find?_isSome]
  refine ⟨k, List.mem_range.mpr hk, ?_⟩
  rw [hhw, Option.bind_some, hp]
  exact decide_eq_true hpid

end Core

namespace Machine

variable {m : Machine} {pcbs : PcbHeap} {pid : Int} {i j k : Nat} {core : Core}
  {hw : HardwareThread} {p : PcbPtr}

/-- A PID that occurs once is found where it is. -/
theorem removeProcessFromCore_eq (hcompact : m.Compact)
    (hslot : m.slot? i j k = some (core, hw, p)) (hpid : (pcbs.get p).pid = pid)
    (honce : ∀ i' j' k' core' hw' q, m.slot? i' j' k' = some (core', hw', q) →
      (pcbs.get q).pid = pid → (i', j', k') = (i, j, k)) :
    removeProcessFromCore m pcbs pid = some (m.setCore i j (core.removeProcess pcbs k)) := by
  obtain ⟨hcore, hhw, hp⟩ := slot?_eq_some.mp hslot
  have hcounted : k < core.currentPcbCount.toNat := by
    have hh := hcompact.core hcore
    rw [hh.count]
    exact (List.getElem?_eq_some_iff.mp (hh.busy hhw hp)).1
  have hsome : (removeProcessFromCore m pcbs pid).isSome := by
    rw [removeProcessFromCore, List.findSome?_isSome_iff]
    refine ⟨(i, j), mem_coreIndices.mpr (by rw [hcore]; rfl), ?_⟩
    dsimp only
    rw [hcore, Option.bind_some, Option.isSome_map]
    exact Core.slotOfPid?_isSome hcounted hhw hp hpid
  obtain ⟨m', hm'⟩ := Option.isSome_iff_exists.mp hsome
  rw [hm']
  obtain ⟨⟨i', j'⟩, _, hfound⟩ := List.exists_of_findSome?_eq_some hm'
  obtain ⟨core', hcore', hfound⟩ := Option.bind_eq_some_iff.mp hfound
  obtain ⟨k', hk', rfl⟩ := Option.map_eq_some_iff.mp hfound
  -- whatever slot the search stopped at, it is the only one with the PID
  obtain ⟨hw', q, hhw', hq, hqpid⟩ := Core.slotOfPid?_spec hk'
  obtain ⟨rfl, rfl, rfl⟩ : i' = i ∧ j' = j ∧ k' = k := by
    simpa using honce i' j' k' core' hw' q (slot?_eq_some.mpr ⟨hcore', hhw', hq⟩) hqpid
  obtain rfl := Option.some.inj (hcore.symm.trans hcore')
  rfl

/-- Machines that differ in one core agree when the core does. -/
theorem sameSlots_setCore_iff (hcore : m.core? i j = some core) {new new' : Core} :
    (m.setCore i j new).SameSlots (m.setCore i j new') ↔ new.SameSlots new' := by
  constructor
  · intro h
    have hij := h i j
    rw [core?_setCore_self new hcore, core?_setCore_self new' hcore] at hij
    cases hij with
    | some hsame => exact hsame
  · intro hsame i' j'
    by_cases hij : (i', j') = (i, j)
    · obtain ⟨rfl, rfl⟩ := Prod.mk.inj hij
      rw [core?_setCore_self new hcore, core?_setCore_self new' hcore]
      exact .some hsame
    · rw [core?_setCore_ne m new hij, core?_setCore_ne m new' hij]
      cases m.core? i' j' with
      | none => exact .none
      | some other => exact .some (.refl other)

end Machine

/-- `remove_process_from_core` finds a PID that occurs once, and does what the
scheduler's removal of its slot does exactly when the threads behind the slot
share their registers with it and had their MMU off, or there are none. -/
theorem removeProcessFromCore_agrees_iff {m : Machine} (hcompact : m.Compact) {pcbs : PcbHeap}
    {pid : Int} {i j k : Nat} {core : Core} {hw : HardwareThread} {p : PcbPtr}
    (hslot : m.slot? i j k = some (core, hw, p)) (hpid : (pcbs.get p).pid = pid)
    (honce : ∀ i' j' k' core' hw' q, m.slot? i' j' k' = some (core', hw', q) →
      (pcbs.get q).pid = pid → (i', j', k') = (i, j, k)) :
    ∃ m', removeProcessFromCore m pcbs pid = some m' ∧
      (m'.SameSlots (m.setCore i j (core.removeThread k)) ↔ core.ShiftHarmless k) := by
  obtain ⟨hcore, hhw, hp⟩ := Machine.slot?_eq_some.mp hslot
  have hh := hcompact.core hcore
  have hlt := (List.getElem?_eq_some_iff.mp (hh.busy hhw hp)).1
  refine ⟨_, Machine.removeProcessFromCore_eq hcompact hslot hpid honce, ?_⟩
  rw [Machine.sameSlots_setCore_iff hcore]
  exact hh.sameSlots_iff hlt pcbs

/-- Two processes, with 0 and with 7 in their registers. -/
def twoThreadPcbs : PcbHeap where
  cells := fun p =>
    [(0 : Word), 7][p]?.map fun value =>
      { createPcb (p + 1) with
        context := { pc := 0, instruction := 0, registers := fun _ => value } }
  next := 2

/-- They execute on one core. -/
def twoThreadCore : Core :=
  ((createCore 2).assign 0 (twoThreadPcbs.get 0)).assign 1 (twoThreadPcbs.get 1)

/-- A machine of that core only. -/
def twoThreads : Machine where
  cpus := [{ cores := [twoThreadCore] }]

theorem twoThreadCore_holds : twoThreadCore.Holds [0, 1] :=
  ((Core.createCore_holds 2).assign (by decide) 0 _).assign (by decide) 1 _

/-- What a slot of the machine would execute with: process, register, MMU. -/
def threadState (m : Machine) (k : Nat) (r : Fin 16) : Option (PcbPtr × Word × Bool) :=
  (m.slot? 0 0 k).map fun slot => (slot.2.2, slot.2.1.registers r, slot.2.1.mmu.enabled)

/-- With the first process removed the second goes on with the registers of
the first and no MMU; the scheduler's removal keeps both. -/
theorem removeProcessFromCore_mixes :
    (∀ r, (removeProcessFromCore twoThreads twoThreadPcbs 1).bind (threadState · 0 r) =
        some (1, 0, false)) ∧
      ∀ r, threadState (twoThreads.setCore 0 0 (twoThreadCore.removeThread 0)) 0 r =
        some (1, 7, true) := by
  decide

theorem removeProcessFromCore_two :
    ∃ m', removeProcessFromCore twoThreads twoThreadPcbs 1 = some m' ∧
      ¬ m'.SameSlots (twoThreads.setCore 0 0 (twoThreadCore.removeThread 0)) := by
  have hcompact : twoThreads.Compact := by
    intro core hcore
    obtain rfl : core = twoThreadCore := by simpa [twoThreads, Machine.cores] using hcore
    exact ⟨_, twoThreadCore_holds⟩
  have honce : ∀ i' j' k' core' hw' q, twoThreads.slot? i' j' k' = some (core', hw', q) →
      (twoThreadPcbs.get q).pid = 1 → (i', j', k') = (0, 0, 0) := by
    intro i' j' k' core' hw' q hslot hpid
    obtain ⟨hcore', hhw', hq⟩ := Machine.slot?_eq_some.mp hslot
    obtain ⟨cpu, hcpu, hcore'⟩ := Option.bind_eq_some_iff.mp hcore'
    obtain ⟨rfl, rfl⟩ : i' = 0 ∧ { cores := [twoThreadCore] } = cpu := by
      simpa [twoThreads, List.getElem?_singleton] using hcpu
    obtain ⟨rfl, rfl⟩ : j' = 0 ∧ twoThreadCore = core' := by
      simpa [List.getElem?_singleton] using hcore'
    have hbusy := twoThreadCore_holds.busy hhw' hq
    rcases k' with _ | _ | k'
    · rfl
    · obtain rfl : 1 = q := Option.some.inj hbusy
      exact absurd hpid (by decide)
    · cases hbusy
  obtain ⟨m', hm', hsame⟩ :=
    removeProcessFromCore_agrees_iff hcompact (i := 0) (j := 0) (k := 0) rfl rfl honce
  refine ⟨m', hm', fun h => ?_⟩
  have hregisters := (hsame.mp h 0 _ _ (Nat.le_refl 0) (by decide) rfl rfl).1
  exact absurd (congrFun hregisters 0) (by decide)

end LocOS
