import LocOS.Cycle
import Mathlib.Data.List.Nodup

/-!
# Scan

The backward scan of a scheduler pass visits every executing process exactly
once, although it removes slots while it walks: a removal at `k` moves only
slots above `k`, which were visited before. The rule `scanMachine_inv` says so
once, and the invariants of a pass are proved by its single step.
-/

namespace LocOS

/-! ## The order of the visits -/

namespace Machine

/-- The executing processes in the order of the scan. -/
def scanOrder (m : Machine) : List PcbPtr := m.cores.flatMap fun core => core.running.reverse

theorem scanOrder_perm (m : Machine) : m.scanOrder.Perm m.running := by
  rw [List.perm_iff_count]
  intro p
  simp only [scanOrder, running, List.count_flatMap]
  congr 2
  funext core
  exact List.count_reverse ..

/-- The executing processes of some cores, in the order of the scan. -/
def scanOrderOf (m : Machine) (ijs : List (Nat × Nat)) : List PcbPtr :=
  ijs.flatMap fun ij => ((m.core? ij.1 ij.2).map fun core => core.running.reverse).getD []

theorem flatMap_range_getElem? {α β : Type*} (l : List α) (f : α → List β) :
    (List.range l.length).flatMap (fun j => (l[j]?.map f).getD []) = l.flatMap f := by
  induction l with
  | nil => rfl
  | cons a l ih =>
      rw [List.length_cons, List.range_succ_eq_map, List.flatMap_cons, List.flatMap_map]
      simpa using ih

theorem flatMap_zipIdx {α β : Type*} (l : List α) (g : α → List β) (n : Nat) :
    (l.zipIdx n).flatMap (fun a => g a.1) = l.flatMap g := by
  induction l generalizing n with
  | nil => rfl
  | cons a l ih => rw [List.zipIdx_cons, List.flatMap_cons, ih, List.flatMap_cons]

/-- Walking the indices visits the cores in order. -/
theorem flatMap_coreIndices {β : Type*} (m : Machine) (f : Core → List β) :
    m.coreIndices.flatMap (fun ij => ((m.core? ij.1 ij.2).map f).getD []) =
      m.cores.flatMap f := by
  have hcpu : ∀ a ∈ m.cpus.zipIdx,
      ((List.range a.1.cores.length).map (a.2, ·)).flatMap
        (fun ij => ((m.core? ij.1 ij.2).map f).getD []) = a.1.cores.flatMap f := by
    intro a ha
    have hget : m.cpus[a.2]? = some a.1 := List.mem_zipIdx_iff_getElem?.mp ha
    rw [List.flatMap_map, ← flatMap_range_getElem? a.1.cores]
    simp only [core?, hget, Option.bind_some]
  rw [coreIndices, List.flatMap_assoc, cores, List.flatMap_assoc, ← flatMap_zipIdx m.cpus _ 0]
  exact List.flatMap_congr hcpu

theorem scanOrderOf_coreIndices (m : Machine) : m.scanOrderOf m.coreIndices = m.scanOrder :=
  m.flatMap_coreIndices fun core => core.running.reverse

theorem pairwise_zipIdx {α : Type*} (l : List α) (n : Nat) :
    (l.zipIdx n).Pairwise fun a b => a.2 < b.2 := by
  induction l generalizing n with
  | nil => exact .nil
  | cons a l ih =>
      rw [List.zipIdx_cons]
      refine .cons (fun b hb => ?_) (ih (n + 1))
      have := List.le_snd_of_mem_zipIdx hb
      exact this

theorem nodup_coreIndices (m : Machine) : m.coreIndices.Nodup := by
  rw [coreIndices, List.nodup_flatMap]
  constructor
  · intro a _
    exact List.nodup_range.map fun j j' h => (Prod.mk.inj h).2
  · refine (pairwise_zipIdx m.cpus 0).imp fun {a b} hab => ?_
    intro ij ha hb
    obtain ⟨_, _, rfl⟩ := List.mem_map.mp ha
    obtain ⟨_, _, he⟩ := List.mem_map.mp hb
    have := (Prod.mk.inj he).1
    omega

end Machine

/-! ## One visit -/

/-- `pcb->quantum_counter++`. -/
def PCB.charge (pcb : PCB) : PCB := { pcb with quantumCounter := pcb.quantumCounter + 1 }

/-- The system after the quantum counter of a process went up. -/
def Sys.charge (s : Sys) (p : PcbPtr) : Sys :=
  { s with pcbs := s.pcbs.set p (s.pcbs.get p).charge }

/-- The three things a visit does to an executing process. -/
theorem scanThread_cases {i j k : Nat} {s : Sys} {core : Core} {hw : HardwareThread}
    {p : PcbPtr} (hslot : s.machine.slot? i j k = some (core, hw, p)) :
    ((s.pcbs.get p).charge.finished = true ∧
      scanThread i j k s = completeThread i j k core p (s.charge p)) ∨
    ((s.pcbs.get p).charge.finished = false ∧
      quantumExpired s.sched (s.pcbs.get p).charge = true ∧
      scanThread i j k s = expireThread i j k core hw p (s.charge p)) ∨
    ((s.pcbs.get p).charge.finished = false ∧
      quantumExpired s.sched (s.pcbs.get p).charge = false ∧
      scanThread i j k s = s.charge p) := by
  unfold scanThread
  rw [hslot]
  cases hfin : (s.pcbs.get p).charge.finished with
  | true => exact .inl ⟨rfl, if_pos hfin⟩
  | false =>
      right
      cases hexp : quantumExpired s.sched (s.pcbs.get p).charge with
      | true =>
          refine .inl ⟨rfl, rfl, ?_⟩
          exact (if_neg (Bool.eq_false_iff.mp hfin)).trans (if_pos hexp)
      | false =>
          refine .inr ⟨rfl, rfl, ?_⟩
          exact (if_neg (Bool.eq_false_iff.mp hfin)).trans (if_neg (Bool.eq_false_iff.mp hexp))

theorem scanThread_machine {i j k : Nat} {s : Sys} {core : Core} {hw : HardwareThread}
    {p : PcbPtr} (hslot : s.machine.slot? i j k = some (core, hw, p)) :
    (scanThread i j k s).machine = s.machine ∨
      (scanThread i j k s).machine = s.machine.setCore i j (core.removeThread k) := by
  rcases scanThread_cases hslot with ⟨_, h⟩ | ⟨_, _, h⟩ | ⟨_, _, h⟩
  · exact .inr (by rw [h]; rfl)
  · exact .inr (by rw [h]; rfl)
  · exact .inl (by rw [h]; rfl)

/-! ## The visit rule -/

section
variable (P : List PcbPtr → Sys → Prop)
  (hstep : ∀ (todo : List PcbPtr) (i j k : Nat) (t : Sys) (core : Core) (hw : HardwareThread)
    (p : PcbPtr), t.machine.Compact → t.machine.slot? i j k = some (core, hw, p) →
    P (p :: todo) t → P todo (scanThread i j k t))
include hstep

/-- One core: the visits go down its slots, and no other core changes. -/
theorem scanCore_inv {s : Sys} {i j : Nat} {core : Core} {rest : List PcbPtr}
    (hc : s.machine.Compact) (hcore : s.machine.core? i j = some core)
    (h0 : P (core.running.reverse ++ rest) s) :
    P rest (scanCore s (i, j)) ∧ (scanCore s (i, j)).machine.Compact ∧
      ∀ ij, ij ≠ (i, j) →
        (scanCore s (i, j)).machine.core? ij.1 ij.2 = s.machine.core? ij.1 ij.2 := by
  have hholds := hc.core hcore
  have hinv := @Loop.down_inv _ (scanThread i j) core.currentPcbCount.toNat s
    (fun n t => t.machine.Compact ∧
      (∀ ij, ij ≠ (i, j) → t.machine.core? ij.1 ij.2 = s.machine.core? ij.1 ij.2) ∧
      ∃ c, t.machine.core? i j = some c ∧ n ≤ c.running.length ∧
        P ((c.running.take n).reverse ++ rest) t) ?_ ?_
  · obtain ⟨hcompact, hother, c, _, _, hP⟩ := hinv
    simp only [scanCore, hcore]
    exact ⟨hP, hcompact, hother⟩
  · have hcount : core.currentPcbCount.toNat = core.running.length := by
      rw [hholds.count, Int.toNat_natCast]
    refine ⟨hc, fun _ _ => rfl, core, hcore, Nat.le_of_eq hcount, ?_⟩
    rw [hcount, List.take_length]
    exact h0
  · rintro n t - ⟨hcompact, hother, c, hc', hn, hP⟩
    have hh := hcompact.core hc'
    have hget : c.running[n]? = some c.running[n] := List.getElem?_eq_getElem hn
    obtain ⟨hw, hhw, hp⟩ := hh.counts.slot n _ hget
    have hslot := Machine.slot?_eq_some.mpr ⟨hc', hhw, hp⟩
    -- the visit at `n` is the head of what is left
    have hP' : P ((c.running.take n).reverse ++ rest) (scanThread i j n t) := by
      refine hstep _ i j n t c hw _ hcompact hslot ?_
      rw [← List.take_append_getElem hn, List.reverse_append] at hP
      exact hP
    rcases scanThread_machine hslot with hm | hm
    · exact ⟨hm ▸ hcompact, fun ij hne => hm ▸ hother ij hne, c, hm ▸ hc',
        Nat.le_of_succ_le hn, hP'⟩
    · have hrem := hh.removeThread hn
      refine ⟨hm ▸ hcompact.setCore hc' hrem, fun ij hne => ?_, c.removeThread n, ?_, ?_, ?_⟩
      · rw [hm, Machine.core?_setCore_ne _ _ hne]
        exact hother ij hne
      · rw [hm]
        exact Machine.core?_setCore_self _ hc'
      · rw [hrem.running_eq, List.length_eraseIdx_of_lt hn]
        omega
      -- a removal at `n` leaves the first `n` slots where they are
      · rw [hrem.running_eq, List.take_eraseIdx_eq_take_of_le _ _ _ (Nat.le_refl n)]
        exact hP'

/-- The visit rule: `P todo` holds when exactly `todo` is left to visit. -/
theorem scanMachine_inv {s : Sys} (hc : s.machine.Compact) (h0 : P s.machine.scanOrder s) :
    P [] (scanMachine s) ∧ (scanMachine s).machine.Compact := by
  have hinv := @Loop.foldl_rest_inv _ _ scanCore s.machine.coreIndices s
    (fun ijs t => t.machine.Compact ∧ P (t.machine.scanOrderOf ijs) t) ?_ ?_
  · exact ⟨hinv.2, hinv.1⟩
  · rw [Machine.scanOrderOf_coreIndices]
    exact ⟨hc, h0⟩
  · rintro ⟨i, j⟩ rest t hsuf ⟨hcompact, hP⟩
    -- no core comes twice, so the cores still to visit are untouched
    have hfresh : ∀ ij ∈ rest, ij ≠ (i, j) := by
      have hnd := hsuf.sublist.nodup s.machine.nodup_coreIndices
      rintro ij hij rfl
      exact (List.nodup_cons.mp hnd).1 hij
    rw [Machine.scanOrderOf, List.flatMap_cons] at hP
    cases hcore : t.machine.core? i j with
    | none =>
        simp only [hcore] at hP
        simp only [scanCore, hcore]
        exact ⟨hcompact, hP⟩
    | some core =>
        simp only [hcore] at hP
        obtain ⟨hP', hcompact', hother⟩ := scanCore_inv P hstep hcompact hcore hP
        refine ⟨hcompact', ?_⟩
        have hsame : (scanCore t (i, j)).machine.scanOrderOf rest = t.machine.scanOrderOf rest :=
          List.flatMap_congr fun ij hij => by rw [hother ij (hfresh ij hij)]
        rw [hsame]
        exact hP'

end

end LocOS
