import LocOS.Lib.Rounds
import LocOS.Lifetime
import LocOS.Quantum
import LocOS.Roomy

/-!
# Rounds

One scheduler pass after each clock tick. In a roomy system every round takes
a tick from the TTL of each executing process or ends it, and leaves a process
executing as long as there is one: so all of them end.
-/

namespace LocOS

open scoped List

/-- A clock tick, and the scheduler pass after it. -/
def Sys.round (s : Sys) : Sys := (s.next .tick).next .pass

/-- Ticks the process has left. -/
def Sys.left (s : Sys) (p : PcbPtr) : Nat := (s.pcbs.get p).ttl.toNat

/-! ## A tick -/

/-- A visit takes one tick at least from the process visited. -/
theorem tickThread_left {s : Sys} {i j k : Nat} {core : Core} {hw : HardwareThread} {p : PcbPtr}
    (hslot : s.machine.slot? i j k = some (core, hw, p)) (hlive : s.pcbs.Live p) (q : PcbPtr) :
    (tickThread i j k s).left q ≤ s.left q - if q = p then 1 else 0 := by
  have haged : ((s.pcbs.age p).get q).ttl.toNat = s.left q - if q = p then 1 else 0 := by
    by_cases hqp : q = p
    · subst hqp
      rw [PcbHeap.age, PcbHeap.get_set_self hlive, Lifetime.decrementTtl_toNat, if_pos rfl,
        Sys.left]
    · rw [PcbHeap.age, PcbHeap.get_set_ne _ hqp, if_neg hqp]
      rfl
  rcases tickThread_cases i j k s with
    ⟨hnone, _⟩ | ⟨core', hw', p', hslot', _, he⟩ | ⟨core', hw', p', pm, base, hslot', _, _, _, he⟩
  · rw [hslot] at hnone
    cases hnone
  · obtain ⟨rfl, rfl, rfl⟩ : core = core' ∧ hw = hw' ∧ p = p' := by
      simpa using hslot.symm.trans hslot'
    rw [he]
    exact Nat.le_of_eq haged
  · obtain ⟨rfl, rfl, rfl⟩ : core = core' ∧ hw = hw' ∧ p = p' := by
      simpa using hslot.symm.trans hslot'
    rw [he, ← haged]
    show ((executeInstruction (fetched (s.exec hw pm p) p) p
      (fetch (s.exec hw pm p))).pcbs.get q).ttl.toNat ≤ _
    rw [executeInstruction_pcbs]
    split
    · by_cases hqp : q = p
      · subst hqp
        have hl : (s.pcbs.age q).Live q := (PcbHeap.live_set ..).mpr hlive
        rw [PcbHeap.get_set_self (h := (fetched (s.exec hw pm q) q).pcbs) hl]
        exact Lifetime.halt_ttl _ _
      · rw [PcbHeap.get_set_ne _ hqp]
        exact Nat.le_refl _
    · exact Nat.le_refl _

namespace Roomy

variable {pids : List Int} {s : Sys}

/-- A tick leaves everybody where they are, and takes its tick from everybody
who executes. -/
theorem tick_left (h : Roomy pids s) :
    (LocOS.clockTick s).places = s.places ∧ (LocOS.clockTick s).running = s.running ∧
      (∀ q, (LocOS.clockTick s).left q ≤ s.left q) ∧
      ∀ q ∈ s.running, (LocOS.clockTick s).left q ≤ s.left q - 1 := by
  have hinv := clockTick_visits (fun todo t => Roomy pids t ∧ t.running = s.running ∧
    t.sched = s.sched ∧ (∀ q, t.left q ≤ s.left q) ∧
    ∀ q ∈ s.running, q ∉ todo → t.left q ≤ s.left q - 1) ?_ h.compact
    ⟨h.tickEvent, rfl, rfl, fun _ => Nat.le_refl _, fun q hq hnot => absurd hq hnot⟩
  · obtain ⟨⟨_, hrun, hsched, hle, hlt⟩, _⟩ := hinv
    refine ⟨?_, hrun, hle, fun q hq => hlt q hq List.not_mem_nil⟩
    rw [Sys.places, hrun, Sys.waiting, hsched]
    rfl
  · rintro todo i j k t core hw p hc hslot ⟨ht, hrun, hsched, hle, hlt⟩
    have hlive := ht.conserved.live p
      (List.mem_append_left _ (Machine.mem_running_of_slot hc hslot))
    have hvisit := tickThread_left hslot hlive
    obtain ⟨hsched', hrun', _⟩ := Ranked.tickThread_same hc i j k
    refine ⟨ht.tickThread i j k, hrun'.trans hrun, hsched'.trans hsched, fun q => ?_,
      fun q hq hnot => ?_⟩
    · exact (hvisit q).trans ((Nat.sub_le _ _).trans (hle q))
    · by_cases hqp : q = p
      · have hv := hvisit q
        have hl := hle q
        rw [if_pos hqp] at hv
        omega
      · refine ((hvisit q).trans (Nat.sub_le _ _)).trans (hlt q hq fun hmem => ?_)
        exact (List.mem_cons.mp hmem).elim hqp hnot

/-! ## A pass -/

/-- A visit takes away the process visited, if it is finished, and nobody
else. -/
theorem mem_places_scanThread (h : Roomy pids s) (hnd : pids.Nodup) {i j k : Nat} {core : Core}
    {hw : HardwareThread} {p : PcbPtr} (hslot : s.machine.slot? i j k = some (core, hw, p))
    {q : PcbPtr} : q ∈ (LocOS.scanThread i j k s).places ↔
      q ∈ s.places ∧ (q = p → (s.pcbs.get p).charge.finished = false) := by
  have hpr := Machine.mem_running_of_slot h.compact hslot
  have hnodup := h.conserved.nodup hnd
  have hrun : q ∈ (s.machine.setCore i j (core.removeThread k)).running ↔ q ∈ s.running ∧ q ≠ p :=
    Machine.mem_running_removeThread h.compact hnodup.of_append_left hslot
  have hwait : q ∈ s.waiting → q ≠ p := fun hq he =>
    List.disjoint_of_nodup_append hnodup hpr (he ▸ hq)
  rcases h.scanThread_cases hslot with ⟨hfin, he⟩ | ⟨hfin, sched, _, hperm, he⟩ | ⟨hfin, he⟩
  · have hplaces : q ∈ (LocOS.scanThread i j k s).places ↔
        (q ∈ s.running ∧ q ≠ p) ∨ q ∈ s.waiting := by
      rw [he, ← hrun]
      exact List.mem_append
    rw [hplaces, Sys.places, List.mem_append, hfin]
    constructor
    · rintro (⟨hq, hne⟩ | hq)
      · exact ⟨.inl hq, fun he => absurd he hne⟩
      · exact ⟨.inr hq, fun he => absurd he (hwait hq)⟩
    · rintro ⟨hq | hq, hne⟩
      · exact .inl ⟨hq, fun he => Bool.noConfusion (hne he)⟩
      · exact .inr hq
  · have hplaces : q ∈ (LocOS.scanThread i j k s).places ↔
        (q ∈ s.running ∧ q ≠ p) ∨ q ∈ sched.waiting := by
      rw [he, ← hrun]
      exact List.mem_append
    rw [hplaces, hperm.mem_iff, List.mem_cons, Sys.places, List.mem_append, hfin]
    constructor
    · rintro (⟨hq, _⟩ | rfl | hq)
      · exact ⟨.inl hq, fun _ => rfl⟩
      · exact ⟨.inl hpr, fun _ => rfl⟩
      · exact ⟨.inr hq, fun _ => rfl⟩
    · rintro ⟨hq | hq, _⟩
      · by_cases hqp : q = p
        · exact .inr (.inl hqp)
        · exact .inl ⟨hq, hqp⟩
      · exact .inr (.inr hq)
  · rw [he, hfin]
    exact ⟨fun hq => ⟨hq, fun _ => rfl⟩, fun hq => hq.1⟩

/-- Who stays keeps its TTL. -/
theorem scanThread_ttl (h : Roomy pids s) {i j k : Nat} {core : Core} {hw : HardwareThread}
    {p : PcbPtr} (hslot : s.machine.slot? i j k = some (core, hw, p)) {q : PcbPtr}
    (hstays : q = p → (s.pcbs.get p).charge.finished = false) :
    ((LocOS.scanThread i j k s).pcbs.get q).ttl = (s.pcbs.get q).ttl := by
  by_cases hqp : q = p
  · subst hqp
    have hpr := Machine.mem_running_of_slot h.compact hslot
    have hlive := h.conserved.live q (List.mem_append_left _ hpr)
    have hcharge : ((s.charge q).pcbs.get q).ttl = (s.pcbs.get q).ttl := by
      rw [Sys.charge, PcbHeap.get_set_self hlive]
      rfl
    rcases h.scanThread_cases hslot with ⟨hfin, _⟩ | ⟨_, sched, _, _, he⟩ | ⟨_, he⟩
    · rw [hstays rfl] at hfin
      cases hfin
    · have hl : (s.charge q).pcbs.Live q := (PcbHeap.live_set ..).mpr hlive
      rw [he]
      show (PcbHeap.get ((s.charge q).pcbs.set q _) q).ttl = _
      rw [PcbHeap.get_set_self hl, Lifetime.expiredPcb_ttl, hcharge]
    · rw [he]
      exact hcharge
  · rw [scanThread_get_ne hslot hqp]

/-- The part of a pass that is done: whoever is somewhere was there before,
with the same TTL, which is positive once the scan has visited it. -/
def PassedOver (s : Sys) (todo : List PcbPtr) (t : Sys) : Prop :=
  ∀ q ∈ t.places, q ∈ s.places ∧ (t.pcbs.get q).ttl = (s.pcbs.get q).ttl ∧
    (q ∈ s.running → q ∈ todo ∨ 0 < (t.pcbs.get q).ttl)

theorem scanThread_passed {t : Sys} {todo : List PcbPtr} (ht : Roomy pids t) (hnd : pids.Nodup)
    {i j k : Nat} {core : Core} {hw : HardwareThread} {p : PcbPtr}
    (hslot : t.machine.slot? i j k = some (core, hw, p)) (h : PassedOver s (p :: todo) t) :
    PassedOver s todo (LocOS.scanThread i j k t) := by
  intro q hq
  obtain ⟨hqt, hstays⟩ := (ht.mem_places_scanThread hnd hslot).mp hq
  obtain ⟨hplace, httl, hrun⟩ := h q hqt
  rw [ht.scanThread_ttl hslot hstays]
  refine ⟨hplace, httl, fun hr => ?_⟩
  by_cases hqp : q = p
  -- visited now, and not finished
  · subst hqp
    have hgoes : ¬ (t.pcbs.get q).charge.ttl ≤ 0 := fun hle =>
      (of_decide_eq_false (hstays rfl)) (.inr hle)
    exact .inr (Int.not_le.mp hgoes)
  · exact (hrun hr).imp_left fun hmem => (List.mem_cons.mp hmem).resolve_left hqp

/-- A pass keeps the system roomy and, if anybody is left, somebody executing. -/
theorem pass_left (h : Roomy pids s) (hnd : pids.Nodup) :
    Roomy pids (LocOS.schedulerPass s) ∧ PassedOver s [] (LocOS.schedulerPass s) ∧
      ((LocOS.schedulerPass s).places ≠ [] → (LocOS.schedulerPass s).running ≠ []) := by
  refine h.schedulerPass (P := PassedOver s []) ?_ hnd (PassedOver s) (fun t ht => ht)
    (fun todo i j k t core hw p ht hslot hpassed => scanThread_passed ht hnd hslot hpassed) ?_ ?_
  · intro t p sched i j core ht hcore hspace _ hperm hpassed q hq
    have hplaces := t.places_dispatched ht.compact.counted hcore hspace hperm
    have httl : ((t.dispatched sched p i j core).pcbs.get q).ttl = (t.pcbs.get q).ttl :=
      PcbHeap.get_set_congr PCB.ttl t.pcbs (Lifetime.start_ttl ..) q
    rw [httl]
    exact hpassed q (hplaces.mem_iff.mpr hq)
  · intro t sched hperm hpassed q hq
    refine hpassed q ?_
    rcases List.mem_append.mp hq with hq | hq
    · exact List.mem_append_left _ hq
    · have hq : q ∈ sched.waiting := hq
      exact List.mem_append_right _ (hperm.mem_iff.mp hq)
  · intro q hq
    exact ⟨hq, rfl, fun hr => .inl (s.machine.scanOrder_perm.mem_iff.mpr hr)⟩

/-! ## Rounds -/

theorem round (h : Roomy pids s) (hnd : pids.Nodup) : Roomy pids s.round ∧
    (s.round.places ≠ [] → s.round.running ≠ []) := by
  obtain ⟨hroomy, _, hbusy⟩ := h.clockTick.pass_left hnd
  exact ⟨hroomy, hbusy⟩

/-- A round uses the TTL of whoever executes. -/
theorem round_uses (h : Roomy pids s) (hnd : pids.Nodup)
    (hbusy : s.places ≠ [] → s.running ≠ []) :
    Rounds.Uses (fun s => s.places.toFinset) Sys.left s s.round := by
  obtain ⟨hplaces, hrun, hle, hlt⟩ := h.tick_left
  obtain ⟨_, hpassed, _⟩ := h.clockTick.pass_left hnd
  have hleft : ∀ q ∈ s.round.places, s.round.left q = (LocOS.clockTick s).left q := fun q hq =>
    congrArg Int.toNat (hpassed q hq).2.1
  constructor
  · intro q hq
    rw [List.mem_toFinset] at hq ⊢
    rw [← hplaces]
    exact (hpassed q hq).1
  · intro q hq
    rw [List.mem_toFinset] at hq
    rw [hleft q hq]
    exact hle q
  · intro hne
    have hsome : s.places ≠ [] := fun hnil => hne (by rw [hnil]; rfl)
    obtain ⟨p, hp⟩ := List.exists_mem_of_ne_nil _ (hbusy hsome)
    refine ⟨p, List.mem_toFinset.mpr (List.mem_append_left _ hp), fun hq => ?_⟩
    rw [List.mem_toFinset] at hq
    -- still there after the scan, so its TTL is positive
    have hpos : 0 < (s.round.pcbs.get p).ttl :=
      ((hpassed p hq).2.2 (hrun ▸ hp)).resolve_left List.not_mem_nil
    have hround : 0 < s.round.left p := Int.pos_iff_toNat_pos.mp hpos
    have hspent := hlt p hp
    rw [hleft p hq] at hround ⊢
    omega

/-- With one pass after each tick, everybody comes to an end. -/
theorem all_end (h : Roomy pids s) (hnd : pids.Nodup) :
    ∃ k, (Sys.round^[k] s).places = [] := by
  have huses : ∀ t, (Roomy pids t ∧ (t.places ≠ [] → t.running ≠ [])) →
      Rounds.Uses (fun s => s.places.toFinset) Sys.left t t.round := fun t ht =>
    ht.1.round_uses hnd ht.2
  obtain ⟨k, hk⟩ := Rounds.all_end _ (fun t ht => ht.1.round hnd) huses (h.round hnd)
  exact ⟨k + 1, List.toFinset_eq_empty_iff _ |>.mp hk⟩

end Roomy

end LocOS
