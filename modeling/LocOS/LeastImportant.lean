import LocOS.Lib.Least
import LocOS.Run
import LocOS.Scan
import Mathlib.Order.OrderDual

/-!
# LeastImportant

The process `get_lowest_priority_executing` finds. Its three nested loops are
one scan over the counted slots in CPU, core and thread order, and the marker
lies above every legal priority: the result is the first slot with the
greatest priority value, or the marker when no slot is counted.
-/

namespace LocOS

/-- The legacy copies of the counted slots of a core, as results of the scan. -/
def Core.candidates (core : Core) (i j : Nat) : List Lowest :=
  (List.range core.currentPcbCount.toNat).map fun k =>
    { priority := (core.pcbs.getD k default).priority, cpuIdx := i, coreIdx := j, threadIdx := k }

namespace Machine

/-- The counted slots in the order of the loops. -/
def candidates (m : Machine) : List Lowest :=
  m.coreIndices.flatMap fun ij =>
    ((m.core? ij.1 ij.2).map fun core => core.candidates ij.1 ij.2).getD []

/-- Slot `k` of core `(i, j)` is counted and its PCB has this priority. -/
def CountedSlot (m : Machine) (i j k : Nat) (priority : Int) : Prop :=
  ∃ core, m.core? i j = some core ∧ (k : Int) < core.currentPcbCount ∧
    (core.pcbs.getD k default).priority = priority

theorem mem_candidates {m : Machine} {low : Lowest} :
    low ∈ m.candidates ↔ ∃ i j k priority, m.CountedSlot i j k priority ∧
      low = ⟨priority, i, j, k⟩ := by
  simp only [candidates, List.mem_flatMap, Prod.exists, mem_coreIndices]
  constructor
  · rintro ⟨i, j, hcore, hlow⟩
    obtain ⟨core, hcore⟩ := Option.isSome_iff_exists.mp hcore
    rw [hcore] at hlow
    obtain ⟨k, hk, rfl⟩ := List.mem_map.mp hlow
    have hk := List.mem_range.mp hk
    exact ⟨i, j, k, _, ⟨core, hcore, by omega, rfl⟩, rfl⟩
  · rintro ⟨i, j, k, _, ⟨core, hcore, hk, rfl⟩, rfl⟩
    refine ⟨i, j, by rw [hcore]; rfl, ?_⟩
    rw [hcore]
    exact List.mem_map.mpr ⟨k, List.mem_range.mpr (by omega), rfl⟩

end Machine

/-- The slot of `a` comes before the slot of `b`. -/
def Lowest.Before (a b : Lowest) : Prop :=
  a.cpuIdx < b.cpuIdx ∨ a.cpuIdx = b.cpuIdx ∧
    (a.coreIdx < b.coreIdx ∨ a.coreIdx = b.coreIdx ∧ a.threadIdx < b.threadIdx)

namespace Machine

theorem pairwise_coreIndices (m : Machine) :
    m.coreIndices.Pairwise fun a b => a.1 < b.1 ∨ a.1 = b.1 ∧ a.2 < b.2 := by
  rw [coreIndices, List.pairwise_flatMap]
  constructor
  · intro a _
    refine List.pairwise_map.mpr (List.pairwise_lt_range.imp ?_)
    exact fun hlt => .inr ⟨rfl, hlt⟩
  · refine (pairwise_zipIdx m.cpus 0).imp fun {a b} hab x hx y hy => ?_
    obtain ⟨_, _, rfl⟩ := List.mem_map.mp hx
    obtain ⟨_, _, rfl⟩ := List.mem_map.mp hy
    exact .inl hab

/-- The loops visit the slots in order. -/
theorem pairwise_candidates (m : Machine) : m.candidates.Pairwise Lowest.Before := by
  have hmem : ∀ {i j : Nat} {low : Lowest},
      low ∈ ((m.core? i j).map fun core => core.candidates i j).getD [] →
        low.cpuIdx = i ∧ low.coreIdx = j := by
    intro i j low hlow
    cases hcore : m.core? i j with
    | none => rw [hcore] at hlow; cases hlow
    | some core =>
        rw [hcore] at hlow
        obtain ⟨k, _, rfl⟩ := List.mem_map.mp hlow
        exact ⟨rfl, rfl⟩
  rw [candidates, List.pairwise_flatMap]
  constructor
  · intro ij _
    cases m.core? ij.1 ij.2 with
    | none => exact .nil
    | some core =>
        refine List.pairwise_map.mpr (List.pairwise_lt_range.imp ?_)
        intro k k' hlt
        exact .inr ⟨rfl, .inr ⟨rfl, Int.ofNat_lt.mpr hlt⟩⟩
  · refine m.pairwise_coreIndices.imp fun {a b} hab x hx y hy => ?_
    obtain ⟨hxi, hxj⟩ := hmem hx
    obtain ⟨hyi, hyj⟩ := hmem hy
    unfold Lowest.Before
    omega

theorem lt_of_before {m : Machine} {k n : Nat} {a b : Lowest} (ha : m.candidates[k]? = some a)
    (hb : m.candidates[n]? = some b) (h : a.Before b) : k < n := by
  obtain ⟨hk, hgetk⟩ := List.getElem?_eq_some_iff.mp ha
  obtain ⟨hn, hgetn⟩ := List.getElem?_eq_some_iff.mp hb
  by_contra hle
  rcases Nat.lt_or_eq_of_le (Nat.le_of_not_lt hle) with hlt | rfl
  · have hafter := List.pairwise_iff_getElem.mp m.pairwise_candidates n k hn hk hlt
    rw [hgetk, hgetn] at hafter
    unfold Lowest.Before at h hafter
    omega
  · rw [hgetk] at hgetn
    subst hgetn
    unfold Lowest.Before at h
    omega

end Machine

/-- The marker for no process yet. -/
def Lowest.none : Lowest :=
  { priority := maxPriority + 1, cpuIdx := -1, coreIdx := -1, threadIdx := -1 }

/-- The nested loops are a fold over the counted slots. -/
theorem getLowestPriorityExecuting_eq (m : Machine) :
    getLowestPriorityExecuting m =
      m.candidates.foldl (fun low c =>
        if low.priority = Lowest.none.priority ∨ low.priority < c.priority then c else low)
        Lowest.none := by
  rw [Machine.candidates, List.foldl_flatMap]
  refine List.foldl_ext _ _ _ fun low ij _ => ?_
  obtain ⟨i, j⟩ := ij
  dsimp only
  cases m.core? i j with
  | none => rfl
  | some core =>
      dsimp only [Option.map_some, Option.getD_some]
      rw [Core.candidates, List.foldl_map, Loop.up_eq_foldl]
      refine List.foldl_ext _ _ _ fun low k _ => ?_
      exact if_congr or_comm rfl rfl

/-- The result is the first of the counted slots with the greatest priority
value. -/
theorem getLowestPriorityExecuting_first {m : Machine} (hne : m.candidates ≠ [])
    (hrange : ∀ c ∈ m.candidates, c.priority ≤ maxPriority) :
    ∃ n, m.candidates[n]? = some (getLowestPriorityExecuting m) ∧
      (∀ (k : Nat) (c : Lowest), m.candidates[k]? = some c →
        c.priority ≤ (getLowestPriorityExecuting m).priority ∧
          (k < n → c.priority < (getLowestPriorityExecuting m).priority)) := by
  -- the greatest is the least of the dual order
  let key : Lowest → OrderDual Int := fun low => OrderDual.toDual low.priority
  have hmark : ∀ c ∈ m.candidates, key c ≠ key Lowest.none := by
    intro c hc he
    have hle := hrange c hc
    have hmarked : c.priority = maxPriority + 1 := he
    omega
  obtain ⟨n, hfirst, hfold⟩ := Least.foldl_first hne hmark
  have he : getLowestPriorityExecuting m = m.candidates.getD n Lowest.none :=
    (getLowestPriorityExecuting_eq m).trans hfold
  have hget : ∀ k c, m.candidates[k]? = some c →
      k < m.candidates.length ∧ m.candidates.getD k Lowest.none = c := by
    intro k c hk
    rw [List.getD_eq_getElem?_getD, hk]
    exact ⟨(List.getElem?_eq_some_iff.mp hk).1, rfl⟩
  refine ⟨n, ?_, fun k c hk => ?_⟩
  · rw [he, List.getD_eq_getElem?_getD, List.getElem?_eq_getElem hfirst.lt]
    rfl
  · obtain ⟨hlt, rfl⟩ := hget k c hk
    rw [he]
    exact ⟨hfirst.le k hlt, hfirst.first k⟩

/-- The marker is the result exactly when no slot is counted; otherwise the
result is the greatest priority value on a counted slot, and the first such
slot. -/
theorem getLowestPriorityExecuting_greatest {m : Machine}
    (hrange : ∀ i j k priority, m.CountedSlot i j k priority →
      minPriority ≤ priority ∧ priority ≤ maxPriority) :
    (getLowestPriorityExecuting m = ⟨maxPriority + 1, -1, -1, -1⟩ ↔
        ∀ i j k priority, ¬ m.CountedSlot i j k priority) ∧
      ((∃ i j k priority, m.CountedSlot i j k priority) →
        ∃ i₀ j₀ k₀ priority₀, m.CountedSlot i₀ j₀ k₀ priority₀ ∧
          getLowestPriorityExecuting m = ⟨priority₀, i₀, j₀, k₀⟩ ∧
          ∀ i j k priority, m.CountedSlot i j k priority → priority ≤ priority₀ ∧
            (Lowest.Before ⟨priority, i, j, k⟩ ⟨priority₀, i₀, j₀, k₀⟩ →
              priority < priority₀)) := by
  have hlegal : ∀ c ∈ m.candidates, c.priority ≤ maxPriority := by
    intro c hc
    obtain ⟨i, j, k, priority, hslot, rfl⟩ := Machine.mem_candidates.mp hc
    exact (hrange i j k priority hslot).2
  by_cases hnil : m.candidates = []
  · have hnone : ∀ i j k priority, ¬ m.CountedSlot i j k priority := by
      intro i j k priority hslot
      have hmem := Machine.mem_candidates.mpr ⟨i, j, k, priority, hslot, rfl⟩
      rw [hnil] at hmem
      cases hmem
    refine ⟨iff_of_true ?_ hnone, ?_⟩
    · rw [getLowestPriorityExecuting_eq, hnil]
      rfl
    · rintro ⟨i, j, k, priority, hslot⟩
      exact absurd hslot (hnone i j k priority)
  · obtain ⟨n, hn, hgreatest⟩ := getLowestPriorityExecuting_first hnil hlegal
    have hmem := List.mem_of_getElem? hn
    obtain ⟨i₀, j₀, k₀, priority₀, hslot₀, he⟩ := Machine.mem_candidates.mp hmem
    rw [he] at hn hgreatest ⊢
    refine ⟨iff_of_false ?_ fun hnone => hnone i₀ j₀ k₀ priority₀ hslot₀, fun _ => ?_⟩
    · intro hmarker
      have hle := (hrange i₀ j₀ k₀ priority₀ hslot₀).2
      have hpriority : priority₀ = maxPriority + 1 := congrArg Lowest.priority hmarker
      omega
    · refine ⟨i₀, j₀, k₀, priority₀, hslot₀, rfl, fun i j k priority hslot => ?_⟩
      obtain ⟨l, hl⟩ := List.getElem?_of_mem
        (Machine.mem_candidates.mpr ⟨i, j, k, priority, hslot, rfl⟩)
      exact ⟨(hgreatest l _ hl).1, fun hbefore =>
        (hgreatest l _ hl).2 (Machine.lt_of_before hl hn hbefore)⟩

/-- Two cores with two threads: priorities 3 and 5, then 5. -/
def threeExecuting : Machine where
  cpus := [{ cores := [
    ((createCore 2).assign 0 (loadedPcb 1 3)).assign 1 (loadedPcb 2 5),
    (createCore 2).assign 2 (loadedPcb 3 5)] }]

theorem threeExecuting_greatest :
    getLowestPriorityExecuting threeExecuting = ⟨5, 0, 0, 1⟩ ∧
      ∀ i j k priority, threeExecuting.CountedSlot i j k priority → priority ≤ 5 := by
  have hlegal : ∀ c ∈ threeExecuting.candidates,
      minPriority ≤ c.priority ∧ c.priority ≤ maxPriority := by
    decide
  have hfound : getLowestPriorityExecuting threeExecuting = ⟨5, 0, 0, 1⟩ := by
    decide
  have hslot : threeExecuting.CountedSlot 0 0 0 3 := ⟨_, rfl, by decide, rfl⟩
  obtain ⟨i₀, j₀, k₀, priority₀, _, he, hgreatest⟩ :=
    (getLowestPriorityExecuting_greatest fun i j k priority hslot =>
      hlegal _ (Machine.mem_candidates.mpr ⟨i, j, k, priority, hslot, rfl⟩)).2
      ⟨0, 0, 0, 3, hslot⟩
  refine ⟨hfound, fun i j k priority hcounted => ?_⟩
  have hpriority : (5 : Int) = priority₀ := congrArg Lowest.priority (hfound.symm.trans he)
  rw [hpriority]
  exact (hgreatest i j k priority hcounted).1

end LocOS
