import LocOS.Lib.Regions
import LocOS.Lib.Runs
import LocOS.Loaded

/-!
# KernelSpace

The regions of the kernel area, over all sequences of `allocate_kernel_space`
and `create_page_table`. The limit test adds in 32 bits: a request that takes
the sum past 2^32 is granted, and moves `next_kernel_frame` backwards.
-/

namespace LocOS

/-- The memory, and the regions its callers were given, in order. -/
structure KernelSpace where
  pm : PhysicalMemory
  regions : List Region

/-- `allocate_kernel_space` and `create_page_table`. -/
inductive KernelCall where
  | allocate (sizeInWords : Word)
  | createTable (numPages : Word)

/-- The words asked for; an entry is one word. -/
def KernelCall.size : KernelCall → Nat
  | .allocate sizeInWords => sizeInWords.toNat
  | .createTable numPages => numPages.toNat

namespace KernelSpace

/-- The result of a call; a null pointer gives no region. -/
def result (s : KernelSpace) : KernelCall → Option Nat × PhysicalMemory
  | .allocate sizeInWords => s.pm.allocateKernelSpace sizeInWords
  | .createTable numPages => s.pm.createPageTable numPages

/-- A call, with the region it hands out. -/
def next (s : KernelSpace) (call : KernelCall) : KernelSpace where
  pm := (s.result call).2
  regions := s.regions ++ ((s.result call).1.map fun base => ⟨base, call.size⟩).toList

/-- Every region lies in the kernel area, and no two share a word. -/
structure Sound (s : KernelSpace) : Prop where
  inside : ∀ r ∈ s.regions, r.words ⊆ Finset.range kernelSpaceWords
  disjoint : s.regions.Pairwise fun a b => Disjoint a.words b.words

/-- The limit test adds without wrapping. -/
def InRange (s : KernelSpace) (call : KernelCall) : Prop :=
  s.pm.nextKernelFrame.toNat + call.size < 2 ^ 32

instance (s : KernelSpace) (call : KernelCall) : Decidable (s.InRange call) :=
  inferInstanceAs (Decidable (_ < _))

end KernelSpace

/-- The calls in any order, with any sizes. -/
def kernelRuns : Runs KernelSpace KernelCall :=
  .guarded (· = ⟨createPhysicalMemory, []⟩) (fun _ _ => True) KernelSpace.next

namespace KernelSpace

variable {s : KernelSpace}

/-- Both calls test the same sum and move `next_kernel_frame` by the size. -/
theorem result_cases (s : KernelSpace) (call : KernelCall) :
    ((s.result call).1 = none ∧
      (s.result call).2.nextKernelFrame = s.pm.nextKernelFrame ∧
      kernelSpaceWords < (s.pm.nextKernelFrame.toNat + call.size) % 2 ^ 32) ∨
    ((s.result call).1 = some s.pm.nextKernelFrame.toNat ∧
      (s.result call).2.nextKernelFrame.toNat =
        (s.pm.nextKernelFrame.toNat + call.size) % 2 ^ 32 ∧
      (s.pm.nextKernelFrame.toNat + call.size) % 2 ^ 32 ≤ kernelSpaceWords) := by
  cases call with
  | allocate sizeInWords =>
      simp only [result, PhysicalMemory.allocateKernelSpace, KernelCall.size, ← BitVec.toNat_add]
      split
      · rename_i hfull
        exact .inl ⟨rfl, rfl, hfull⟩
      · rename_i hfits
        exact .inr ⟨rfl, rfl, Nat.le_of_not_lt hfits⟩
  | createTable numPages =>
      simp only [result, createPageTable_eq, KernelCall.size, ← BitVec.toNat_add]
      split
      · rename_i hfull
        exact .inl ⟨rfl, rfl, hfull⟩
      · rename_i hfits
        exact .inr ⟨rfl, rfl, Nat.le_of_not_lt hfits⟩

/-- In every run, also one that wraps, `next_kernel_frame` stays in the
kernel area. -/
theorem nextKernelFrame_le (h : kernelRuns.Reachable s) :
    s.pm.nextKernelFrame.toNat ≤ kernelSpaceWords := by
  refine h.invariant (fun s => s.pm.nextKernelFrame.toNat ≤ kernelSpaceWords) ?_ ?_
  · rintro s rfl
    decide
  · rintro s call t hs ⟨_, rfl⟩
    rcases s.result_cases call with ⟨_, hkept, _⟩ | ⟨_, hmoved, hfits⟩
    · show (s.result call).2.nextKernelFrame.toNat ≤ _
      rw [hkept]
      exact hs
    · show (s.result call).2.nextKernelFrame.toNat ≤ _
      rw [hmoved]
      exact hfits

/-- What calls that do not wrap keep. -/
structure Kept (s : KernelSpace) : Prop where
  packed : Packed s.regions s.pm.nextKernelFrame.toNat
  limit : s.pm.nextKernelFrame.toNat ≤ kernelSpaceWords

theorem Kept.sound (h : s.Kept) : s.Sound :=
  ⟨fun _ hr => h.packed.words_subset h.limit hr, h.packed.disjoint⟩

theorem Kept.start : Kept ⟨createPhysicalMemory, []⟩ := ⟨.nil _, by decide⟩

/-- A call that does not wrap is granted behind all regions, or refused. -/
theorem Kept.next (h : s.Kept) {call : KernelCall} (hrange : s.InRange call) :
    (s.next call).Kept ∧
      s.pm.nextKernelFrame.toNat ≤ (s.next call).pm.nextKernelFrame.toNat := by
  have hsum : (s.pm.nextKernelFrame.toNat + call.size) % 2 ^ 32 =
      s.pm.nextKernelFrame.toNat + call.size := Nat.mod_eq_of_lt hrange
  rcases s.result_cases call with ⟨hnone, hkept, _⟩ | ⟨hsome, hmoved, hfits⟩
  · have hpm : (s.next call).pm.nextKernelFrame = s.pm.nextKernelFrame := hkept
    have hregions : (s.next call).regions = s.regions := by
      rw [KernelSpace.next, hnone]
      exact List.append_nil _
    refine ⟨⟨?_, ?_⟩, ?_⟩
    · rw [hregions, hpm]
      exact h.packed
    · rw [hpm]
      exact h.limit
    · rw [hpm]
  · rw [hsum] at hmoved hfits
    have hpm : (s.next call).pm.nextKernelFrame.toNat =
        s.pm.nextKernelFrame.toNat + call.size := hmoved
    have hregions : (s.next call).regions =
        s.regions ++ [⟨s.pm.nextKernelFrame.toNat, call.size⟩] := by
      rw [KernelSpace.next, hsome]
      rfl
    refine ⟨⟨?_, ?_⟩, ?_⟩
    · rw [hregions, hpm]
      exact h.packed.bump call.size
    · rw [hpm]
      exact hfits
    · rw [hpm]
      exact Nat.le_add_right _ _

/-- A call that wraps is granted, and its region leaves the kernel area. -/
theorem Kept.wrapped (h : s.Kept) {call : KernelCall} (hwrap : ¬ s.InRange call) :
    ¬ (s.next call).Sound := by
  have hlimit := h.limit
  have hsize : call.size < 2 ^ 32 := by
    cases call <;> exact BitVec.isLt _
  unfold InRange at hwrap
  simp only [kernelSpaceWords] at hlimit
  rcases s.result_cases call with ⟨_, _, hfull⟩ | ⟨hsome, _, _⟩
  · simp only [kernelSpaceWords] at hfull
    omega
  · intro hsound
    have hregion : (⟨s.pm.nextKernelFrame.toNat, call.size⟩ : Region) ∈ (s.next call).regions := by
      rw [KernelSpace.next, hsome]
      exact List.mem_append_right _ (List.mem_singleton_self _)
    have hword : kernelSpaceWords ∈ Finset.range kernelSpaceWords := by
      refine hsound.inside _ hregion (Region.mem_words.mpr ⟨h.limit, ?_⟩)
      show kernelSpaceWords < s.pm.nextKernelFrame.toNat + call.size
      simp only [kernelSpaceWords]
      omega
    exact absurd (Finset.mem_range.mp hword) (Nat.lt_irrefl _)

/-- The state after a sequence of calls. -/
def after (calls : List KernelCall) : KernelSpace :=
  calls.foldl KernelSpace.next ⟨createPhysicalMemory, []⟩

theorem after_succ {calls : List KernelCall} {n : Nat} {call : KernelCall}
    (hcall : calls[n]? = some call) :
    after (calls.take (n + 1)) = (after (calls.take n)).next call := by
  rw [after, List.take_add_one, hcall, List.foldl_append]
  rfl

theorem after_end {calls : List KernelCall} {n : Nat} (hend : calls[n]? = none) :
    after (calls.take (n + 1)) = after (calls.take n) := by
  rw [List.take_add_one, hend, Option.toList_none, List.append_nil]

theorem Kept.after {calls : List KernelCall} {n : Nat}
    (h : ∀ k call, k < n → calls[k]? = some call → (after (calls.take k)).InRange call) :
    (KernelSpace.after (calls.take n)).Kept := by
  induction n with
  | zero => exact .start
  | succ n ih =>
      have hkept := ih fun k call hk => h k call (Nat.lt_succ_of_lt hk)
      cases hcall : calls[n]? with
      | none =>
          rw [after_end hcall]
          exact hkept
      | some call =>
          rw [after_succ hcall]
          exact (hkept.next (h n call (Nat.lt_succ_self n) hcall)).1

end KernelSpace

/-- All the regions of a sequence of calls lie in the kernel area and are
disjoint, and `next_kernel_frame` never decreases, exactly as long as no sum
wraps: the first that does ends this. -/
theorem kernelRegions_sound_iff (calls : List KernelCall) :
    (∀ n, (KernelSpace.after (calls.take n)).Sound ∧
        (KernelSpace.after (calls.take n)).pm.nextKernelFrame.toNat ≤
          (KernelSpace.after (calls.take (n + 1))).pm.nextKernelFrame.toNat) ↔
      ∀ n call, calls[n]? = some call → (KernelSpace.after (calls.take n)).InRange call := by
  constructor
  · intro hsound n
    induction n using Nat.strong_induction_on with
    | _ n ih =>
        intro call hcall
        by_contra hwrap
        have hkept := KernelSpace.Kept.after (n := n) fun k call hk => ih k hk call
        have hnext := (hsound (n + 1)).1
        rw [KernelSpace.after_succ hcall] at hnext
        exact hkept.wrapped hwrap hnext
  · intro hrange n
    have hkept := KernelSpace.Kept.after (n := n) fun k call _ => hrange k call
    refine ⟨hkept.sound, ?_⟩
    cases hcall : calls[n]? with
    | none => rw [KernelSpace.after_end hcall]
    | some call =>
        rw [KernelSpace.after_succ hcall]
        exact (hkept.next (hrange n call hcall)).2

/-- One word was given out. -/
def oneWord : KernelSpace := KernelSpace.next ⟨createPhysicalMemory, []⟩ (.allocate 1)

/-- A request for the other 2^32 - 1 words is granted and moves
`next_kernel_frame` back to 0, so word 0 is given out again. -/
theorem kernelRegions_wrapped :
    kernelRuns.Reachable oneWord ∧
      (oneWord.next (.allocate 0xFFFFFFFF)).pm.nextKernelFrame.toNat <
        oneWord.pm.nextKernelFrame.toNat ∧
      kernelRuns.Reachable ((oneWord.next (.allocate 0xFFFFFFFF)).next (.allocate 1)) ∧
      ((oneWord.next (.allocate 0xFFFFFFFF)).next (.allocate 1)).regions =
        [⟨0, 1⟩, ⟨1, 2 ^ 32 - 1⟩, ⟨0, 1⟩] ∧
      ¬ ((oneWord.next (.allocate 0xFFFFFFFF)).next (.allocate 1)).Sound := by
  have hone : kernelRuns.Reachable oneWord := .step (.init rfl) ⟨trivial, rfl⟩
  have hregions : ((oneWord.next (.allocate 0xFFFFFFFF)).next (.allocate 1)).regions =
      [⟨0, 1⟩, ⟨1, 2 ^ 32 - 1⟩, ⟨0, 1⟩] := by decide +kernel
  refine ⟨hone, by decide +kernel, .step (.step hone ⟨trivial, rfl⟩) ⟨trivial, rfl⟩, hregions, ?_⟩
  intro hsound
  have hdisjoint := hsound.disjoint
  rw [hregions, List.pairwise_cons] at hdisjoint
  have hword : (0 : Nat) ∈ (⟨0, 1⟩ : Region).words := by simp
  exact Finset.disjoint_left.mp (hdisjoint.1 ⟨0, 1⟩ (by simp)) hword hword

end LocOS
