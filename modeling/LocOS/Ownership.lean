import LocOS.Bitmap
import LocOS.Lib.Runs
import Mathlib.Data.List.InsertIdx

/-!
# Ownership

The whole life of a memory: processes are created, successfully or not,
store into their pages, and are destroyed, in any order. Every frame has at
most one owner, and a store by one process is seen by nobody else.
-/

namespace LocOS

/-! ## The life of a memory -/

/-- The loader with its memory, the processes whose tables are in use, and
every table handed out so far. -/
structure Residents where
  loader : Loader
  live : List (Program × PCB)
  tables : List Space

/-- A process is created, its table destroyed, or a store made through it. -/
inductive MemoryCall where
  | create (program : Program)
  | destroy (p : Nat)
  | write (p : Nat) (virtualAddress value : Word)

namespace Residents

/-- The memory. -/
abbrev pm (s : Residents) : PhysicalMemory := s.loader.physicalMemory

/-- The memory replaced. -/
def withPm (s : Residents) (pm : PhysicalMemory) : Residents :=
  { s with loader := { s.loader with physicalMemory := pm } }

/-- The address spaces in use, in load order. -/
def spaces (s : Residents) : List Space := s.live.map spaceOf

/-- The table `create_process_from_program` asks for, if it gets one. -/
def newTable (s : Residents) (program : Program) : List Space :=
  match (s.pm.createPageTable program.totalPages).1 with
  | none => []
  | some base => [⟨base, program.totalPages.toNat⟩]

/-- A table is destroyed once, by a live process, and stores are made through
live tables at addresses they cover. -/
def Enabled (s : Residents) : MemoryCall → Prop
  | .create _ => True
  | .destroy p => p < s.live.length
  | .write p va _ => ∃ a, s.spaces[p]? = some a ∧ a.Covers va

/-- The call itself. -/
def next (s : Residents) : MemoryCall → Residents
  | .create program =>
      let (created, loader) := createProcessFromProgram s.loader program
      { loader
        live := s.live ++ (created.map fun pcb => (program, pcb)).toList
        tables := s.tables ++ s.newTable program }
  | .destroy p =>
      match s.live[p]? with
      | none => s
      | some (program, pcb) =>
          { s.withPm (s.pm.destroyPageTable pcb.mm.pgb program.totalPages) with
            live := s.live.eraseIdx p }
  | .write p va value =>
      match s.live[p]? with
      | none => s
      | some (_, pcb) => s.withPm (s.pm.mmuWriteWord pcb.mm.pgb va value)

end Residents

/-- The life of a memory from its creation on. -/
def residentRuns : Runs Residents MemoryCall :=
  .guarded (fun s => s = ⟨createLoader createPhysicalMemory, [], []⟩)
    Residents.Enabled Residents.next

theorem Residents.reachable {s : Residents} (h : residentRuns.Reachable s) (call : MemoryCall)
    (hen : s.Enabled call) : residentRuns.Reachable (s.next call) :=
  .step h ⟨hen, rfl⟩

/-! ## Owners -/

/-- Every present page of a live table has a marked frame of its own, the
account of the frames is right, and no two tables ever overlap. -/
structure Residents.Owners (s : Residents) : Prop where
  allocated : Allocated s.pm s.spaces
  counted : Counted s.pm
  pgb : ∀ process ∈ s.live, process.2.mm.pgb = some (spaceOf process).base
  ordered : s.tables.Pairwise fun a b => a.base + a.pages ≤ b.base
  below : ∀ a ∈ s.tables, a.base + a.pages ≤ s.pm.nextKernelFrame.toNat
  known : s.spaces.Sublist s.tables

namespace Residents.Owners

variable {s : Residents}

theorem start : Owners ⟨createLoader createPhysicalMemory, [], []⟩ where
  allocated := allocated_createPhysicalMemory
  counted := .start
  pgb := fun _ h => by cases h
  ordered := .nil
  below := fun _ h => by cases h
  known := .slnil

end Residents.Owners

/-! ## Creation -/

theorem loadPages_nextKernelFrame (program : Program) (pageTable n : Nat) (pm : PhysicalMemory) :
    (loadPages program pageTable n pm).2.nextKernelFrame = pm.nextKernelFrame := by
  refine Loop.up_inv (fun _ (acc : Bool × PhysicalMemory) =>
    acc.2.nextKernelFrame = pm.nextKernelFrame) rfl ?_
  rintro i ⟨ok, pm'⟩ - hpm'
  cases ok with
  | false => exact hpm'
  | true =>
      simp only [if_true]
      rcases allocateFrame_cases pm' with he | ⟨frame, hlo, hhi, _, he⟩
      · rw [he]
        exact hpm'
      · rw [he]
        by_cases hzero : frame = 0
        · simp only [hzero, if_true]
          exact hpm'
        · simp only [hzero, if_false]
          rw [loadPage_eq program _ pageTable i hhi]
          exact hpm'

/-- The kernel words a creation takes, and the table of the process. -/
theorem createProcessFromProgram_table (loader : Loader) (program : Program) :
    (createProcessFromProgram loader program).2.physicalMemory.nextKernelFrame =
        (loader.physicalMemory.createPageTable program.totalPages).2.nextKernelFrame ∧
      ∀ pcb, (createProcessFromProgram loader program).1 = some pcb →
        ∃ base, (loader.physicalMemory.createPageTable program.totalPages).1 = some base ∧
          pcb = program.pcb loader.nextPid base := by
  cases he : loader.physicalMemory.createPageTable program.totalPages with
  | mk pageTable pm =>
      cases pageTable with
      | none =>
          rw [createProcess_noTable he]
          exact ⟨rfl, fun pcb hpcb => by cases hpcb⟩
      | some base =>
          have hnext := loadPages_nextKernelFrame program base program.totalPages.toNat pm
          cases hload : loadPages program base program.totalPages.toNat pm with
          | mk ok pm' =>
              rw [hload] at hnext
              cases ok with
              | false =>
                  rw [createProcess_noFrames he hload]
                  exact ⟨hnext, fun pcb hpcb => by cases hpcb⟩
              | true =>
                  rw [createProcess_ok he hload]
                  refine ⟨hnext, fun pcb hpcb => ⟨base, rfl, ?_⟩⟩
                  exact (Option.some.inj hpcb).symm

namespace Residents

variable {s : Residents}

theorem newTable_of_some {program : Program} {base : Nat}
    (h : (s.pm.createPageTable program.totalPages).1 = some base) :
    s.newTable program = [⟨base, program.totalPages.toNat⟩] := by
  unfold newTable
  rw [h]

/-- What a new table is: nothing, or the next kernel words. -/
theorem newTable_cases (h : s.Owners) (program : Program) :
    (s.newTable program = [] ∧ (s.pm.createPageTable program.totalPages).1 = none ∧
      (s.pm.createPageTable program.totalPages).2.nextKernelFrame = s.pm.nextKernelFrame) ∨
    (s.newTable program = [⟨s.pm.nextKernelFrame.toNat, program.totalPages.toNat⟩] ∧
      (s.pm.createPageTable program.totalPages).1 = some s.pm.nextKernelFrame.toNat ∧
      (s.pm.createPageTable program.totalPages).2.nextKernelFrame.toNat =
        s.pm.nextKernelFrame.toNat + program.totalPages.toNat) := by
  have hlimit := h.allocated.limit
  have hpages := program.totalPages_lt
  unfold newTable
  rcases createPageTable_cases s.pm program.totalPages with he | ⟨_, he⟩
  · rw [he]
    exact .inl ⟨rfl, rfl, rfl⟩
  · rw [he]
    refine .inr ⟨rfl, rfl, ?_⟩
    show (s.pm.nextKernelFrame + program.totalPages).toNat = _
    rw [BitVec.toNat_add]
    simp only [kernelSpaceWords] at hlimit
    omega

/-- The tables stay apart when a creation asks for one more. -/
theorem Owners.tables (h : s.Owners) (program : Program) :
    (s.tables ++ s.newTable program).Pairwise (fun a b => a.base + a.pages ≤ b.base) ∧
      ∀ a ∈ s.tables ++ s.newTable program, a.base + a.pages ≤
        (createProcessFromProgram s.loader program).2.physicalMemory.nextKernelFrame.toNat := by
  rw [(createProcessFromProgram_table s.loader program).1]
  rcases newTable_cases h program with ⟨hnew, _, hnext⟩ | ⟨hnew, _, hnext⟩
  · rw [hnew, List.append_nil, hnext]
    exact ⟨h.ordered, h.below⟩
  · rw [hnew, hnext]
    constructor
    · refine List.pairwise_append.mpr ⟨h.ordered, List.pairwise_singleton .., ?_⟩
      intro a ha b hb
      obtain rfl := List.mem_singleton.mp hb
      exact h.below a ha
    · intro a ha
      rcases List.mem_append.mp ha with ha | ha
      · have := h.below a ha
        omega
      · obtain rfl := List.mem_singleton.mp ha
        exact Nat.le_refl _

theorem Owners.create (h : s.Owners) (program : Program) : (s.next (.create program)).Owners := by
  obtain ⟨created, loader', he, _, halloc, _, hnew⟩ :=
    createProcessFromProgram_cases h.allocated program
  have htables := h.tables program
  have hcounted := h.counted.createProcessFromProgram program
  have hpgb := (createProcessFromProgram_table s.loader program).2
  rw [he] at htables hcounted hpgb
  simp only [next, he]
  cases created with
  | none =>
      rw [Option.map_none, Option.toList_none, List.append_nil]
      exact ⟨halloc, hcounted, h.pgb, htables.1, htables.2,
        h.known.trans (List.sublist_append_left ..)⟩
  | some pcb =>
      obtain ⟨base, rfl, halloc', _⟩ := hnew pcb rfl
      obtain ⟨base', hbase, hpcb⟩ := hpgb _ rfl
      have hsame : base = base' := by
        have := congrArg (fun pcb : PCB => pcb.mm.pgb) hpcb
        exact Option.some.inj this
      have hspaces : (s.live ++ [(program, program.pcb s.loader.nextPid base)]).map spaceOf =
          s.spaces ++ [⟨base, program.totalPages.toNat⟩] := List.map_append
      refine ⟨?_, hcounted, ?_, htables.1, htables.2, ?_⟩
      · rw [spaces, Option.map_some, Option.toList_some, hspaces]
        exact halloc'
      · intro process hprocess
        rcases List.mem_append.mp hprocess with hold | hlast
        · exact h.pgb process hold
        · rw [List.mem_singleton.mp hlast]
          rfl
      · rw [spaces, Option.map_some, Option.toList_some, hspaces,
          newTable_of_some (s := s) hbase, ← hsame]
        exact h.known.append_right _

end Residents

/-! ## Destruction -/

/-- A table that goes takes no frame of another with it. -/
theorem Allocated.destroy {pm : PhysicalMemory} {spaces : List Space} {p : Nat} {a : Space}
    (h : Allocated pm spaces) (hp : spaces[p]? = some a) {numPages : Word}
    (hpages : numPages.toNat = a.pages) :
    Allocated (pm.destroyPageTable (some a.base) numPages) (spaces.eraseIdx p) := by
  have hsub := List.eraseIdx_sublist spaces p
  have hmem := destroyPageTable_memory pm a.base numPages
  have hu : Undisturbed pm (pm.destroyPageTable (some a.base) numPages) (spaces.eraseIdx p) :=
    ⟨fun x _ => by rw [hmem], fun b _ w _ => by rw [hmem]⟩
  refine ⟨(h.toLayout.sublist hsub).undisturbed hu, ?_, ?_, ?_⟩
  · rw [destroyPageTable_nextKernelFrame]
    exact fun b hb => h.below b (hsub.mem hb)
  · rw [destroyPageTable_nextKernelFrame]
    exact h.limit
  · intro x hx
    rw [hu.entryAt hx, destroyPageTable_frameBitmap]
    · exact h.marked x (hx.mono fun _ => hsub.mem)
    -- a frame of the table that goes is named by no entry of another
    · intro i hi he
      rw [hpages] at hi
      obtain ⟨b, hb, hlo, hhi⟩ := hx
      obtain ⟨q, hqp, hq⟩ := List.mem_eraseIdx_iff_getElem?.mp hb
      have hsame := h.frames _ x (owned_entry (List.mem_of_getElem? hp) hi)
        ⟨b, List.mem_of_getElem? hq, hlo, hhi⟩ (BitVec.eq_of_toNat_eq he)
      exact hqp (h.tables hp hq hi (show x - b.base < b.pages by omega) (by omega)).1.symm

/-! ## Stores -/

theorem mmuWriteWord_nextKernelFrame (pm : PhysicalMemory) (pageTable : Option Nat)
    (va value : Word) :
    (pm.mmuWriteWord pageTable va value).nextKernelFrame = pm.nextKernelFrame := by
  cases pageTable with
  | none => rfl
  | some base =>
      simp only [PhysicalMemory.mmuWriteWord, PhysicalMemory.writeWord]
      split <;> rfl

theorem mmuWriteWord_frameBitmap (pm : PhysicalMemory) (pageTable : Option Nat)
    (va value : Word) : (pm.mmuWriteWord pageTable va value).frameBitmap = pm.frameBitmap := by
  cases pageTable with
  | none => rfl
  | some base =>
      simp only [PhysicalMemory.mmuWriteWord, PhysicalMemory.writeWord]
      split <;> rfl

/-- A covered store gives nothing away. -/
theorem Allocated.store {pm : PhysicalMemory} {spaces : List Space} {a : Space} {va : Word}
    (h : Allocated pm spaces) (ha : a ∈ spaces) (hva : a.Covers va) (value : Word) :
    Allocated (pm.mmuWriteWord (some a.base) va value) spaces where
  toLayout := h.toLayout.store ha hva value
  below := by
    rw [mmuWriteWord_nextKernelFrame]
    exact h.below
  limit := by
    rw [mmuWriteWord_nextKernelFrame]
    exact h.limit
  marked := by
    intro x hx
    rw [mmuWriteWord_frameBitmap, (h.store_frameNumber ha hva value (h.inKernel x hx)).2]
    exact h.marked x hx

namespace Residents

variable {s : Residents}

/-! ## The run -/

theorem getElem?_spaces {p : Nat} {process : Program × PCB} (hp : s.live[p]? = some process) :
    s.spaces[p]? = some (spaceOf process) := by
  rw [spaces, List.getElem?_map, hp]
  rfl

theorem exists_live {p : Nat} {a : Space} (hp : s.spaces[p]? = some a) :
    ∃ process, s.live[p]? = some process ∧ spaceOf process = a := by
  rw [spaces, List.getElem?_map] at hp
  exact Option.map_eq_some_iff.mp hp

theorem Owners.pgb_of (h : s.Owners) {p : Nat} {process : Program × PCB}
    (hp : s.live[p]? = some process) : process.2.mm.pgb = some (spaceOf process).base :=
  h.pgb process (List.mem_of_getElem? hp)

theorem Owners.destroy (h : s.Owners) {p : Nat} (hp : p < s.live.length) :
    (s.next (.destroy p)).Owners := by
  have hget := List.getElem?_eq_getElem hp
  cases he : s.live[p] with
  | mk program pcb =>
      rw [he] at hget
      have hpgb : pcb.mm.pgb = some (spaceOf (program, pcb)).base := h.pgb_of hget
      have hsub := List.eraseIdx_sublist s.live p
      simp only [next, hget, hpgb]
      have hspaces : (s.live.eraseIdx p).map spaceOf = s.spaces.eraseIdx p :=
        (List.eraseIdx_map ..).symm
      refine ⟨?_, ?_, fun q hq => h.pgb q (hsub.mem hq), h.ordered, ?_, ?_⟩
      · rw [spaces, hspaces]
        exact h.allocated.destroy (getElem?_spaces hget) rfl
      · exact h.counted.destroyPageTable (some _) program.totalPages
      · intro a ha
        rw [pm, withPm, destroyPageTable_nextKernelFrame]
        exact h.below a ha
      · rw [spaces, hspaces]
        exact (List.eraseIdx_sublist ..).trans h.known

theorem Owners.write (h : s.Owners) {p : Nat} {a : Space} (hp : s.spaces[p]? = some a)
    {va : Word} (hva : a.Covers va) (value : Word) : (s.next (.write p va value)).Owners := by
  obtain ⟨process, hget, rfl⟩ := exists_live hp
  have ha := List.mem_of_getElem? hp
  simp only [next, hget, h.pgb_of hget]
  refine ⟨h.allocated.store ha hva value, h.counted.mmuWriteWord (some _) va value, h.pgb,
    h.ordered, ?_, h.known⟩
  intro b hb
  show _ ≤ (s.pm.mmuWriteWord _ va value).nextKernelFrame.toNat
  rw [mmuWriteWord_nextKernelFrame]
  exact h.below b hb

end Residents

/-- Every call keeps the owners. -/
theorem owners_of_reachable {s : Residents} (h : residentRuns.Reachable s) : s.Owners := by
  refine h.invariant Residents.Owners ?_ ?_
  · rintro s rfl
    exact .start
  · rintro s call t hs ⟨hen, rfl⟩
    cases call with
    | create program => exact hs.create program
    | destroy p => exact hs.destroy hen
    | write p va value =>
        obtain ⟨a, hp, hva⟩ := hen
        exact hs.write hp hva value

/-! ## Frame ownership -/

/-- Page `i` of live process `p` is mapped to frame `f`. -/
def Residents.Maps (s : Residents) (p i f : Nat) : Prop :=
  ∃ process base, s.live[p]? = some process ∧ process.2.mm.pgb = some base ∧
    i < process.1.totalPages.toNat ∧ (s.pm.entry base i).present = true ∧
    (s.pm.entry base i).frameNumber.toNat = f

namespace Residents.Owners

variable {s : Residents}

/-- A mapped page is an entry of its space. -/
theorem maps (h : s.Owners) {p i f : Nat} (hmaps : s.Maps p i f) :
    ∃ a, s.spaces[p]? = some a ∧ i < a.pages ∧
      (s.pm.entryAt (a.base + i)).frameNumber.toNat = f := by
  obtain ⟨process, base, hp, hbase, hi, _, hf⟩ := hmaps
  obtain rfl := Option.some.inj ((h.pgb_of hp).symm.trans hbase)
  exact ⟨spaceOf process, Residents.getElem?_spaces hp, hi, hf⟩

theorem frame_bounds (h : s.Owners) {p i f : Nat} (hmaps : s.Maps p i f) :
    kernelFrames ≤ f ∧ f < totalFrames ∧ s.pm.frameBitmap f = true := by
  obtain ⟨a, hp, hi, rfl⟩ := h.maps hmaps
  have howned := owned_entry (List.mem_of_getElem? hp) hi
  exact ⟨h.allocated.inUser _ howned, BitVec.isLt _, h.allocated.marked _ howned⟩

theorem frame_owner (h : s.Owners) {p q i j f : Nat} (hp : s.Maps p i f) (hq : s.Maps q j f) :
    p = q ∧ i = j := by
  obtain ⟨a, hpa, hi, hf⟩ := h.maps hp
  obtain ⟨b, hqb, hj, hf'⟩ := h.maps hq
  refine h.allocated.tables hpa hqb hi hj (h.allocated.frames _ _
    (owned_entry (List.mem_of_getElem? hpa) hi) (owned_entry (List.mem_of_getElem? hqb) hj) ?_)
  exact BitVec.eq_of_toNat_eq (hf.trans hf'.symm)

theorem table_inKernel (h : s.Owners) {a : Space} (ha : a ∈ s.tables) {i : Nat}
    (hi : i < a.pages) : a.base + i < kernelSpaceWords := by
  have hbelow := h.below a ha
  have hlimit := h.allocated.limit
  omega

theorem tables_disjoint (h : s.Owners) {m n : Nat} {a b : Space} (hm : s.tables[m]? = some a)
    (hn : s.tables[n]? = some b) {i j : Nat} (hi : i < a.pages) (hj : j < b.pages)
    (he : a.base + i = b.base + j) : m = n := by
  obtain ⟨hml, rfl⟩ := List.getElem?_eq_some_iff.mp hm
  obtain ⟨hnl, rfl⟩ := List.getElem?_eq_some_iff.mp hn
  have hpair := List.pairwise_iff_getElem.mp h.ordered
  rcases Nat.lt_trichotomy m n with hlt | heq | hgt
  · have := hpair m n hml hnl hlt
    omega
  · exact heq
  · have := hpair n m hnl hml hgt
    omega

end Residents.Owners

/-- After any calls, the counter counts the marked frames, the kernel frames
are marked, a mapped frame is a marked user frame of one page of one process,
and the tables share no word with each other or with a mapped frame. -/
theorem frame_ownership {s : Residents} (h : residentRuns.Reachable s) :
    s.pm.totalAllocatedFrames.toNat = s.pm.markedFrames.card ∧
    (∀ f, f < kernelFrames → s.pm.frameBitmap f = true) ∧
    (∀ p i f, s.Maps p i f →
      kernelFrames ≤ f ∧ f < totalFrames ∧ s.pm.frameBitmap f = true) ∧
    (∀ p q i j f, s.Maps p i f → s.Maps q j f → p = q ∧ i = j) ∧
    s.spaces.Sublist s.tables ∧
    (∀ (m n : Nat) (a b : Space), s.tables[m]? = some a → s.tables[n]? = some b →
      ∀ i j, i < a.pages → j < b.pages → a.base + i = b.base + j → m = n) ∧
    ∀ a ∈ s.tables, ∀ i, i < a.pages →
      a.base + i < kernelSpaceWords ∧
      ∀ p j f, s.Maps p j f →
        ¬ (f * wordsPerPage ≤ a.base + i ∧ a.base + i < f * wordsPerPage + wordsPerPage) := by
  have howners := owners_of_reachable h
  refine ⟨howners.counted.total, howners.counted.kernel, fun _ _ _ => howners.frame_bounds,
    fun _ _ _ _ _ => howners.frame_owner, howners.known,
    fun _ _ _ _ hm hn _ _ => howners.tables_disjoint hm hn, fun a ha i hi => ?_⟩
  have hkernel := howners.table_inKernel ha hi
  refine ⟨hkernel, fun p j f hmaps hin => ?_⟩
  have hf := (howners.frame_bounds hmaps).1
  simp only [kernelFrames, kernelSpaceWords, wordsPerPage] at *
  omega

/-- Two processes of one page each. -/
def twoResidents : Residents :=
  (Residents.next ⟨createLoader createPhysicalMemory, [], []⟩
    (.create (oneInstruction 0))).next (.create (oneInstruction 0))

theorem reachable_twoResidents : residentRuns.Reachable twoResidents :=
  Residents.reachable (Residents.reachable (.init rfl) (.create _) trivial) (.create _) trivial

theorem live_twoResidents : (∃ A, twoResidents.live[0]? = some A ∧ (spaceOf A).Covers 0) ∧
    ∃ B, twoResidents.live[1]? = some B ∧ (spaceOf B).Covers 0 := by
  have h : (twoResidents.live[0]?.any fun A => decide ((spaceOf A).Covers 0)) = true ∧
      (twoResidents.live[1]?.any fun B => decide ((spaceOf B).Covers 0)) = true := by
    decide +kernel
  obtain ⟨A, hA, ha⟩ := (Option.any_eq_true ..).mp h.1
  obtain ⟨B, hB, hb⟩ := (Option.any_eq_true ..).mp h.2
  exact ⟨⟨A, hA, of_decide_eq_true ha⟩, B, hB, of_decide_eq_true hb⟩

/-- One of them gives its frame back, and the next process takes it. -/
theorem frame_ownership_reuse :
    let s := (twoResidents.next (.destroy 0)).next (.create (oneInstruction 0))
    s.Maps 1 0 256 ∧ s.tables.length = 3 ∧
      s.pm.totalAllocatedFrames.toNat = s.pm.markedFrames.card := by
  intro s
  have hdestroy : 0 < twoResidents.live.length := by
    decide +kernel
  have hmaps : (s.live[1]?.any fun P => decide (0 < P.1.totalPages.toNat) &&
      P.2.mm.pgb.any fun base => (s.pm.entry base 0).present &&
        decide ((s.pm.entry base 0).frameNumber.toNat = 256)) = true := by
    decide +kernel
  obtain ⟨P, hP, hpages⟩ := (Option.any_eq_true ..).mp hmaps
  obtain ⟨hpages, hentry⟩ := Bool.and_eq_true_iff.mp hpages
  obtain ⟨base, hbase, hentry⟩ := (Option.any_eq_true ..).mp hentry
  obtain ⟨hpresent, hframe⟩ := Bool.and_eq_true_iff.mp hentry
  refine ⟨⟨P, base, hP, hbase, of_decide_eq_true hpages, hpresent, of_decide_eq_true hframe⟩,
    by decide +kernel, (frame_ownership ?_).1⟩
  exact Residents.reachable (Residents.reachable reachable_twoResidents (.destroy 0) hdestroy)
    (.create _) trivial

/-! ## Private memories -/

/-- A store by one process is read back by it at the same word, is seen at no
other word and by no other process, and leaves what the page tables map as it
was. -/
theorem store_private {s : Residents} (h : residentRuns.Reachable s) {p q : Nat}
    {A B : Program × PCB} (hA : s.live[p]? = some A) (hB : s.live[q]? = some B) {a b : Word}
    (ha : (spaceOf A).Covers a) (hb : (spaceOf B).Covers b) (v : Word) :
    (s.pm.mmuWriteWord A.2.mm.pgb a v).mmuReadWord B.2.mm.pgb b =
        (if p = q ∧ a.toNat / wordSize = b.toNat / wordSize then v
          else s.pm.mmuReadWord B.2.mm.pgb b) ∧
      (∀ (r : Nat) (C : Program × PCB), s.live[r]? = some C → spaceOf C ∈ s.tables) ∧
      ∀ t ∈ s.tables, ∀ i, i < t.pages →
        let e := s.pm.entry t.base i
        let e' := (s.pm.mmuWriteWord A.2.mm.pgb a v).entry t.base i
        e'.frameNumber = e.frameNumber ∧ e'.present = e.present ∧ e'.rw = e.rw ∧
          e'.user = e.user := by
  have howners := owners_of_reachable h
  have hL := howners.allocated.toLayout
  have hpA := Residents.getElem?_spaces hA
  have hqB := Residents.getElem?_spaces hB
  have hmA := List.mem_of_getElem? hpA
  have hmB := List.mem_of_getElem? hqB
  rw [howners.pgb_of hA, howners.pgb_of hB]
  refine ⟨?_, fun r C hC => ?_, fun t ht i hi => ?_⟩
  · have hafter := (hL.store hmA ha v).covers_present hmB hb
    rw [PhysicalMemory.mmuReadWord_present hafter, hL.store_read hpA ha v hqB hb.lt,
      PhysicalMemory.mmuReadWord_present (hL.covers_present hmB hb)]
    exact if_congr (and_congr eq_comm eq_comm) rfl rfl
  · exact howners.known.mem (List.mem_of_getElem? (Residents.getElem?_spaces hC))
  · have hentry := hL.store_entryAt hmA ha v (howners.table_inKernel ht hi)
    simp only [PhysicalMemory.entry_eq, hentry]
    split <;> exact ⟨rfl, rfl, rfl, rfl⟩

theorem store_private_two : ∃ A B, twoResidents.live[0]? = some A ∧
    twoResidents.live[1]? = some B ∧
    (twoResidents.pm.mmuWriteWord A.2.mm.pgb 0 7).mmuReadWord B.2.mm.pgb 0 =
      twoResidents.pm.mmuReadWord B.2.mm.pgb 0 := by
  obtain ⟨⟨A, hA, ha⟩, B, hB, hb⟩ := live_twoResidents
  exact ⟨A, B, hA, hB, (store_private reachable_twoResidents hA hB ha hb 7).1⟩

end LocOS
