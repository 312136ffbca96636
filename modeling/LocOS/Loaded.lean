import LocOS.Loader

/-!
# Loaded

Loading keeps the layout: whatever programs are loaded, in whatever order and
with whatever failures, the tables of the processes lie apart, no frame is
given twice, and each space holds the image of its program.
-/

namespace LocOS

/-! ## Allocation -/

/-- A layout the allocator respects: the tables lie below the next kernel
word, and their frames are marked. -/
structure Allocated (pm : PhysicalMemory) (spaces : List Space) : Prop extends
    Layout pm spaces where
  below : ∀ a ∈ spaces, a.base + a.pages ≤ pm.nextKernelFrame.toNat
  limit : pm.nextKernelFrame.toNat ≤ kernelSpaceWords
  marked : ∀ x, Owned spaces x → pm.frameBitmap (pm.entryAt x).frameNumber.toNat = true

/-- Nothing the spaces own has changed: neither their entries nor their words. -/
structure Undisturbed (pm pm' : PhysicalMemory) (spaces : List Space) : Prop where
  entries : ∀ x, Owned spaces x → pm'.memory x = pm.memory x
  words : ∀ a ∈ spaces, ∀ w, w < a.words → pm'.memory (a.index pm w) = pm.memory (a.index pm w)

theorem owned_append {spaces : List Space} {a : Space} {x : Nat} :
    Owned (spaces ++ [a]) x ↔ Owned spaces x ∨ (a.base ≤ x ∧ x < a.base + a.pages) := by
  simp only [Owned, List.mem_append, List.mem_singleton, or_and_right, exists_or, exists_eq_left]

theorem Owned.mono {spaces spaces' : List Space} (h : ∀ a ∈ spaces, a ∈ spaces') {x : Nat}
    (hx : Owned spaces x) : Owned spaces' x := by
  obtain ⟨a, ha, hx⟩ := hx
  exact ⟨a, h a ha, hx⟩

namespace Undisturbed

variable {pm pm' pm'' : PhysicalMemory} {spaces : List Space}

theorem refl (pm : PhysicalMemory) (spaces : List Space) : Undisturbed pm pm spaces :=
  ⟨fun _ _ => rfl, fun _ _ _ _ => rfl⟩

theorem entryAt (h : Undisturbed pm pm' spaces) {x : Nat} (hx : Owned spaces x) :
    pm'.entryAt x = pm.entryAt x := by
  rw [PhysicalMemory.entryAt, h.entries x hx, PhysicalMemory.entryAt]

theorem index (h : Undisturbed pm pm' spaces) {a : Space} (ha : a ∈ spaces) {w : Nat}
    (hw : w < a.words) : a.index pm' w = a.index pm w := by
  simp only [Space.index, Space.frame, PhysicalMemory.entry_eq,
    h.entryAt (owned_entry ha (Space.page_lt hw))]

theorem read (h : Undisturbed pm pm' spaces) {a : Space} (ha : a ∈ spaces) {w : Nat}
    (hw : w < a.words) : a.read pm' w = a.read pm w := by
  rw [Space.read, h.index ha hw, h.words a ha w hw, Space.read]

theorem trans (h : Undisturbed pm pm' spaces) (h' : Undisturbed pm' pm'' spaces) :
    Undisturbed pm pm'' spaces where
  entries := fun x hx => (h'.entries x hx).trans (h.entries x hx)
  words := by
    intro a ha w hw
    rw [← h.words a ha w hw, ← h.index ha hw]
    exact h'.words a ha w hw

theorem mono {spaces' : List Space} (h : Undisturbed pm pm' spaces)
    (hsub : ∀ a ∈ spaces', a ∈ spaces) : Undisturbed pm pm' spaces' :=
  ⟨fun x hx => h.entries x (hx.mono hsub), fun a ha => h.words a (hsub a ha)⟩

end Undisturbed

theorem Layout.undisturbed {pm pm' : PhysicalMemory} {spaces : List Space}
    (h : Layout pm spaces) (hu : Undisturbed pm pm' spaces) : Layout pm' spaces where
  ordered := h.ordered
  inKernel := h.inKernel
  present := fun x hx => (hu.entryAt hx).symm ▸ h.present x hx
  inUser := fun x hx => (hu.entryAt hx).symm ▸ h.inUser x hx
  frames := by
    intro x y hx hy
    rw [hu.entryAt hx, hu.entryAt hy]
    exact h.frames x y hx hy

/-- What the allocator has gained since. -/
structure Grown (pm pm' : PhysicalMemory) : Prop where
  kernel : pm.nextKernelFrame.toNat ≤ pm'.nextKernelFrame.toNat
  limit : pm'.nextKernelFrame.toNat ≤ kernelSpaceWords
  bitmap : ∀ f, pm.frameBitmap f = true → pm'.frameBitmap f = true

theorem Allocated.undisturbed {pm pm' : PhysicalMemory} {spaces : List Space}
    (h : Allocated pm spaces) (hu : Undisturbed pm pm' spaces) (hg : Grown pm pm') :
    Allocated pm' spaces where
  toLayout := h.toLayout.undisturbed hu
  below := fun a ha => (h.below a ha).trans hg.kernel
  limit := hg.limit
  marked := by
    intro x hx
    rw [hu.entryAt hx]
    exact hg.bitmap _ (h.marked x hx)

/-- Fewer tables are laid out too. -/
theorem Layout.sublist {pm : PhysicalMemory} {spaces spaces' : List Space} (h : Layout pm spaces)
    (hsub : spaces'.Sublist spaces) : Layout pm spaces' where
  ordered := h.ordered.sublist hsub
  inKernel := fun x hx => h.inKernel x (hx.mono fun _ => hsub.mem)
  present := fun x hx => h.present x (hx.mono fun _ => hsub.mem)
  inUser := fun x hx => h.inUser x (hx.mono fun _ => hsub.mem)
  frames := fun x y hx hy => h.frames x y (hx.mono fun _ => hsub.mem) (hy.mono fun _ => hsub.mem)

/-- The first tables keep the layout without the last one. -/
theorem Allocated.dropLast {pm : PhysicalMemory} {spaces : List Space} {a : Space}
    (h : Allocated pm (spaces ++ [a])) : Allocated pm spaces where
  toLayout := h.toLayout.sublist (List.sublist_append_left ..)
  below := fun b hb => h.below b (List.mem_append_left _ hb)
  limit := h.limit
  marked := fun x hx => h.marked x (hx.mono fun _ => List.mem_append_left _)

theorem allocated_createPhysicalMemory : Allocated createPhysicalMemory [] where
  ordered := .nil
  inKernel := fun _ ⟨_, ha, _⟩ => by cases ha
  present := fun _ ⟨_, ha, _⟩ => by cases ha
  inUser := fun _ ⟨_, ha, _⟩ => by cases ha
  frames := fun _ _ ⟨_, ha, _⟩ => by cases ha
  below := fun _ ha => by cases ha
  limit := by decide
  marked := fun _ ⟨_, ha, _⟩ => by cases ha

/-! ## The two allocators -/

theorem allocateFrame_cases (pm : PhysicalMemory) :
    pm.allocateFrame = (0, pm) ∨
    ∃ frame : Word, kernelFrames ≤ frame.toNat ∧ frame.toNat < totalFrames ∧
      pm.frameBitmap frame.toNat = false ∧
      pm.allocateFrame = (frame,
        { pm with
          frameBitmap := Function.update pm.frameBitmap frame.toNat true
          totalAllocatedFrames := pm.totalAllocatedFrames + 1 }) := by
  unfold PhysicalMemory.allocateFrame
  split
  · rename_i i hfind
    right
    have hmem := List.mem_of_find?_eq_some hfind
    have hfree := List.find?_some hfind
    rw [List.mem_range'_1] at hmem
    have hi : (BitVec.ofNat 32 i).toNat = i := by
      rw [BitVec.toNat_ofNat]
      exact Nat.mod_eq_of_lt (Nat.lt_trans hmem.2 (by decide))
    refine ⟨BitVec.ofNat 32 i, ?_, ?_, ?_, ?_⟩
    · rw [hi]
      exact hmem.1
    · rw [hi]
      exact hmem.2
    · rw [hi]
      simpa using hfree
    · rw [hi]
  · exact .inl rfl

/-- A table without entries can be added behind all others. -/
theorem Allocated.addEmpty {pm : PhysicalMemory} {spaces : List Space} {base : Nat}
    (h : Allocated pm spaces) (hbehind : ∀ a ∈ spaces, a.base + a.pages ≤ base)
    (hbelow : base ≤ pm.nextKernelFrame.toNat) : Allocated pm (spaces ++ [⟨base, 0⟩]) := by
  have hsame : ∀ x, Owned (spaces ++ [⟨base, 0⟩]) x → Owned spaces x := by
    intro x hx
    rcases owned_append.mp hx with hx | ⟨h1, h2⟩
    · exact hx
    · exact absurd h2 (Nat.not_lt.mpr h1)
  exact {
    ordered := List.pairwise_append.mpr ⟨h.ordered, List.pairwise_singleton .., by
      intro a ha b hb
      obtain rfl := List.mem_singleton.mp hb
      exact hbehind a ha⟩
    inKernel := fun x hx => h.inKernel x (hsame x hx)
    present := fun x hx => h.present x (hsame x hx)
    inUser := fun x hx => h.inUser x (hsame x hx)
    frames := fun x y hx hy => h.frames x y (hsame x hx) (hsame y hy)
    below := by
      intro a ha
      rcases List.mem_append.mp ha with ha | ha
      · exact h.below a ha
      · obtain rfl := List.mem_singleton.mp ha
        exact hbelow
    limit := h.limit
    marked := fun x hx => h.marked x (hsame x hx) }

theorem createPageTable_eq (pm : PhysicalMemory) (numPages : Word) :
    pm.createPageTable numPages =
      if kernelSpaceWords < (pm.nextKernelFrame + numPages).toNat then (none, pm)
      else
        (some pm.nextKernelFrame.toNat,
          { pm with
            nextKernelFrame := pm.nextKernelFrame + numPages
            memory := fun x =>
              if pm.nextKernelFrame.toNat ≤ x ∧ x < pm.nextKernelFrame.toNat + numPages.toNat then
                PhysicalMemory.freshEntry.toWord
              else pm.memory x }) := by
  have hsize : BitVec.ofNat 32 (numPages.toNat * wordSize / wordSize) +
      (if numPages.toNat * wordSize % wordSize ≠ 0 then (1 : Word) else 0) = numPages := by
    simp
  simp only [PhysicalMemory.createPageTable, hsize, PhysicalMemory.allocateKernelSpace]
  by_cases hfull : kernelSpaceWords < (pm.nextKernelFrame + numPages).toNat
  · rw [if_pos hfull, if_pos hfull]
  · rw [if_neg hfull, if_neg hfull]
    simp only [fillTable_eq]

/-- A table is taken from the next kernel words, or there is no room for it. -/
theorem createPageTable_cases (pm : PhysicalMemory) (numPages : Word) :
    pm.createPageTable numPages = (none, pm) ∨
      (pm.nextKernelFrame + numPages).toNat ≤ kernelSpaceWords ∧
        pm.createPageTable numPages = (some pm.nextKernelFrame.toNat,
          { pm with
            nextKernelFrame := pm.nextKernelFrame + numPages
            memory := fun x =>
              if pm.nextKernelFrame.toNat ≤ x ∧ x < pm.nextKernelFrame.toNat + numPages.toNat then
                PhysicalMemory.freshEntry.toWord
              else pm.memory x }) := by
  rw [createPageTable_eq]
  by_cases hfull : kernelSpaceWords < (pm.nextKernelFrame + numPages).toNat
  · rw [if_pos hfull]
    exact .inl rfl
  · rw [if_neg hfull]
    exact .inr ⟨Nat.le_of_not_lt hfull, rfl⟩

/-- A new table lies behind all others, and nothing below it changes. -/
theorem Allocated.createPageTable {pm : PhysicalMemory} {spaces : List Space}
    (h : Allocated pm spaces) {numPages : Word} (hpages : numPages.toNat < 2 ^ 20) :
    (∃ pm', pm.createPageTable numPages = (none, pm') ∧ pm' = pm) ∨
    ∃ base pm', pm.createPageTable numPages = (some base, pm') ∧
      Allocated pm' (spaces ++ [⟨base, 0⟩]) ∧ Undisturbed pm pm' spaces ∧
      base + numPages.toNat ≤ pm'.nextKernelFrame.toNat := by
  have hlimit := h.limit
  have hsum : (pm.nextKernelFrame + numPages).toNat =
      pm.nextKernelFrame.toNat + numPages.toNat := by
    rw [BitVec.toNat_add]
    simp only [kernelSpaceWords] at hlimit
    omega
  rcases createPageTable_cases pm numPages with he | ⟨hroom, he⟩
  · exact .inl ⟨pm, he, rfl⟩
  · right
    have hu : Undisturbed pm
        { pm with
          nextKernelFrame := pm.nextKernelFrame + numPages
          memory := fun x =>
            if pm.nextKernelFrame.toNat ≤ x ∧ x < pm.nextKernelFrame.toNat + numPages.toNat then
              PhysicalMemory.freshEntry.toWord
            else pm.memory x } spaces := by
      refine ⟨fun x hx => if_neg ?_, fun a ha w hw => if_neg ?_⟩
      · obtain ⟨a, ha, hx⟩ := hx
        have := h.below a ha
        omega
      · have := h.kernel_le_index ha hw
        rw [hsum] at hroom
        omega
    have hold := h.undisturbed hu ⟨by simp [hsum], hroom, fun _ => id⟩
    exact ⟨_, _, he, hold.addEmpty (fun a ha => h.below a ha) (by simp [hsum]), hu,
      by simp [hsum]⟩

/-! ## Loading the pages -/

/-- The memory in which a page is filled: the frame is taken. -/
def PhysicalMemory.take (pm : PhysicalMemory) (frame : Word) : PhysicalMemory :=
  { pm with
    frameBitmap := Function.update pm.frameBitmap frame.toNat true
    totalAllocatedFrames := pm.totalAllocatedFrames + 1 }

section
variable {program : Program} {pm : PhysicalMemory} {spaces : List Space} {base page : Nat}
  {frame : Word}

/-- The table of a process lies behind the tables of its predecessors. -/
theorem Layout.le_last {a : Space} (h : Layout pm (spaces ++ [a])) {b : Space}
    (hb : b ∈ spaces) : b.base + b.pages ≤ a.base :=
  (List.pairwise_append.mp h.ordered).2.2 b hb a (List.mem_singleton_self a)

theorem Layout.lt_next (h : Layout pm (spaces ++ [⟨base, page⟩])) {x : Nat}
    (hx : Owned (spaces ++ [⟨base, page⟩]) x) : x < base + page := by
  rcases owned_append.mp hx with ⟨a, ha, hx⟩ | hx
  · have : a.base + a.pages ≤ base := h.le_last ha
    omega
  · exact hx.2

/-- Filling the next page leaves everything loaded so far as it is. -/
theorem Allocated.loadPage_undisturbed (h : Allocated pm (spaces ++ [⟨base, page⟩]))
    (program : Program)
    (hroom : base + page < pm.nextKernelFrame.toNat) (hlo : kernelFrames ≤ frame.toNat)
    (hhi : frame.toNat < totalFrames) (hfree : pm.frameBitmap frame.toNat = false) :
    Undisturbed pm (loadPage program base page frame (pm.take frame))
      (spaces ++ [⟨base, page⟩]) := by
  have hlimit := h.limit
  rw [loadPage_eq program _ base page hhi]
  refine ⟨fun x hx => ?_, fun a ha w hw => ?_⟩
  · have hlt := h.lt_next hx
    have hin := h.inKernel x hx
    simp only [kernelFrames, kernelSpaceWords, wordsPerPage] at *
    show (if _ then _ else if _ then _ else _) = _
    rw [if_neg (by omega), if_neg (by omega)]
    rfl
  · have hkernel := h.kernel_le_index ha hw
    -- the frame was free, so it is none of those in use
    have hne : a.frame pm (w / wordsPerPage) ≠ frame.toNat := by
      intro he
      have hmark := h.marked _ (owned_entry ha (Space.page_lt hw))
      rw [← PhysicalMemory.entry_eq] at hmark
      rw [Space.frame] at he
      rw [he, hfree] at hmark
      cases hmark
    have hw := Nat.mod_lt w (by decide : 0 < wordsPerPage)
    show (if _ then _ else if _ then _ else _) = _
    rw [if_neg, if_neg]
    · rfl
    · omega
    · simp only [Space.index, wordsPerPage] at *
      omega

/-- The entry of the page just filled. -/
theorem loadPage_entryAt (hroom : base + page < kernelSpaceWords)
    (hlo : kernelFrames ≤ frame.toNat) (hhi : frame.toNat < totalFrames) :
    (loadPage program base page frame pm).entryAt (base + page) =
      loadedEntry (pm.entry base page) frame := by
  rw [loadPage_eq program _ base page hhi, PhysicalMemory.entryAt]
  have hout : ¬ (frame.toNat * wordsPerPage ≤ base + page ∧
      base + page < frame.toNat * wordsPerPage + wordsPerPage) := by
    simp only [kernelFrames, kernelSpaceWords, wordsPerPage] at *
    omega
  simp only [if_neg hout, if_true, PageTableEntry.ofWord_toWord]

theorem loadedEntry_frame {old : PageTableEntry} (hhi : frame.toNat < totalFrames) :
    (loadedEntry old frame).frameNumber.toNat = frame.toNat := by
  simp only [loadedEntry, BitVec.toNat_setWidth]
  exact Nat.mod_eq_of_lt hhi

/-- One page more owns one entry more. -/
theorem owned_succ {x : Nat} (hx : Owned (spaces ++ [⟨base, page + 1⟩]) x) :
    Owned (spaces ++ [⟨base, page⟩]) x ∨ x = base + page := by
  rcases owned_append.mp hx with hx | ⟨h1, h2⟩
  · exact .inl (owned_append.mpr (.inl hx))
  · by_cases hlast : x = base + page
    · exact .inr hlast
    · refine .inl (owned_append.mpr (.inr ⟨h1, ?_⟩))
      show x < base + page
      have h2 : x < base + (page + 1) := h2
      omega

/-- The last table grows by an entry to a frame of its own. -/
theorem Allocated.extend (h : Allocated pm (spaces ++ [⟨base, page⟩]))
    (hroom : base + page < pm.nextKernelFrame.toNat)
    (hpresent : (pm.entryAt (base + page)).present = true)
    (huser : kernelFrames ≤ (pm.entryAt (base + page)).frameNumber.toNat)
    (hmarked : pm.frameBitmap (pm.entryAt (base + page)).frameNumber.toNat = true)
    (hfresh : ∀ x, Owned (spaces ++ [⟨base, page⟩]) x →
      (pm.entryAt x).frameNumber ≠ (pm.entryAt (base + page)).frameNumber) :
    Allocated pm (spaces ++ [⟨base, page + 1⟩]) where
  ordered := List.pairwise_append.mpr ⟨(List.pairwise_append.mp h.ordered).1,
    List.pairwise_singleton .., by
      intro a ha b hb
      obtain rfl := List.mem_singleton.mp hb
      exact h.le_last ha⟩
  inKernel := by
    intro x hx
    rcases owned_succ hx with hx | rfl
    · exact h.inKernel x hx
    · exact Nat.lt_of_lt_of_le hroom h.limit
  present := by
    intro x hx
    rcases owned_succ hx with hx | rfl
    · exact h.present x hx
    · exact hpresent
  inUser := by
    intro x hx
    rcases owned_succ hx with hx | rfl
    · exact h.inUser x hx
    · exact huser
  frames := by
    intro x y hx hy he
    rcases owned_succ hx with hx | rfl <;> rcases owned_succ hy with hy | rfl
    · exact h.frames x y hx hy he
    · exact absurd he (hfresh x hx)
    · exact absurd he.symm (hfresh y hy)
    · rfl
  below := by
    intro a ha
    rcases List.mem_append.mp ha with ha | ha
    · exact h.below a (List.mem_append_left _ ha)
    · obtain rfl := List.mem_singleton.mp ha
      exact hroom
  limit := h.limit
  marked := by
    intro x hx
    rcases owned_succ hx with hx | rfl
    · exact h.marked x hx
    · exact hmarked

/-- The frame of the page just filled. -/
theorem loadPage_frame (hroom : base + page < kernelSpaceWords)
    (hlo : kernelFrames ≤ frame.toNat) (hhi : frame.toNat < totalFrames) :
    ((loadPage program base page frame pm).entryAt (base + page)).frameNumber.toNat =
      frame.toNat := by
  rw [loadPage_entryAt hroom hlo hhi, loadedEntry_frame hhi]

/-- The words of the page just filled are those of the image. -/
theorem loadPage_read (hroom : base + page < kernelSpaceWords)
    (hlo : kernelFrames ≤ frame.toNat) (hhi : frame.toNat < totalFrames) {w : Nat}
    (hw : w / wordsPerPage = page) :
    (Space.mk base (page + 1)).read (loadPage program base page frame pm) w =
      program.imageWord w := by
  have hindex : (Space.mk base (page + 1)).index (loadPage program base page frame pm) w =
      frame.toNat * wordsPerPage + w % wordsPerPage := by
    rw [Space.index, Space.frame, PhysicalMemory.entry_eq, hw, loadPage_frame hroom hlo hhi]
  have hmod := Nat.mod_lt w (by decide : 0 < wordsPerPage)
  rw [Space.read, hindex, loadPage_eq program _ base page hhi]
  show (if _ then _ else _) = _
  rw [if_pos ⟨Nat.le_add_right _ _, Nat.add_lt_add_left hmod _⟩, Nat.add_sub_cancel_left, ← hw,
    Nat.mul_comm, Nat.div_add_mod]

/-- The space gains the page. -/
theorem Allocated.loadPage (h : Allocated pm (spaces ++ [⟨base, page⟩])) (program : Program)
    (hroom : base + page < pm.nextKernelFrame.toNat) (hlo : kernelFrames ≤ frame.toNat)
    (hhi : frame.toNat < totalFrames) (hfree : pm.frameBitmap frame.toNat = false) :
    Allocated (loadPage program base page frame (pm.take frame))
      (spaces ++ [⟨base, page + 1⟩]) := by
  have hkernel : base + page < kernelSpaceWords := Nat.lt_of_lt_of_le hroom h.limit
  have hu := h.loadPage_undisturbed program hroom hlo hhi hfree
  have hentry := @loadPage_entryAt program (pm.take frame) base page frame hkernel hlo hhi
  have hframe := @loadPage_frame program (pm.take frame) base page frame hkernel hlo hhi
  set pm' := LocOS.loadPage program base page frame (pm.take frame) with hpm'
  have hnext : pm'.nextKernelFrame = pm.nextKernelFrame := by
    rw [hpm', loadPage_eq program _ base page hhi]
    rfl
  have hbit : pm'.frameBitmap = Function.update pm.frameBitmap frame.toNat true := by
    rw [hpm', loadPage_eq program _ base page hhi]
    rfl
  have hold : Allocated pm' (spaces ++ [⟨base, page⟩]) :=
    h.undisturbed hu ⟨Nat.le_of_eq (by rw [hnext]), by rw [hnext]; exact h.limit, by
      intro f hf
      rw [hbit, Function.update_apply]
      split
      · rfl
      · exact hf⟩
  refine hold.extend (hnext ▸ hroom) ?_ ?_ ?_ fun x hx he => ?_
  · rw [hentry]
    rfl
  · rw [hframe]
    exact hlo
  · rw [hframe, hbit, Function.update_self]
  · -- the frame was free, those of the tables are marked
    have hmark := h.marked x hx
    rw [← hu.entryAt hx, he, hframe, hfree] at hmark
    cases hmark

end

/-- The invariant rule of a loop over pages that succeeds: every iteration
fills a page with a free user frame. -/
theorem loadPages_inv {program : Program} {base n : Nat} {pm : PhysicalMemory}
    (P : Nat → PhysicalMemory → Prop) (h0 : P 0 pm)
    (hstep : ∀ i pm' (frame : Word), i < n → P i pm' → kernelFrames ≤ frame.toNat →
      frame.toNat < totalFrames → pm'.frameBitmap frame.toNat = false →
      P (i + 1) (loadPage program base i frame (pm'.take frame)))
    (hok : (loadPages program base n pm).1 = true) : P n (loadPages program base n pm).2 := by
  refine Loop.up_inv (fun i (acc : Bool × PhysicalMemory) => acc.1 = true → P i acc.2)
    (fun _ => h0) ?_ hok
  rintro i ⟨ok, pm'⟩ hi hpm'
  cases ok with
  | false => exact fun h => by cases h
  | true =>
      simp only [if_true]
      rcases allocateFrame_cases pm' with he | ⟨frame, hlo, hhi, hfree, he⟩
      · rw [he]
        exact fun h => by cases h
      · have hne : frame ≠ 0 := by
          rintro rfl
          exact absurd hlo (by decide)
        rw [he]
        simp only [hne, if_false]
        exact fun _ => hstep i pm' frame hi (hpm' rfl) hlo hhi hfree

/-- What the loop over pages keeps: the spaces loaded before always, the new
one as long as there are free frames. -/
theorem Allocated.loadPages {pm : PhysicalMemory} {spaces : List Space} {base n : Nat}
    (h : Allocated pm (spaces ++ [⟨base, 0⟩])) (program : Program)
    (hroom : base + n ≤ pm.nextKernelFrame.toNat) :
    Allocated (loadPages program base n pm).2 spaces ∧
      Undisturbed pm (loadPages program base n pm).2 spaces ∧
      ((loadPages program base n pm).1 = true →
        Allocated (loadPages program base n pm).2 (spaces ++ [⟨base, n⟩]) ∧
          ∀ w, w < n * wordsPerPage →
            (Space.mk base n).read (loadPages program base n pm).2 w = program.imageWord w) := by
  have hinv := @Loop.up_inv _ (fun page (acc : Bool × PhysicalMemory) =>
      if acc.1 then
        if acc.2.allocateFrame.1 = 0 then (false, acc.2.allocateFrame.2)
        else (true, LocOS.loadPage program base page acc.2.allocateFrame.1 acc.2.allocateFrame.2)
      else (acc.1, acc.2)) n (true, pm)
    (fun i acc => Allocated acc.2 spaces ∧ Undisturbed pm acc.2 spaces ∧
      base + n ≤ acc.2.nextKernelFrame.toNat ∧
      (acc.1 = true → Allocated acc.2 (spaces ++ [⟨base, i⟩]) ∧
        ∀ w, w < i * wordsPerPage → (Space.mk base i).read acc.2 w = program.imageWord w))
    ⟨h.dropLast, .refl .., hroom, fun _ => ⟨h, fun w hw => by simp at hw⟩⟩ ?_
  · exact ⟨hinv.1, hinv.2.1, hinv.2.2.2⟩
  · rintro i ⟨ok, pm'⟩ hi ⟨halloc, hu, hroom', hnew⟩
    cases ok with
    | false => exact ⟨halloc, hu, hroom', fun hok => by cases hok⟩
    | true =>
        obtain ⟨hlast, himage⟩ := hnew rfl
        simp only [if_true]
        rcases allocateFrame_cases pm' with he | ⟨frame, hlo, hhi, hfree, he⟩
        · rw [he]
          exact ⟨halloc, hu, hroom', fun hok => by cases hok⟩
        · have hne : frame ≠ 0 := by
            rintro rfl
            exact absurd hlo (by decide)
          rw [he]
          simp only [hne, if_false]
          have hin : base + i < pm'.nextKernelFrame.toNat :=
            Nat.lt_of_lt_of_le (Nat.add_lt_add_left hi base) hroom'
          have hstep := hlast.loadPage_undisturbed program hin hlo hhi hfree
          have hgrown := hlast.loadPage program hin hlo hhi hfree
          refine ⟨hgrown.dropLast, hu.trans (hstep.mono fun a => List.mem_append_left _), ?_,
            fun _ => ⟨hgrown, fun w hw => ?_⟩⟩
          · rw [loadPage_eq program _ base i hhi]
            exact hroom'
          -- the words of the new page, and those of the pages before it
          · by_cases hnow : w / wordsPerPage = i
            · exact loadPage_read (Nat.lt_of_lt_of_le hin hlast.limit) hlo hhi hnow
            · have hlt : w / wordsPerPage < i + 1 := (Nat.div_lt_iff_lt_mul (by decide)).mpr hw
              have hw' : w < i * wordsPerPage :=
                (Nat.div_lt_iff_lt_mul (by decide)).mp (by omega)
              rw [← himage w hw']
              exact hstep.read (a := ⟨base, i⟩) (by simp) hw'

/-! ## Creating processes -/

section
variable {loader : Loader} {program : Program} {base : Nat} {pm pm' : PhysicalMemory}

theorem createProcess_noTable
    (h : loader.physicalMemory.createPageTable program.totalPages = (none, pm)) :
    createProcessFromProgram loader program =
      (none, { loader with nextPid := loader.nextPid + 1, physicalMemory := pm }) := by
  unfold createProcessFromProgram
  dsimp only
  rw [h]

theorem createProcess_noFrames
    (h : loader.physicalMemory.createPageTable program.totalPages = (some base, pm))
    (hload : loadPages program base program.totalPages.toNat pm = (false, pm')) :
    createProcessFromProgram loader program =
      (none, { loader with nextPid := loader.nextPid + 1, physicalMemory := pm' }) := by
  unfold createProcessFromProgram
  dsimp only
  rw [h]
  dsimp only
  rw [hload]

theorem createProcess_ok
    (h : loader.physicalMemory.createPageTable program.totalPages = (some base, pm))
    (hload : loadPages program base program.totalPages.toNat pm = (true, pm')) :
    createProcessFromProgram loader program =
      (some (program.pcb loader.nextPid base),
        { loader with
          nextPid := loader.nextPid + 1
          totalLoaded := loader.totalLoaded + 1
          physicalMemory := pm' }) := by
  unfold createProcessFromProgram
  dsimp only
  rw [h]
  dsimp only
  rw [hload]

end

/-- What a process that could be created went through. -/
theorem createProcess_of_some {loader : Loader} {program : Program} {pcb : PCB}
    (hcreate : (createProcessFromProgram loader program).1 = some pcb) : ∃ base pm pm',
      loader.physicalMemory.createPageTable program.totalPages = (some base, pm) ∧
      loadPages program base program.totalPages.toNat pm = (true, pm') ∧
      pcb = program.pcb loader.nextPid base ∧
      (createProcessFromProgram loader program).2.physicalMemory = pm' := by
  cases htable : loader.physicalMemory.createPageTable program.totalPages with
  | mk pageTable pm =>
      cases pageTable with
      | none =>
          rw [createProcess_noTable htable] at hcreate
          cases hcreate
      | some base =>
          cases hload : loadPages program base program.totalPages.toNat pm with
          | mk ok pm' =>
              cases ok with
              | false =>
                  rw [createProcess_noFrames htable hload] at hcreate
                  cases hcreate
              | true =>
                  rw [createProcess_ok htable hload] at hcreate ⊢
                  exact ⟨base, pm, pm', rfl, hload, (Option.some.inj hcreate).symm, rfl⟩

/-- What one creation does: it fails and leaves the loaded processes alone,
or it adds a space with the image of the program in it. -/
theorem createProcessFromProgram_cases {loader : Loader} {spaces : List Space}
    (h : Allocated loader.physicalMemory spaces) (program : Program) :
    ∃ created loader', createProcessFromProgram loader program = (created, loader') ∧
      loader'.nextPid = loader.nextPid + 1 ∧
      Allocated loader'.physicalMemory spaces ∧
      Undisturbed loader.physicalMemory loader'.physicalMemory spaces ∧
      ∀ pcb, created = some pcb → ∃ base, pcb = program.pcb loader.nextPid base ∧
        Allocated loader'.physicalMemory (spaces ++ [⟨base, program.totalPages.toNat⟩]) ∧
        ∀ w, w < program.totalPages.toNat * wordsPerPage →
          (Space.mk base program.totalPages.toNat).read loader'.physicalMemory w =
            program.imageWord w := by
  rcases h.createPageTable program.totalPages_lt with
    ⟨pm, he, rfl⟩ | ⟨base, pm, he, hnew, hu, hroom⟩
  · exact ⟨_, _, createProcess_noTable he, rfl, h, .refl .., fun _ hpcb => by cases hpcb⟩
  · obtain ⟨hold, hpages, hok⟩ := hnew.loadPages program hroom
    cases hload : LocOS.loadPages program base program.totalPages.toNat pm with
    | mk ok pm' =>
        rw [hload] at hold hpages hok
        cases ok with
        | false =>
            exact ⟨_, _, createProcess_noFrames he hload, rfl, hold, hu.trans hpages,
              fun _ hpcb => by cases hpcb⟩
        | true =>
            refine ⟨_, _, createProcess_ok he hload, rfl, hold, hu.trans hpages,
              fun pcb hpcb => ?_⟩
            obtain rfl := Option.some.inj hpcb
            exact ⟨base, rfl, hok rfl⟩

/-- The processes a loader has created. -/
structure LoadedProcesses (loader : Loader) (processes : List (Program × PCB)) : Prop where
  allocated : Allocated loader.physicalMemory (processes.map spaceOf)
  created : ∀ process ∈ processes,
    ∃ pid base, pid < loader.nextPid ∧ process.2 = process.1.pcb pid base
  pids : (processes.map fun process => process.2.pid).Pairwise (· < ·)
  image : ∀ process ∈ processes, ∀ w, w < (spaceOf process).words →
    (spaceOf process).read loader.physicalMemory w = process.1.imageWord w

theorem LoadedProcesses.start : LoadedProcesses (createLoader createPhysicalMemory) [] :=
  ⟨allocated_createPhysicalMemory, fun _ h => (by cases h), .nil, fun _ h => (by cases h)⟩

/-- A creation keeps the loaded processes, whether it succeeds or not. -/
theorem LoadedProcesses.keep {loader loader' : Loader} {processes : List (Program × PCB)}
    (h : LoadedProcesses loader processes)
    (hpid : loader'.nextPid = loader.nextPid + 1)
    (halloc : Allocated loader'.physicalMemory (processes.map spaceOf))
    (hu : Undisturbed loader.physicalMemory loader'.physicalMemory (processes.map spaceOf)) :
    LoadedProcesses loader' processes where
  allocated := halloc
  created := by
    intro process hp
    obtain ⟨pid, base, hlt, he⟩ := h.created process hp
    exact ⟨pid, base, by omega, he⟩
  pids := h.pids
  image := by
    intro process hp w hw
    rw [hu.read (List.mem_map_of_mem hp) hw]
    exact h.image process hp w hw

/-- A creation that succeeds adds its process, with the next PID. -/
theorem LoadedProcesses.add {loader loader' : Loader} {processes : List (Program × PCB)}
    (h : LoadedProcesses loader processes) (hkept : LoadedProcesses loader' processes)
    (hpid : loader'.nextPid = loader.nextPid + 1) {program : Program} {base : Nat}
    (halloc : Allocated loader'.physicalMemory
      (processes.map spaceOf ++ [⟨base, program.totalPages.toNat⟩]))
    (himage : ∀ w, w < program.totalPages.toNat * wordsPerPage →
      (Space.mk base program.totalPages.toNat).read loader'.physicalMemory w =
        program.imageWord w) :
    LoadedProcesses loader' (processes ++ [(program, program.pcb loader.nextPid base)]) where
  allocated := by
    rw [List.map_append]
    exact halloc
  created := by
    intro process hp
    rcases List.mem_append.mp hp with hp | hp
    · exact hkept.created process hp
    · obtain rfl := List.mem_singleton.mp hp
      exact ⟨loader.nextPid, base, by omega, rfl⟩
  pids := by
    rw [List.map_append, List.pairwise_append]
    refine ⟨h.pids, List.pairwise_singleton .., ?_⟩
    intro pid hp pid' hp'
    obtain ⟨process, hmem, rfl⟩ := List.mem_map.mp hp
    obtain ⟨pid, base', hlt, he⟩ := h.created process hmem
    obtain rfl : pid' = loader.nextPid := List.mem_singleton.mp hp'
    have : process.2.pid = pid := by rw [he]; rfl
    omega
  image := by
    intro process hp
    rcases List.mem_append.mp hp with hp | hp
    · exact hkept.image process hp
    · obtain rfl := List.mem_singleton.mp hp
      exact himage

theorem LoadedProcesses.create {loader : Loader} {processes : List (Program × PCB)}
    (h : LoadedProcesses loader processes) (programs : List Program) :
    LoadedProcesses (createProcesses loader programs).2
      (processes ++ (createProcesses loader programs).1) := by
  induction programs generalizing loader processes with
  | nil =>
      rw [createProcesses, List.append_nil]
      exact h
  | cons program programs ih =>
      obtain ⟨created, loader', he, hpid, halloc, hu, hnew⟩ :=
        createProcessFromProgram_cases h.allocated program
      have hkept := h.keep hpid halloc hu
      simp only [createProcesses, he]
      cases created with
      | none => exact ih hkept
      | some pcb =>
          obtain ⟨base, rfl, halloc', himage⟩ := hnew pcb rfl
          have := ih (h.add hkept hpid halloc' himage)
          rw [List.append_assoc] at this
          exact this

/-- The processes created on a fresh memory. -/
theorem loadedProcesses_createProcesses (programs : List Program) :
    LoadedProcesses (createProcesses (createLoader createPhysicalMemory) programs).2
      (createProcesses (createLoader createPhysicalMemory) programs).1 :=
  LoadedProcesses.start.create programs

end LocOS
