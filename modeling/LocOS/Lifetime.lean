import LocOS.Alone

/-!
# Lifetime

The account of the TTL. Every instruction a process executes costs it one of
its TTL, in any interleaving of hardware threads and passes and under every
policy, as long as no tick finds a process executing whose TTL is used up:
the clock does not look at the TTL, only the scheduler does.
-/

namespace LocOS

/-! ## Executed instructions -/

/-- The instructions executed on behalf of a PID. -/
def executions (log : List Event) (pid : Int) : Nat :=
  log.countP fun
    | .exec _ q _ => decide (q = pid)
    | _ => false

/-- The event is the execution of an instruction. -/
def Event.IsExec : Event → Prop
  | .exec _ _ _ => True
  | _ => False

/-- No PID has executed more instructions than the TTL it was loaded with. -/
def TtlBound (pcbs : List PCB) (log : List Event) : Prop :=
  ∀ pid, 0 < executions log pid →
    ∃ pcb ∈ pcbs, pcb.pid = pid ∧ executions log pid ≤ pcb.initialTtl.toNat

theorem execCount_noExec {e : Event} (he : ¬ e.IsExec) (p : PcbPtr) : execCount [e] p = 0 := by
  cases e with
  | exec p pid instruction => exact absurd trivial he
  | _ => rfl

/-- The hardware thread, if it executes an instruction, executes it for a
process with some TTL left. -/
def TtlLeft (s : Sys) : MicroAction → Prop
  | .slot i j k =>
      ∀ p e, s.cycle? i j k = some (p, e) → Executes e p → 0 < (s.pcbs.get p).ttl
  | _ => True

/-! ## The account of the TTL -/

/-- A page table reference of a process that was not loaded: the copies made
by preemption have none. -/
def OnlyLoaded (n : Nat) (p : PcbPtr) (pageTable : Option Nat) : Prop := n ≤ p → pageTable = none

/-- What each loaded process has executed and what it has left are together
no more than it started with, and nobody else executes. -/
structure Lifetime (pcbs : List PCB) (s : Sys) : Prop where
  references : References (OnlyLoaded pcbs.length) s.machine s.pcbs
  next : pcbs.length ≤ s.pcbs.next
  pid : ∀ p pcb, pcbs[p]? = some pcb → s.pcbs.Live p → (s.pcbs.get p).pid = pcb.pid
  ttl : ∀ p pcb, pcbs[p]? = some pcb →
    execCount s.log p + (s.pcbs.get p).ttl.toNat ≤ pcb.initialTtl.toNat
  events : ∀ p pid instruction, Event.exec p pid instruction ∈ s.log →
    ∃ pcb, pcbs[p]? = some pcb ∧ pid = pcb.pid

/-- A heap in which no loaded process has gained TTL or changed its PID. -/
structure Spends (n : Nat) (h h' : PcbHeap) : Prop where
  next : h.next ≤ h'.next
  live : ∀ p, p < n → h'.Live p → h.Live p ∧ (h'.get p).pid = (h.get p).pid
  ttl : ∀ p, p < n → (h'.get p).ttl.toNat ≤ (h.get p).ttl.toNat

namespace Spends

variable {n : Nat} {h h' h'' : PcbHeap}

theorem refl (n : Nat) (h : PcbHeap) : Spends n h h :=
  ⟨Nat.le_refl _, fun _ _ hl => ⟨hl, rfl⟩, fun _ _ => Nat.le_refl _⟩

theorem trans (hs : Spends n h h') (hs' : Spends n h' h'') : Spends n h h'' where
  next := hs.next.trans hs'.next
  live := by
    intro p hp hl
    obtain ⟨hl', hpid'⟩ := hs'.live p hp hl
    obtain ⟨hl, hpid⟩ := hs.live p hp hl'
    exact ⟨hl, hpid'.trans hpid⟩
  ttl := fun p hp => (hs'.ttl p hp).trans (hs.ttl p hp)

theorem set (n : Nat) (h : PcbHeap) {p : PcbPtr} {pcb : PCB} (hpid : pcb.pid = (h.get p).pid)
    (httl : pcb.ttl.toNat ≤ (h.get p).ttl.toNat) : Spends n h (h.set p pcb) where
  next := Nat.le_refl _
  live := fun q _ hl => ⟨(PcbHeap.live_set ..).mp hl, PcbHeap.get_set_congr PCB.pid h hpid q⟩
  ttl := by
    intro q _
    rcases h.get_set_cases p q pcb with he | ⟨rfl, he⟩
    · rw [he]
    · rw [he]
      exact httl

theorem destroyPcb (n : Nat) (h : PcbHeap) (p : PcbPtr) : Spends n h (h.destroyPcb p) where
  next := Nat.le_refl _
  live := by
    intro q _ hl
    obtain ⟨hne, hl⟩ := (PcbHeap.live_destroyPcb ..).mp hl
    exact ⟨hl, by rw [PcbHeap.get_destroyPcb_ne h hne]⟩
  ttl := by
    intro q _
    by_cases hq : q = p
    · have hzero : ((h.destroyPcb p).get q).ttl = 0 := by
        simp only [hq, PcbHeap.get, PcbHeap.destroyPcb, if_true, Option.getD_none]
        rfl
      rw [hzero]
      exact Nat.zero_le _
    · rw [PcbHeap.get_destroyPcb_ne h hq]

/-- A new object is none of those below the next pointer. -/
theorem alloc {h : PcbHeap} (hn : n ≤ h.next) (pcb : PCB) : Spends n h (h.alloc pcb).2 := by
  have hne : ∀ p, p < n → p ≠ h.next := fun p hp => Nat.ne_of_lt (Nat.lt_of_lt_of_le hp hn)
  refine ⟨Nat.le_succ _, fun p hp hl => ?_, fun p hp => ?_⟩
  · have hget : (h.alloc pcb).2.get p = h.get p := by
      simp [PcbHeap.get, PcbHeap.alloc, hne p hp]
    rw [hget]
    exact ⟨by simpa [PcbHeap.Live, PcbHeap.alloc, hne p hp] using hl, rfl⟩
  · have hget : (h.alloc pcb).2.get p = h.get p := by
      simp [PcbHeap.get, PcbHeap.alloc, hne p hp]
    rw [hget]

end Spends

namespace Lifetime

variable {pcbs : List PCB} {s : Sys}

/-- A step that executes nothing. -/
theorem keep (h : Lifetime pcbs s) {s' : Sys}
    (href : References (OnlyLoaded pcbs.length) s'.machine s'.pcbs)
    (hspends : Spends pcbs.length s.pcbs s'.pcbs)
    (hlog : s'.log = s.log ∨ ∃ e, s'.log = s.log ++ [e] ∧ ¬ e.IsExec) : Lifetime pcbs s' where
  references := href
  next := h.next.trans hspends.next
  pid := by
    intro p pcb hp hl
    obtain ⟨hl, hpid⟩ := hspends.live p (List.getElem?_eq_some_iff.mp hp).1 hl
    exact hpid.trans (h.pid p pcb hp hl)
  ttl := by
    intro p pcb hp
    have hcount : execCount s'.log p = execCount s.log p := by
      rcases hlog with he | ⟨e, he, hexec⟩
      · rw [he]
      · rw [he, execCount_append, execCount_noExec hexec, Nat.add_zero]
    have hold := h.ttl p pcb hp
    have hspent := hspends.ttl p (List.getElem?_eq_some_iff.mp hp).1
    omega
  events := by
    intro p pid instruction hmem
    rcases hlog with he | ⟨e, he, hexec⟩
    · rw [he] at hmem
      exact h.events p pid instruction hmem
    · rw [he] at hmem
      rcases List.mem_append.mp hmem with hmem | hmem
      · exact h.events p pid instruction hmem
      · rw [← List.mem_singleton.mp hmem] at hexec
        exact absurd trivial hexec

/-- A step that executes one instruction of `p`, which pays for it. -/
theorem pay (h : Lifetime pcbs s) {s' : Sys}
    (href : References (OnlyLoaded pcbs.length) s'.machine s'.pcbs)
    (hspends : Spends pcbs.length s.pcbs s'.pcbs) {p : PcbPtr} {pcb : PCB}
    (hp : pcbs[p]? = some pcb) {instruction : Word}
    (hlog : s'.log = s.log ++ [.exec p pcb.pid instruction])
    (hpaid : (s'.pcbs.get p).ttl.toNat < (s.pcbs.get p).ttl.toNat) : Lifetime pcbs s' where
  references := href
  next := h.next.trans hspends.next
  pid := by
    intro q pcb hq hl
    obtain ⟨hl, hpid⟩ := hspends.live q (List.getElem?_eq_some_iff.mp hq).1 hl
    exact hpid.trans (h.pid q pcb hq hl)
  ttl := by
    intro q pcb' hq
    have hold := h.ttl q pcb' hq
    rw [hlog, execCount_append]
    by_cases hqp : q = p
    · have hone : execCount [Event.exec p pcb.pid instruction] q = 1 := by
        simp [execCount, hqp]
      rw [hqp] at hold hone ⊢
      omega
    · have hzero : execCount [Event.exec p pcb.pid instruction] q = 0 := by
        simp [execCount, Ne.symm hqp]
      have hspent := hspends.ttl q (List.getElem?_eq_some_iff.mp hq).1
      omega
  events := by
    intro q pid instruction' hmem
    rw [hlog] at hmem
    rcases List.mem_append.mp hmem with hmem | hmem
    · exact h.events q pid instruction' hmem
    · obtain ⟨rfl, rfl, rfl⟩ := Event.exec.inj (List.mem_singleton.mp hmem)
      exact ⟨pcb, hp, rfl⟩

/-! ## Passes -/

theorem spends_charge (n : Nat) (s : Sys) (p : PcbPtr) : Spends n s.pcbs (s.charge p).pcbs :=
  .set n s.pcbs rfl (Nat.le_refl _)

theorem expiredPcb_ttl (s : Sys) (hw : HardwareThread) (p : PcbPtr) :
    (expiredPcb s hw p).ttl = (s.pcbs.get p).ttl := by
  unfold expiredPcb
  split <;> rfl

theorem start_ttl (pcb : PCB) (sched : Scheduler) (clkCounter : Int) :
    (pcb.start sched clkCounter).ttl = pcb.ttl := by
  simp only [PCB.start]
  split <;> rfl

theorem scanThread (h : Lifetime pcbs s) (i j k : Nat) :
    Lifetime pcbs (LocOS.scanThread i j k s) := by
  have href := h.references.scanThread i j k
  cases hslot : s.machine.slot? i j k with
  | none =>
      unfold LocOS.scanThread
      rw [hslot]
      exact h
  | some slot =>
      obtain ⟨core, hw, p⟩ := slot
      have hcharge := spends_charge pcbs.length s p
      rcases scanThread_cases hslot with ⟨_, he⟩ | ⟨_, _, he⟩ | ⟨_, _, he⟩
      · rw [he] at href ⊢
        exact h.keep href (hcharge.trans (.destroyPcb ..)) (.inr ⟨_, rfl, id⟩)
      · have hexpire := Spends.set pcbs.length (s.charge p).pcbs
          (expiredPcb_pid (s.charge p) hw p)
          (Nat.le_of_eq (congrArg Int.toNat (expiredPcb_ttl (s.charge p) hw p)))
        rw [he] at href ⊢
        exact h.keep href (hcharge.trans hexpire) (.inr ⟨_, rfl, id⟩)
      · rw [he] at href ⊢
        exact h.keep href hcharge (.inl rfl)

theorem preempt (h : Lifetime pcbs s) (p : PcbPtr) :
    Lifetime pcbs (preemptLowerPriorityProcesses s p) := by
  have href := h.references.preempt p
  revert href
  unfold preemptLowerPriorityProcesses
  dsimp only
  split
  · exact fun _ => h
  · split
    · split
      · exact fun _ => h
      · exact fun href => h.keep href (.alloc h.next _) (.inr ⟨_, rfl, id⟩)
    · exact fun _ => h

theorem spends_started (n : Nat) (s : Sys) (sched : Scheduler) (p : PcbPtr) :
    Spends n s.pcbs (s.started sched p) := by
  refine .set n s.pcbs (PCB.start_pid ..) ?_
  rw [start_ttl]

theorem passKeeps (pcbs : List PCB) : PassKeeps (Lifetime pcbs) where
  scan := fun i j k _ h => h.scanThread i j k
  preempt := fun p _ h => h.preempt p
  queues := fun _ _ h => ⟨h.references, h.next, h.pid, h.ttl, h.events⟩
  dispatch := fun p sched _ _ _ s hcore h => h.keep (h.references.dispatched hcore sched p)
    (spends_started _ s sched p) (.inr ⟨_, rfl, id⟩)
  putBack := fun p sched _ s h => h.keep (h.references.started sched p)
    (spends_started _ s sched p) (.inr ⟨_, rfl, id⟩)

/-! ## Ticks -/

theorem decrementTtl_toNat (pcb : PCB) : pcb.decrementTtl.ttl.toNat = pcb.ttl.toNat - 1 := by
  unfold PCB.decrementTtl
  split
  · simp only
    omega
  · omega

theorem spends_age (n : Nat) (h : PcbHeap) (p : PcbPtr) : Spends n h (h.age p) := by
  refine .set n h (PCB.decrementTtl_pid _) ?_
  rw [decrementTtl_toNat]
  exact Nat.sub_le _ _

theorem halt_ttl (pcb : PCB) (instruction : Word) :
    (pcb.halt instruction).ttl.toNat ≤ pcb.ttl.toNat := by
  simp only [PCB.halt]
  split
  · exact Nat.zero_le _
  · exact Nat.le_refl _

theorem spends_executeInstruction (n : Nat) (s : ExecState) (p : PcbPtr) (instruction : Word) :
    Spends n s.pcbs (executeInstruction s p instruction).pcbs := by
  rw [executeInstruction_pcbs]
  split
  · exact .set n s.pcbs rfl (halt_ttl _ _)
  · exact .refl n s.pcbs

/-- A dead object has no TTL. -/
theorem live_of_ttl {h : PcbHeap} {p : PcbPtr} (httl : 0 < (h.get p).ttl) : h.Live p := by
  unfold PcbHeap.Live
  cases hcell : h.cells p with
  | some pcb => rfl
  | none =>
      rw [PcbHeap.get, hcell] at httl
      exact absurd httl (by decide)

theorem tickThread (h : Lifetime pcbs s) {i j k : Nat} (hleft : TtlLeft s (.slot i j k)) :
    Lifetime pcbs (LocOS.tickThread i j k s) := by
  have href := h.references.tickThread i j k
  rcases tickThread_cases i j k s with
    ⟨_, he⟩ | ⟨core, hw, p, _, _, he⟩ | ⟨core, hw, p, pm, base, hslot, hpm, hst, hbase, he⟩
  · rwa [he]
  · rw [he] at href ⊢
    exact h.keep href (spends_age _ _ p) (.inl rfl)
  · obtain ⟨hcore, hk, hp⟩ := Machine.slot?_eq_some.mp hslot
    have hne : hw.ptbr ≠ none := by
      rw [hbase]
      exact Option.some_ne_none _
    have hpos := hleft p _ (Sys.cycle?_eq_some.mpr ⟨core, hw, pm, hslot, hpm, rfl⟩)
      ⟨hp, hst, hne⟩
    have hlive := live_of_ttl hpos
    -- only a loaded process has a page table
    have hloaded : p < pcbs.length := by
      by_contra hge
      exact hne (h.references.core hcore hw (List.mem_of_getElem? hk) p hp (Nat.le_of_not_lt hge))
    have hget := List.getElem?_eq_getElem hloaded
    rw [he] at href ⊢
    have hexecutes := spends_executeInstruction pcbs.length (fetched (s.exec hw pm p) p) p
      (fetch (s.exec hw pm p))
    have hpid : ((s.pcbs.age p).get p).pid = pcbs[p].pid := by
      rw [PcbHeap.age, PcbHeap.get_set_self hlive, PCB.decrementTtl_pid]
      exact h.pid p _ hget hlive
    have hlog : (s.absorb i j k core (executeInstruction (fetched (s.exec hw pm p) p) p
        (fetch (s.exec hw pm p)))).log =
        s.log ++ [.exec p pcbs[p].pid (fetch (s.exec hw pm p))] := by
      show (executeInstruction _ _ _).log = _
      rw [executeInstruction_log, ← hpid]
      rfl
    refine h.pay href ((spends_age _ _ p).trans hexecutes) hget hlog ?_
    have haged : ((s.pcbs.age p).get p).ttl.toNat = (s.pcbs.get p).ttl.toNat - 1 := by
      rw [PcbHeap.age, PcbHeap.get_set_self hlive, decrementTtl_toNat]
    have hspent := hexecutes.ttl p hloaded
    have hsame : (fetched (s.exec hw pm p) p).pcbs = s.pcbs.age p := rfl
    rw [hsame, haged] at hspent
    show ((executeInstruction (fetched (s.exec hw pm p) p) p
      (fetch (s.exec hw pm p))).pcbs.get p).ttl.toNat < _
    omega

theorem micro (h : Lifetime pcbs s) {a : MicroAction} (hleft : TtlLeft s a) :
    Lifetime pcbs (s.micro a) := by
  cases a with
  | count => exact h.keep h.references (.refl _ _) (.inr ⟨_, rfl, id⟩)
  | slot i j k => exact h.tickThread hleft
  | pass => exact (passKeeps pcbs).schedulerPass h

theorem boot {cfg : Config} (hb : Booted cfg pcbs s) (hidle : cfg.machine.Idle)
    (httl : ∀ pcb ∈ pcbs, pcb.ttl = pcb.initialTtl) : Lifetime pcbs s where
  references := by
    refine ⟨fun _ _ => rfl, fun p hp => ?_, fun core hcore hw hmem p hp => ?_⟩
    · have hnone : pcbs[p]? = none := List.getElem?_eq_none hp
      simp only [hb.heap, PcbHeap.get, bootHeap, hnone]
      rfl
    · obtain ⟨k, hk⟩ := List.getElem?_of_mem hmem
      rw [hb.machine] at hcore
      rw [(hidle core hcore).slot k hw hk] at hp
      simp at hp
  next := by
    rw [hb.heap]
    exact Nat.le_refl _
  pid := by
    intro p pcb hp _
    rw [hb.heap, get_bootHeap hp]
  ttl := by
    intro p pcb hp
    rw [hb.log, hb.heap, get_bootHeap hp, httl pcb (List.mem_of_getElem? hp)]
    simp [execCount]
  events := by
    intro p pid instruction hmem
    rw [hb.log] at hmem
    cases hmem

/-- A PID is that of one loaded process. -/
theorem executions_eq (h : Lifetime pcbs s) (hnd : (pcbs.map PCB.pid).Nodup) {p : PcbPtr}
    {pcb : PCB} (hp : pcbs[p]? = some pcb) : executions s.log pcb.pid = execCount s.log p := by
  refine List.countP_congr fun e he => ?_
  cases e with
  | exec q pid instruction =>
      obtain ⟨pcb', hq, rfl⟩ := h.events q pid instruction he
      simp only [decide_eq_true_eq]
      constructor
      · intro hpid
        have hmap : (pcbs.map PCB.pid)[q]? = (pcbs.map PCB.pid)[p]? := by
          simp [hq, hp, hpid]
        have hlt : q < (pcbs.map PCB.pid).length := by
          rw [List.length_map]
          exact (List.getElem?_eq_some_iff.mp hq).1
        exact List.getElem?_inj hlt hnd |>.mp hmap
      · intro hqp
        rw [hqp] at hq
        rw [Option.some.inj (hq.symm.trans hp)]
  | _ => rfl

theorem ttlBound (h : Lifetime pcbs s) (hnd : (pcbs.map PCB.pid).Nodup) :
    TtlBound pcbs s.log := by
  intro pid hpos
  obtain ⟨e, he, hpid⟩ := List.countP_pos_iff.mp hpos
  cases e with
  | exec q pid' instruction =>
      obtain ⟨pcb, hq, rfl⟩ := h.events q pid' instruction he
      obtain rfl : pcb.pid = pid := of_decide_eq_true hpid
      refine ⟨pcb, List.mem_of_getElem? hq, rfl, ?_⟩
      rw [h.executions_eq hnd hq]
      have hspent := h.ttl q pcb hq
      omega
  | _ => cases hpid

end Lifetime

theorem loadedPcbs_ttl {cfg : Config} {programs : List Program} :
    ∀ pcb ∈ loadedPcbs cfg programs, pcb.ttl = pcb.initialTtl := by
  intro pcb hmem
  obtain ⟨p, hp⟩ := List.getElem?_of_mem hmem
  obtain ⟨program, pid, base, _, rfl, _⟩ := loadedPcbs_getElem? hp
  rfl

end LocOS
