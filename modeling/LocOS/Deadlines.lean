import LocOS.BfsQueue
import LocOS.Startup

/-!
# Deadlines

The virtual deadlines of BFS, against the documented formula: the tick at
which a process entered `ready_queue`, plus a hundredth of quantum times
priority. A quantum expiry computes it. Loading does not: a loaded process
waits with the 0 of `create_pcb`, and the dispatch that computes its deadline
has selected it already.
-/

namespace LocOS

open scoped List

/-! ## Entering `ready_queue` -/

/-- `clk_counter`, and its value when `p` last entered `ready_queue`. -/
structure Entry where
  clkCounter : Int
  entered : Int

/-- Besides loading, a process enters when its quantum expires, and when no
core took it. -/
def Entry.record (p : PcbPtr) (entry : Entry) : Event → Entry
  | .tick clkCounter => { entry with clkCounter }
  | .expired q _ true =>
      { entry with entered := if q = p then entry.clkCounter else entry.entered }
  | .putBack q _ true =>
      { entry with entered := if q = p then entry.clkCounter else entry.entered }
  | _ => entry

/-- The record after a log that starts at clock value `started`, when loading
put `p` on the queue at `loadTick p`. -/
def entryOf (started : Int) (loadTick : PcbPtr → Int) (log : List Event) (p : PcbPtr) : Entry :=
  log.foldl (Entry.record p) { clkCounter := started, entered := loadTick p }

@[simp] theorem entryOf_append (started : Int) (loadTick : PcbPtr → Int) (log : List Event)
    (e : Event) (p : PcbPtr) :
    entryOf started loadTick (log ++ [e]) p =
      (entryOf started loadTick log p).record p e := by
  rw [entryOf, List.foldl_append]
  rfl

/-- The documented deadline of a process that entered at `entered p`. -/
def Sys.documentedDeadline (s : Sys) (entered : PcbPtr → Int) (p : PcbPtr) : Int :=
  bfsDeadline s.sched (entered p) (s.pcbs.get p).priority

/-- The deadlines of the waiting processes are the documented ones, and the
selection goes by them. -/
structure FollowsFormula (entered : PcbPtr → Int) (s : Sys) : Prop where
  formula : ∀ p ∈ s.sched.readyQueue.toList,
    (s.pcbs.get p).virtualDeadline = s.documentedDeadline entered p
  order : ∀ (p : PcbPtr) (sched : Scheduler),
    selectNextProcess s.sched s.pcbs = some (p, sched) →
      ∀ q ∈ s.sched.readyQueue.toList,
        s.documentedDeadline entered p ≤ s.documentedDeadline entered q

/-! ## The runs -/

/-- The runs in which the scheduler starts at clock value `started`: the clock
runs while `main` loads. -/
def startedRuns (cfg : Config) (programs : List Program) (started : Int) : Runs Sys Action where
  init s := ∃ sys, boot (cfg.load programs) (loadedPcbs cfg programs) = some sys ∧
    s = { sys with clkCounter := started }
  step s a t := t = s.next a

theorem restricted_started {cfg : Config} {programs : List Program} {started : Int}
    {ok : Sys → Action → Prop} {s : Sys}
    (h : ((startedRuns cfg programs started).restrict ok).Reachable s) (a : Action)
    (hok : ok s a) : ((startedRuns cfg programs started).restrict ok).Reachable (s.next a) :=
  h.step ⟨hok, rfl⟩

/-- The next selection of the dispatch loop fits, if it makes one. -/
def Sys.DispatchFits (s : Sys) : Prop :=
  canCpuExecuteProcess s.machine = true → s.sched.SelectionFits s.pcbs

/-- Every removal of a pass fits. After `m` dispatches the pass is in
`dispatchReady m (scanMachine s)`. -/
def RemovalsFit (s : Sys) : Action → Prop
  | .tick => True
  | .pass => ∀ m, m < (scanMachine s).sched.waitingCount →
      (dispatchReady m (scanMachine s)).DispatchFits

instance (s : Sys) : Decidable (RemovalsFit s .pass) :=
  inferInstanceAs (Decidable (∀ m, m < (scanMachine s).sched.waitingCount →
    canCpuExecuteProcess (dispatchReady m (scanMachine s)).machine = true →
    (dispatchReady m (scanMachine s)).sched.SelectionFits
      (dispatchReady m (scanMachine s)).pcbs))

/-- The rule of the dispatch loop under BFS: what every dispatch keeps, it
keeps, when its removals fit. -/
theorem dispatchReady_bfs {P : Sys → Prop} (hwf : ∀ s, P s → s.sched.WF)
    (hpol : ∀ s, P s → s.sched.policy = .bfs)
    (hstep : ∀ (s : Sys) (p : PcbPtr) (sched : Scheduler) (i j : Nat) (core : Core), P s →
      s.machine.core? i j = some core → core.hasSpace = true → sched.WF →
      Scheduler.SameConfig s.sched sched → s.sched.waiting ~ p :: sched.waiting →
      P (s.dispatched sched p i j core))
    (n : Nat) {s : Sys} (h : P s)
    (hfits : ∀ m, m < n → (dispatchReady m s).DispatchFits) : P (dispatchReady n s) := by
  induction n generalizing s with
  | zero => exact h
  | succ n ih =>
      rcases dispatchReady_selected fun hready hcan => Scheduler.selectNextProcess_bfs (hwf s h)
          (hpol s h) s.pcbs (hfits 0 (Nat.succ_pos n) hcan) hready with
        ⟨_, he⟩ | ⟨p, sched, i, j, core, hcore, hspace, hwf', hsame, hperm, _, he⟩
      · rwa [he n]
      · rw [he n]
        refine ih (hstep s p sched i j core h hcore hspace hwf' hsame hperm) fun m hm => ?_
        rw [← he m]
        exact hfits (m + 1) (Nat.succ_lt_succ hm)

/-! ## The invariant -/

/-- What every state of such a run satisfies. -/
structure Deadlines (pids : List Int) (started : Int) (loadTick : PcbPtr → Int) (s : Sys) :
    Prop where
  conserved : Conserved pids s
  policy : s.sched.policy = .bfs
  noLevels : s.sched.priorityQueues = []
  clock : ∀ p, (entryOf started loadTick s.log p).clkCounter = s.clkCounter
  late : started ≤ s.clkCounter
  formula : ∀ p ∈ s.waiting, (s.pcbs.get p).virtualDeadline =
    s.documentedDeadline (fun q => (entryOf started loadTick s.log q).entered) p
  /-- From now on no deadline is negative. -/
  floor : ∀ p ∈ s.places, 0 ≤ bfsDeadline s.sched started (s.pcbs.get p).priority
  nonneg : ∀ p ∈ s.waiting, 0 ≤ (s.pcbs.get p).virtualDeadline

namespace Deadlines

variable {pids : List Int} {started : Int} {loadTick : PcbPtr → Int} {s : Sys}

theorem waiting_eq (h : Deadlines pids started loadTick s) :
    s.waiting = s.sched.readyQueue.toList := by
  simp [Sys.waiting, Scheduler.waiting, h.noLevels]

/-- A step that keeps the clock, in which every process that waits afterwards
waited before with the same record and deadline, or entered just now with a
new deadline. -/
theorem step (h : Deadlines pids started loadTick s) {s' : Sys} (hcons : Conserved pids s')
    (hquantum : s'.sched.quantum = s.sched.quantum) (hpol : s'.sched.policy = s.sched.policy)
    (hlevels : s'.sched.priorityQueues = []) (hclk : s'.clkCounter = s.clkCounter)
    (hclock : ∀ p, (entryOf started loadTick s'.log p).clkCounter =
      (entryOf started loadTick s.log p).clkCounter)
    (hplaces : ∀ p ∈ s'.places, p ∈ s.places ∧
      (s'.pcbs.get p).priority = (s.pcbs.get p).priority)
    (hwait : ∀ p ∈ s'.waiting,
      (p ∈ s.waiting ∧ (s'.pcbs.get p).virtualDeadline = (s.pcbs.get p).virtualDeadline ∧
        (entryOf started loadTick s'.log p).entered = (entryOf started loadTick s.log p).entered) ∨
      ((entryOf started loadTick s'.log p).entered = s.clkCounter ∧
        (s'.pcbs.get p).virtualDeadline =
          bfsDeadline s.sched s.clkCounter (s.pcbs.get p).priority)) :
    Deadlines pids started loadTick s' := by
  have hdeadline : ∀ clk priority, bfsDeadline s'.sched clk priority =
      bfsDeadline s.sched clk priority := by
    intro clk priority
    rw [bfsDeadline, bfsDeadline, hquantum]
  have hprio : ∀ p ∈ s'.waiting, (s'.pcbs.get p).priority = (s.pcbs.get p).priority := fun p hp =>
    (hplaces p (List.mem_append_right _ hp)).2
  refine ⟨hcons, hpol.trans h.policy, hlevels, fun p => ?_, ?_, fun p hp => ?_, fun p hp => ?_,
    fun p hp => ?_⟩
  · rw [hclock, hclk]
    exact h.clock p
  · rw [hclk]
    exact h.late
  · rw [Sys.documentedDeadline, hdeadline, hprio p hp]
    rcases hwait p hp with ⟨hp, hsame, hentry⟩ | ⟨hentry, hnew⟩
    · rw [hsame, hentry]
      exact h.formula p hp
    · rw [hnew, hentry]
  · obtain ⟨hp, hprio⟩ := hplaces p hp
    rw [hdeadline, hprio]
    exact h.floor p hp
  · rcases hwait p hp with ⟨hp, hsame, _⟩ | ⟨_, hnew⟩
    · rw [hsame]
      exact h.nonneg p hp
    · have hfloor := h.floor p (hplaces p (List.mem_append_right _ hp)).1
      have hlate := h.late
      rw [hnew]
      unfold bfsDeadline at hfloor ⊢
      omega

theorem noLevels_of (h : Deadlines pids started loadTick s) {sched : Scheduler}
    (hsame : Scheduler.SameConfig s.sched sched) : sched.priorityQueues = [] := by
  have hcaps := hsame.levelCapacity
  rw [h.noLevels] at hcaps
  exact List.map_eq_nil_iff.mp hcaps

theorem tickEvent (h : Deadlines pids started loadTick s) :
    Deadlines pids started loadTick { s with
      clkCounter := s.clkCounter + 1
      log := s.log ++ [Event.tick (s.clkCounter + 1)] } := by
  have hcons := h.conserved
  have hlate := h.late
  refine ⟨hcons.tickEvent, h.policy, h.noLevels, fun p => ?_, ?_, fun p hp => ?_, h.floor,
    h.nonneg⟩
  · rw [entryOf_append]
    rfl
  · show started ≤ s.clkCounter + 1
    omega
  · simp only [entryOf_append]
    exact h.formula p hp

theorem tickThread (h : Deadlines pids started loadTick s) (hc : s.machine.Compact)
    (i j k : Nat) : Deadlines pids started loadTick (tickThread i j k s) := by
  have hcons := h.conserved.tickThread hc i j k
  have hrun := (tickThread_machine hc i j k).2
  have hprio := tickThread_field PCB.priority PCB.decrementTtl_priority (fun _ _ => rfl) i j k s
  have hdeadline := tickThread_field PCB.virtualDeadline PCB.decrementTtl_virtualDeadline
    (fun _ _ => rfl) i j k s
  have hkept : (LocOS.tickThread i j k s).sched = s.sched ∧
      (LocOS.tickThread i j k s).clkCounter = s.clkCounter ∧
      ∀ p, entryOf started loadTick (LocOS.tickThread i j k s).log p =
        entryOf started loadTick s.log p := by
    rcases tickThread_cases i j k s with
      ⟨_, he⟩ | ⟨core, hw, p, _, _, he⟩ | ⟨core, hw, p, pm, base, _, _, _, _, he⟩
    · rw [he]
      exact ⟨rfl, rfl, fun _ => rfl⟩
    · rw [he]
      exact ⟨rfl, rfl, fun _ => rfl⟩
    · rw [he]
      refine ⟨rfl, rfl, fun p => ?_⟩
      show entryOf started loadTick (executeInstruction _ _ _).log p = _
      rw [executeInstruction_log, fetched, entryOf_append]
      rfl
  obtain ⟨hsched, hclk, hentry⟩ := hkept
  have hplaces : (LocOS.tickThread i j k s).places = s.places := by
    rw [Sys.places, Sys.places, Sys.running, Sys.running, Sys.waiting, Sys.waiting, hrun, hsched]
  refine h.step hcons (by rw [hsched]) (by rw [hsched]) (by rw [hsched, h.noLevels]) hclk
    (fun p => by rw [hentry]) (fun p hp => ?_)
    fun p hp => .inl ?_
  · rw [hplaces] at hp
    exact ⟨hp, hprio p⟩
  · rw [Sys.waiting, hsched] at hp
    exact ⟨hp, hdeadline p, by rw [hentry]⟩

theorem charge (h : Deadlines pids started loadTick s) (p : PcbPtr) :
    Deadlines pids started loadTick (s.charge p) := by
  have hfield : ∀ {α : Type} (f : PCB → α), (∀ pcb : PCB, f pcb.charge = f pcb) →
      ∀ q, f ((s.charge p).pcbs.get q) = f (s.pcbs.get q) := fun f hf q =>
    PcbHeap.get_set_congr f s.pcbs (hf _) q
  exact h.step (h.conserved.charge p) rfl rfl h.noLevels rfl (fun _ => rfl)
    (fun q hq => ⟨hq, hfield PCB.priority (fun _ => rfl) q⟩)
    fun q hq => .inl ⟨hq, hfield PCB.virtualDeadline (fun _ => rfl) q, rfl⟩

theorem completeThread (h : Deadlines pids started loadTick s) (hnd : pids.Nodup)
    (hc : s.machine.Compact) {i j k : Nat} {core : Core} {hw : HardwareThread} {p : PcbPtr}
    (hslot : s.machine.slot? i j k = some (core, hw, p)) :
    Deadlines pids started loadTick (completeThread i j k core p s) := by
  have hplaces : s.places ~ p :: (LocOS.completeThread i j k core p s).places :=
    (Machine.running_removeThread_perm hc hslot).append_right s.waiting
  have hother : ∀ q ∈ (LocOS.completeThread i j k core p s).places,
      q ∈ s.places ∧ (LocOS.completeThread i j k core p s).pcbs.get q = s.pcbs.get q := by
    intro q hq
    have hne : q ≠ p := by
      rintro rfl
      exact (List.nodup_cons.mp (hplaces.nodup_iff.mp (h.conserved.nodup hnd))).1 hq
    exact ⟨hplaces.mem_iff.mpr (List.mem_cons_of_mem p hq), PcbHeap.get_destroyPcb_ne _ hne⟩
  refine h.step (h.conserved.completeThread hnd hc hslot) rfl rfl h.noLevels rfl (fun q => ?_)
    (fun q hq => ⟨(hother q hq).1, by rw [(hother q hq).2]⟩)
    fun q hq => .inl ⟨hq, by rw [(hother q (List.mem_append_right _ hq)).2], ?_⟩
  · simp [LocOS.completeThread, Entry.record]
  · simp [LocOS.completeThread, Entry.record]

/-- The expiry computes the deadline that the formula asks for. -/
theorem expireThread (h : Deadlines pids started loadTick s) (hnd : pids.Nodup)
    (hc : s.machine.Compact) {i j k : Nat} {core : Core} {hw : HardwareThread} {p : PcbPtr}
    (hslot : s.machine.slot? i j k = some (core, hw, p)) :
    Deadlines pids started loadTick (expireThread i j k core hw p s) := by
  have hcons := h.conserved.expireThread hc hslot
  have hpr := Machine.mem_running_of_slot hc hslot
  have hpl := h.conserved.live p (List.mem_append_left _ hpr)
  have hrun := Machine.running_removeThread_perm hc hslot
  have hne : ∀ q ∈ s.waiting, q ≠ p := by
    rintro q hq rfl
    exact List.disjoint_of_nodup_append (h.conserved.nodup hnd) hpr hq
  have hprio : ∀ q, ((s.pcbs.set p (expiredPcb s hw p)).get q).priority =
      (s.pcbs.get q).priority :=
    PcbHeap.get_set_congr PCB.priority s.pcbs (expiredPcb_priority ..)
  have hdeadline : ∀ q, q ≠ p → ((s.pcbs.set p (expiredPcb s hw p)).get q).virtualDeadline =
      (s.pcbs.get q).virtualDeadline := fun q hq => by rw [PcbHeap.get_set_ne _ hq]
  rcases expireThread_cases h.conserved.queues i j k core hw p with
    ⟨sched, _, _, hsame, hperm, he⟩ | ⟨_, he⟩
  · rw [he] at hcons ⊢
    refine h.step hcons hsame.quantum hsame.policy (h.noLevels_of hsame) rfl (fun q => ?_)
      (fun q hq => ⟨?_, hprio q⟩) fun q hq => ?_
    · simp [Entry.record]
    · rcases List.mem_append.mp hq with hq | hq
      · exact List.mem_append_left _ (hrun.mem_iff.mpr (List.mem_cons_of_mem p hq))
      · rcases List.mem_cons.mp (hperm.mem_iff.mp hq) with rfl | hq
        · exact List.mem_append_left _ hpr
        · exact List.mem_append_right _ hq
    · rcases List.mem_cons.mp (hperm.mem_iff.mp hq) with rfl | hq
      · refine .inr ⟨?_, ?_⟩
        · simp [Entry.record, h.clock]
        · show ((s.pcbs.set q (expiredPcb s hw q)).get q).virtualDeadline = _
          rw [PcbHeap.get_set_self hpl, expiredPcb, if_pos h.policy]
          rfl
      · refine .inl ⟨hq, hdeadline q (hne q hq), ?_⟩
        simp [Entry.record, (hne q hq).symm]
  -- refused: the process is nowhere any more
  · rw [he] at hcons ⊢
    refine h.step hcons rfl rfl h.noLevels rfl (fun q => ?_) (fun q hq => ⟨?_, hprio q⟩)
      fun q hq => .inl ⟨hq, hdeadline q (hne q hq), ?_⟩
    · simp [Entry.record]
    · rcases List.mem_append.mp hq with hq | hq
      · exact List.mem_append_left _ (hrun.mem_iff.mpr (List.mem_cons_of_mem p hq))
      · exact List.mem_append_right _ hq
    · simp [Entry.record]

theorem scanThread (h : Deadlines pids started loadTick s) (hnd : pids.Nodup)
    (hc : s.machine.Compact) {i j k : Nat} {core : Core} {hw : HardwareThread} {p : PcbPtr}
    (hslot : s.machine.slot? i j k = some (core, hw, p)) :
    Deadlines pids started loadTick (scanThread i j k s) := by
  have hcharged := h.charge p
  rcases scanThread_cases hslot with ⟨_, he⟩ | ⟨_, _, he⟩ | ⟨_, _, he⟩
  · rw [he]
    exact hcharged.completeThread hnd hc hslot
  · rw [he]
    exact hcharged.expireThread hnd hc hslot
  · rw [he]
    exact hcharged

theorem dispatched (h : Deadlines pids started loadTick s) (hnd : pids.Nodup)
    (hc : s.machine.Compact) {p : PcbPtr} {sched : Scheduler} {i j : Nat} {core : Core}
    (hcore : s.machine.core? i j = some core) (hspace : core.hasSpace = true) (hwf : sched.WF)
    (hsame : Scheduler.SameConfig s.sched sched) (hperm : s.sched.waiting ~ p :: sched.waiting) :
    Deadlines pids started loadTick (s.dispatched sched p i j core) := by
  have hplaces := s.places_dispatched hc.counted hcore hspace hperm
  have hwaiting := hperm.nodup_iff.mp ((h.conserved.nodup hnd).of_append_right)
  refine h.step (h.conserved.dispatched hc.counted hcore hspace hwf hsame hperm) hsame.quantum
    hsame.policy (h.noLevels_of hsame) rfl (fun q => ?_)
    (fun q hq => ⟨hplaces.mem_iff.mpr hq, ?_⟩) fun q hq => .inl
      ⟨hperm.mem_iff.mpr (List.mem_cons_of_mem p hq), ?_, ?_⟩
  · simp [Sys.dispatched, Entry.record]
  · exact PcbHeap.get_set_congr PCB.priority s.pcbs (PCB.start_priority ..) q
  -- only the deadline of the process that leaves the queue is written
  · have hne : q ≠ p := by
      rintro rfl
      exact (List.nodup_cons.mp hwaiting).1 hq
    show ((s.started sched p).get q).virtualDeadline = _
    rw [Sys.started, PcbHeap.get_set_ne _ hne]
  · simp [Sys.dispatched, Entry.record]

theorem schedulerPass (h : Deadlines pids started loadTick s) (hnd : pids.Nodup)
    (hc : s.machine.Compact) (hfits : RemovalsFit s .pass) :
    Deadlines pids started loadTick (schedulerPass s) ∧
      (LocOS.schedulerPass s).machine.Compact := by
  obtain ⟨hscan, hcompact⟩ := scanMachine_inv (fun _ t => Deadlines pids started loadTick t)
    (fun _ _ _ _ _ _ _ _ hct hslot ht => ht.scanThread hnd hct hslot) hc h
  rw [schedulerPass_noTransfer (by rw [hscan.policy]; decide)]
  exact dispatchReady_bfs (P := fun t => Deadlines pids started loadTick t ∧ t.machine.Compact)
    (fun t ht => ht.1.conserved.queues) (fun t ht => ht.1.policy)
    (fun t p sched i j core ht hcore hspace hwf hsame hperm =>
      ⟨ht.1.dispatched hnd ht.2 hcore hspace hwf hsame hperm,
        ht.2.setCore hcore ((ht.2.core hcore).assign hspace p _)⟩)
    _ ⟨hscan, hcompact⟩ hfits

theorem next (h : Deadlines pids started loadTick s) (hnd : pids.Nodup)
    (hc : s.machine.Compact) (a : Action) (hok : RemovalsFit s a) :
    Deadlines pids started loadTick (s.next a) ∧ (s.next a).machine.Compact := by
  cases a with
  | tick =>
      exact clockTick_inv (fun t => Deadlines pids started loadTick t ∧ t.machine.Compact)
        ⟨h.tickEvent, hc⟩ fun i j k t ht =>
          ⟨ht.1.tickThread ht.2 i j k, (tickThread_machine ht.2 i j k).1⟩
  | pass => exact h.schedulerPass hnd hc hok

/-- In a state of the invariant the selection goes by the formula. -/
theorem follows (h : Deadlines pids started loadTick s) :
    FollowsFormula (fun p => (entryOf started loadTick s.log p).entered) s := by
  have hformula : ∀ p ∈ s.sched.readyQueue.toList, (s.pcbs.get p).virtualDeadline =
      s.documentedDeadline (fun q => (entryOf started loadTick s.log q).entered) p := fun p hp =>
    h.formula p (h.waiting_eq ▸ hp)
  refine ⟨hformula, fun p sched hsel q hq => ?_⟩
  have hready : hasReadyProcesses s.sched = true := by
    rw [Scheduler.hasReadyProcesses_iff, if_neg (by rw [h.policy]; decide),
      ← ProcessQueue.length_toList]
    exact List.length_pos_of_mem hq
  obtain ⟨i, hi, _, hsel', hleast⟩ :=
    Scheduler.selectNextProcess_position h.conserved.queues h.policy s.pcbs hready
  obtain ⟨rfl, rfl⟩ := Prod.mk.inj (Option.some.inj (hsel.symm.trans hsel'))
  have hp : s.sched.readyQueue.queue (s.sched.readyQueue.slotAt i) ∈
      s.sched.readyQueue.toList := by
    rw [ProcessQueue.toList_eq]
    exact List.mem_map_of_mem (List.mem_range.mpr hi)
  rw [← hformula _ hp, ← hformula q hq]
  exact hleast (fun r hr => h.nonneg r (h.waiting_eq ▸ hr)) q hq

end Deadlines

/-! ## The law -/

/-- For every loaded process the deadline of 0 is the documented one: the
priority makes up for the tick at which it was loaded. -/
def ZeroDeadlines (cfg : Config) (programs : List Program) (loadTick : PcbPtr → Int) : Prop :=
  ∀ p pcb, (loadedPcbs cfg programs)[p]? = some pcb →
    loadTick p + (cfg.quantum * pcb.priority).tdiv 100 = 0

section
variable {cfg : Config} {programs : List Program} {started : Int} {loadTick : PcbPtr → Int}
  {sys : Sys}

theorem Deadlines.boot (hpol : cfg.policy = .bfs) (hidle : cfg.machine.Idle)
    (hticks : ∀ p, p < (loadedPcbs cfg programs).length → loadTick p ≤ started)
    (hzero : ZeroDeadlines cfg programs loadTick)
    (hboot : LocOS.boot (cfg.load programs) (loadedPcbs cfg programs) = some sys) :
    Deadlines ((loadedPcbs cfg programs).map PCB.pid) started loadTick
      { sys with clkCounter := started } := by
  have hb := boot_spec hboot
  have hcons := hb.conserved hidle
  have hplaces : sys.places = List.range (loadedPcbs cfg programs).length := by
    rw [Sys.places, Sys.running, hb.machine, show (cfg.load programs).machine.running = [] from
      hidle.running, hb.waiting, List.nil_append]
  have hloaded : ∀ p ∈ sys.places, (sys.pcbs.get p).virtualDeadline = 0 ∧ loadTick p ≤ started ∧
      bfsDeadline sys.sched (loadTick p) (sys.pcbs.get p).priority = 0 := by
    intro p hp
    have hlt : p < (loadedPcbs cfg programs).length := by
      rw [hplaces] at hp
      exact List.mem_range.mp hp
    have hget := List.getElem?_eq_getElem hlt
    obtain ⟨program, pid, base, _, hpcb, _⟩ := loadedPcbs_getElem? hget
    rw [hb.heap, get_bootHeap hget, bfsDeadline, hb.quantum]
    exact ⟨by rw [hpcb]; rfl, hticks p hlt, hzero p _ hget⟩
  refine ⟨hcons.stay hcons.queues (.refl _) (fun q hq => .refl (hcons.live q hq)) hcons.fresh rfl
    rfl rfl, hb.policy.trans hpol, ?_, fun p => ?_, Int.le_refl _, fun p hp => ?_, fun p hp => ?_,
    fun p hp => ?_⟩
  · show sys.sched.priorityQueues = []
    rw [hb.levels, if_neg (by rw [show (cfg.load programs).policy = .bfs from hpol]; decide)]
  · rw [hb.log]
    rfl
  · obtain ⟨hdeadline, _, hzero⟩ := hloaded p (List.mem_append_right _ hp)
    rw [hb.log]
    exact hdeadline.trans hzero.symm
  · obtain ⟨_, hle, hzero⟩ := hloaded p hp
    show 0 ≤ bfsDeadline sys.sched started (sys.pcbs.get p).priority
    unfold bfsDeadline at hzero ⊢
    omega
  · obtain ⟨hdeadline, _⟩ := hloaded p (List.mem_append_right _ hp)
    exact Int.le_of_eq hdeadline.symm

/-- The deadlines follow the formula, for any machine, load ticks and
interleaving of ticks and passes whose removals fit, exactly when the formula
gives every loaded process the deadline 0. -/
theorem bfs_deadlines (hpol : cfg.policy = .bfs) (hidle : cfg.machine.Idle)
    (hticks : ∀ p, p < (loadedPcbs cfg programs).length → loadTick p ≤ started)
    (hboot : boot (cfg.load programs) (loadedPcbs cfg programs) = some sys) :
    (∀ s, ((startedRuns cfg programs started).restrict RemovalsFit).Reachable s →
      FollowsFormula (fun p => (entryOf started loadTick s.log p).entered) s) ↔
    ZeroDeadlines cfg programs loadTick := by
  constructor
  -- the state the scheduler starts in decides it
  · intro h p pcb hget
    have hb := boot_spec hboot
    have hfirst := (h _ (.init ⟨sys, hboot, rfl⟩)).formula p (by
      show p ∈ sys.sched.readyQueue.toList
      rw [hb.readyList]
      exact List.mem_range.mpr (List.getElem?_eq_some_iff.mp hget).1)
    obtain ⟨program, pid, base, _, hpcb, _⟩ := loadedPcbs_getElem? hget
    have hdeadline : (sys.pcbs.get p).virtualDeadline = 0 := by
      rw [hb.heap, get_bootHeap hget, hpcb]
      rfl
    have hformula : (sys.pcbs.get p).virtualDeadline =
        loadTick p + (cfg.quantum * pcb.priority).tdiv 100 := by
      rw [← get_bootHeap hget, ← hb.heap, ← show sys.sched.quantum = cfg.quantum from hb.quantum]
      simp only [hb.log] at hfirst
      exact hfirst
    exact hformula.symm.trans hdeadline
  · intro hzero s hs
    have h : Deadlines ((loadedPcbs cfg programs).map PCB.pid) started loadTick s ∧
        s.machine.Compact := by
      refine hs.invariant (fun s => Deadlines ((loadedPcbs cfg programs).map PCB.pid) started
        loadTick s ∧ s.machine.Compact) ?_ ?_
      · rintro s ⟨sys, hboot, rfl⟩
        refine ⟨.boot hpol hidle hticks hzero hboot, ?_⟩
        show sys.machine.Compact
        rw [(boot_spec hboot).machine]
        exact hidle.compact
      · rintro s a t ⟨h, hc⟩ ⟨hok, rfl⟩
        exact h.next (loadedPcbs_nodup cfg programs) hc a hok
    exact h.1.follows

end

/-- A process of low and one of high priority, loaded in this order. -/
def lowThenHigh : List Program :=
  [{ oneInstruction 0x20000000#32 with priority := 19 },
    { oneInstruction 0x20000000#32 with priority := BitVec.ofInt 32 (-20) }]

/-- With a quantum of 1 no priority makes a difference. The first process is
back in `ready_queue` one tick after the scheduler started at 3. -/
theorem bfs_deadlines_quantum_one : (oneCore 1 .bfs 1).machine.Idle ∧
    ∃ s, ((startedRuns (oneCore 1 .bfs 1) lowThenHigh 3).restrict RemovalsFit).Reachable s ∧
      s.sched.readyQueue.toList = [0] ∧ (s.pcbs.get 0).virtualDeadline = 4 ∧
      FollowsFormula (fun p => (entryOf 3 (fun _ => 0) s.log p).entered) s := by
  have hrun : (boot ((oneCore 1 .bfs 1).load lowThenHigh)
      (loadedPcbs (oneCore 1 .bfs 1) lowThenHigh)).any (fun sys =>
        let ticked := (Sys.next { sys with clkCounter := 3 } .pass).next .tick
        decide (RemovalsFit { sys with clkCounter := 3 } .pass) &&
          decide (RemovalsFit ticked .pass) &&
          decide ((ticked.next .pass).sched.readyQueue.toList = [0]) &&
          decide (((ticked.next .pass).pcbs.get 0).virtualDeadline = 4)) = true := by
    decide +kernel
  obtain ⟨sys, hsys, hcheck⟩ := (Option.any_eq_true ..).mp hrun
  simp only [Bool.and_eq_true, decide_eq_true_eq] at hcheck
  obtain ⟨⟨⟨hfirst, hsecond⟩, hready⟩, hdeadline⟩ := hcheck
  have hstart := Runs.Reachable.init
    (S := (startedRuns (oneCore 1 .bfs 1) lowThenHigh 3).restrict RemovalsFit) ⟨sys, hsys, rfl⟩
  have hticked := restricted_started (restricted_started hstart .pass hfirst) .tick trivial
  have hreach := restricted_started hticked .pass hsecond
  have hoffsets : ∀ pcb ∈ loadedPcbs (oneCore 1 .bfs 1) lowThenHigh,
      ((oneCore 1 .bfs 1).quantum * pcb.priority).tdiv 100 = 0 := by
    decide +kernel
  have hzero : ZeroDeadlines (oneCore 1 .bfs 1) lowThenHigh fun _ => 0 := by
    intro p pcb hget
    rw [hoffsets pcb (List.mem_of_getElem? hget)]
    rfl
  exact ⟨Machine.createMachine_idle 1 1 1, _, hreach, hready, hdeadline,
    (bfs_deadlines rfl (Machine.createMachine_idle 1 1 1) (fun _ _ => by decide) hsys).mpr hzero _
      hreach⟩

/-- With a quantum of 10 the second process should have deadline -2, and be
selected first. It waits with deadline 0 behind the first. -/
theorem bfs_deadlines_first_dispatch :
    ∃ s, (startedRuns (oneCore 1 .bfs 10) lowThenHigh 0).Reachable s ∧
      ¬ FollowsFormula (fun p => (entryOf 0 (fun _ => 0) s.log p).entered) s := by
  have hrun : (boot ((oneCore 1 .bfs 10).load lowThenHigh)
      (loadedPcbs (oneCore 1 .bfs 10) lowThenHigh)).any (fun s =>
        decide (1 ∈ s.sched.readyQueue.toList) &&
          decide ((s.pcbs.get 1).virtualDeadline = 0) &&
          decide (s.documentedDeadline
            (fun p => (entryOf 0 (fun _ => 0) s.log p).entered) 1 = -2)) = true := by
    decide +kernel
  obtain ⟨s, hs, hcheck⟩ := (Option.any_eq_true ..).mp hrun
  simp only [Bool.and_eq_true, decide_eq_true_eq] at hcheck
  obtain ⟨⟨hready, hdeadline⟩, hformula⟩ := hcheck
  have hstart : s = { s with clkCounter := 0 } := by
    have hclk := boot_clkCounter hs
    rw [← hclk]
  refine ⟨s, .init ⟨s, hs, hstart⟩, fun h => ?_⟩
  have hmust := h.formula 1 hready
  rw [hdeadline, hformula] at hmust
  exact absurd hmust (by decide)

end LocOS
