import LocOS.Isolation
import Mathlib.Logic.Function.Iterate

/-!
# Alone

A process run by nothing but repeated instruction cycles on one hardware
thread. As long as it stays in its own words, it is the process of `Virtual`,
whatever else is loaded.
-/

namespace LocOS

/-! ## A process alone -/

/-- The hardware thread a process alone starts on, in the freshly loaded
memory. -/
def aloneStart (pm : PhysicalMemory) (pcbs : List PCB) (p : PcbPtr) : ExecState where
  hw := idleThread.load p ((bootHeap pcbs).get p)
  pm := pm
  pcbs := bootHeap pcbs
  log := []

/-- The process alone after `k` instruction cycles. -/
def alone (pm : PhysicalMemory) (pcbs : List PCB) (p : PcbPtr) (k : Nat) : ExecState :=
  executeInstructionCycle^[k] (aloneStart pm pcbs p)

/-- The process on its own words, before its first instruction. -/
def freshProcess (pm : PhysicalMemory) (a : Space) : VirtualProcess where
  pc := 0
  registers := fun _ => 0
  memory := a.read pm
  halted := false

/-- Process `p` is loaded and waits for its first dispatch. -/
structure Fresh (pcbs : List PCB) (p : PcbPtr) (a : Space) : Prop where
  live : p < pcbs.length
  pgb : ((bootHeap pcbs).get p).mm.pgb = some a.base
  pc : ((bootHeap pcbs).get p).context.pc = 0
  registers : ((bootHeap pcbs).get p).context.registers = fun _ => 0
  state : ((bootHeap pcbs).get p).state = .waiting

/-- The instructions a process has executed. -/
def execCount (log : List Event) (p : PcbPtr) : Nat :=
  log.countP fun
    | .exec q _ _ => decide (q = p)
    | _ => false

@[simp] theorem execCount_append (log log' : List Event) (p : PcbPtr) :
    execCount (log ++ log') p = execCount log p + execCount log' p :=
  List.countP_append

/-- What every state of the process alone satisfies. -/
structure Alone (spaces : List Space) (p : PcbPtr) (a : Space) (v : VirtualProcess)
    (e : ExecState) : Prop where
  layout : Layout e.pm spaces
  pcb : e.hw.pcb = some p
  ptbr : e.hw.ptbr = some a.base
  live : e.pcbs.Live p
  agrees : v.Agrees a.words (e.view a p)
  inWords : v.halted = false → v.InWords a.words

section
variable {spaces : List Space} {p : PcbPtr} {a : Space} {v : VirtualProcess} {e : ExecState}

theorem executes_iff (hpcb : e.hw.pcb = some p) (hptbr : e.hw.ptbr = some a.base) :
    Executes e p ↔ (e.view a p).halted = false := by
  simp only [ExecState.view, decide_eq_false_iff_not]
  exact ⟨fun h => h.live, fun h => ⟨hpcb, h, by rw [hptbr]; exact Option.some_ne_none _⟩⟩

theorem live_executeInstructionCycle (h : e.pcbs.Live p) :
    (executeInstructionCycle e).pcbs.Live p := by
  rcases executeInstructionCycle_cases e with ⟨he, _⟩ | ⟨q, base, _, _, _, he⟩
  · rwa [he]
  · rw [he, executeInstruction_pcbs]
    split
    · exact (PcbHeap.live_set ..).mpr h
    · exact h

/-- What a cycle alone does, whether it executes or is skipped. -/
theorem Alone.cycle (h : Alone spaces p a v e) (hp : spaces[p]? = some a) :
    Layout (executeInstructionCycle e).pm spaces ∧
      v.step.Agrees a.words ((executeInstructionCycle e).view a p) := by
  have ha := List.mem_of_getElem? hp
  by_cases hrun : Executes e p
  · have hlive := (executes_iff h.pcb h.ptbr).mp hrun
    have hin := (h.agrees.inWords (h.inWords (h.agrees.halted.symm.trans hlive)))
    have hpages := (inPages_iff (h.layout.present_of ha) h.ptbr).mpr hin
    exact ⟨h.layout.cycle ha hrun hpages h.ptbr, (h.agrees.step h.inWords).trans
      (h.layout.cycle_refines hp hrun hpages h.ptbr h.live)⟩
  · have hskip : executeInstructionCycle e = e := by
      refine executeInstructionCycle_skips fun q hq => ?_
      obtain rfl := Option.some.inj (h.pcb.symm.trans hq.pcb)
      exact hrun hq
    have hhalt : v.halted = true := by
      rw [← h.agrees.halted]
      exact Bool.of_not_eq_false fun hf => hrun ((executes_iff h.pcb h.ptbr).mpr hf)
    rw [hskip, VirtualProcess.step_halted hhalt]
    exact ⟨h.layout, h.agrees⟩

/-- One more cycle alone, when the process stays in its words. -/
theorem Alone.step (h : Alone spaces p a v e) (hp : spaces[p]? = some a)
    (hin : v.step.halted = false → v.step.InWords a.words) :
    Alone spaces p a v.step (executeInstructionCycle e) where
  layout := (h.cycle hp).1
  pcb := (executeInstructionCycle_hw_pcb e).trans h.pcb
  ptbr := (executeInstructionCycle_hw_ptbr e).trans h.ptbr
  live := live_executeInstructionCycle h.live
  agrees := (h.cycle hp).2
  inWords := hin

/-- A thread that stays in its pages runs a process that stays in its words. -/
theorem inWords_of_stays (hL : Layout e.pm spaces) (hp : spaces[p]? = some a)
    (hpcb : e.hw.pcb = some p) (hptbr : e.hw.ptbr = some a.base)
    (hagrees : v.Agrees a.words (e.view a p)) (hstay : StaysInPages spaces p e)
    (hhalt : v.halted = false) : v.InWords a.words := by
  have hrun := (executes_iff hpcb hptbr).mpr (hagrees.halted.trans hhalt)
  exact hagrees.symm.inWords
    ((inPages_iff (hL.present_of (List.mem_of_getElem? hp)) hptbr).mp (hstay a hp hrun))

/-- And the other way around. -/
theorem Alone.stays (h : Alone spaces p a v e) (hp : spaces[p]? = some a) :
    StaysInPages spaces p e := by
  intro b hb hrun
  obtain rfl := Option.some.inj (hp.symm.trans hb)
  have hlive := (executes_iff h.pcb h.ptbr).mp hrun
  exact (inPages_iff (h.layout.present_of (List.mem_of_getElem? hp)) h.ptbr).mpr
    (h.agrees.inWords (h.inWords (h.agrees.halted.symm.trans hlive)))

section
variable {pm : PhysicalMemory} {pcbs : List PCB}

theorem alone_succ (k : Nat) :
    alone pm pcbs p (k + 1) = executeInstructionCycle (alone pm pcbs p k) :=
  Function.iterate_succ_apply' ..

theorem alone_pcb (k : Nat) : (alone pm pcbs p k).hw.pcb = some p := by
  induction k with
  | zero => rfl
  | succ k ih => rw [alone_succ, executeInstructionCycle_hw_pcb, ih]

theorem Fresh.agrees (h : Fresh pcbs p a) :
    (freshProcess pm a).Agrees a.words ((aloneStart pm pcbs p).view a p) := by
  refine ⟨?_, h.registers, fun _ _ => rfl, ?_⟩
  · exact (HardwareThread.load_pc idleThread p _).trans h.pc
  · simp only [ExecState.view, aloneStart, h.state]
    rfl

/-- A process that stays in its words, alone: the thread follows it. -/
theorem Fresh.follows (h : Fresh pcbs p a) (hL : Layout pm spaces) (hp : spaces[p]? = some a)
    (hin : ∀ k, (VirtualProcess.step^[k] (freshProcess pm a)).halted = false →
      (VirtualProcess.step^[k] (freshProcess pm a)).InWords a.words) (k : Nat) :
    Alone spaces p a (VirtualProcess.step^[k] (freshProcess pm a)) (alone pm pcbs p k) := by
  induction k with
  | zero => exact ⟨hL, rfl, h.pgb, live_bootHeap.mpr h.live, h.agrees, hin 0⟩
  | succ k ih =>
      have hnext := hin (k + 1)
      rw [Function.iterate_succ_apply'] at hnext ⊢
      rw [alone_succ]
      exact ih.step hp hnext

/-- The same, of a thread known to stay in its pages. -/
theorem Fresh.follows_of_stays (h : Fresh pcbs p a) (hL : Layout pm spaces)
    (hp : spaces[p]? = some a) (hstay : ∀ k, StaysInPages spaces p (alone pm pcbs p k)) (k : Nat) :
    Alone spaces p a (VirtualProcess.step^[k] (freshProcess pm a)) (alone pm pcbs p k) := by
  induction k with
  | zero =>
      exact ⟨hL, rfl, h.pgb, live_bootHeap.mpr h.live, h.agrees,
        inWords_of_stays (e := aloneStart pm pcbs p) hL hp rfl h.pgb h.agrees (hstay 0)⟩
  | succ k ih =>
      have hnext := hstay (k + 1)
      rw [alone_succ] at hnext ⊢
      rw [Function.iterate_succ_apply']
      exact ih.step hp (inWords_of_stays (ih.cycle hp).1 hp
        ((executeInstructionCycle_hw_pcb _).trans ih.pcb)
        ((executeInstructionCycle_hw_ptbr _).trans ih.ptbr) (ih.cycle hp).2 hnext)

/-- A cycle that does not execute leaves the process as it is. -/
theorem alone_skips {k : Nat} (h : ¬ Executes (alone pm pcbs p k) p) :
    alone pm pcbs p (k + 1) = alone pm pcbs p k := by
  rw [alone_succ]
  refine executeInstructionCycle_skips fun q hq => ?_
  obtain rfl := Option.some.inj ((alone_pcb k).symm.trans hq.pcb)
  exact h hq

/-- A process that executes its first `n` cycles and no other. -/
theorem execCount_alone {n : Nat} (hexec : ∀ k, Executes (alone pm pcbs p k) p ↔ k < n) (k : Nat) :
    execCount (alone pm pcbs p k).log p = min k n := by
  induction k with
  | zero =>
      rw [Nat.zero_min]
      rfl
  | succ k ih =>
      by_cases hrun : Executes (alone pm pcbs p k) p
      · have hlt := (hexec k).mp hrun
        rw [alone_succ, executeInstructionCycle_executes hrun, executeInstruction_log]
        show execCount (_ ++ [_]) p = _
        rw [execCount_append, ih]
        simp only [execCount, List.countP_singleton, decide_true, if_true]
        omega
      · have hge : ¬ k < n := fun hlt => hrun ((hexec k).mpr hlt)
        rw [alone_skips hrun, ih]
        omega

/-- Alone, a process that stops inside its pages stays in them for good. -/
theorem staysInPages_of_stops {n : Nat}
    (hstay : ∀ k, k < n → StaysInPages spaces p (alone pm pcbs p k))
    (hstop : ¬ Executes (alone pm pcbs p n) p) (k : Nat) :
    StaysInPages spaces p (alone pm pcbs p k) := by
  have hlater : ∀ d, alone pm pcbs p (n + d) = alone pm pcbs p n := by
    intro d
    induction d with
    | zero => rfl
    | succ d ih =>
        rw [← Nat.add_assoc, alone_skips (ih.symm ▸ hstop), ih]
  by_cases hk : k < n
  · exact hstay k hk
  · obtain ⟨d, rfl⟩ := Nat.exists_eq_add_of_le (Nat.le_of_not_lt hk)
    intro a _ hrun
    rw [hlater d] at hrun
    exact absurd hrun hstop

end

end

/-! ## A process just loaded -/

/-- A process created by the loader is fresh in its space, wherever its PCB
was copied to. -/
theorem fresh_of_loaded {programs : List Program} {pcbs : List PCB} {p : PcbPtr}
    {process : Program × PCB} (hget : (loaded programs).1[p]? = some process)
    (hp : pcbs[p]? = some process.2) : Fresh pcbs p (spaceOf process) := by
  obtain ⟨pid, base, _, he⟩ := (loaded_spec programs).created _ (List.mem_of_getElem? hget)
  refine ⟨(List.getElem?_eq_some_iff.mp hp).1, ?_, ?_, ?_, ?_⟩ <;>
    rw [get_bootHeap hp] <;> simp only [spaceOf, he] <;> rfl

end LocOS
