import LocOS.Conservation
import LocOS.Loaded
import LocOS.Virtual

/-!
# Startup

The system `main` starts from a directory of programs: each program becomes a
process on the one physical memory, the processes go into `ready_queue` in
load order, and the clock gets the memory.
-/

namespace LocOS

/-- What loading the programs into a fresh memory returns. -/
def loaded (programs : List Program) : List (Program × PCB) × Loader :=
  createProcesses (createLoader createPhysicalMemory) programs

/-- The address spaces of the created processes, in load order. -/
def loadedSpaces (programs : List Program) : List Space := (loaded programs).1.map spaceOf

/-- The processes `main` enqueues. It destroys those a full `ready_queue`
refuses; their pages stay where they are. -/
def loadedPcbs (cfg : Config) (programs : List Program) : List PCB :=
  ((loaded programs).1.take cfg.readyQueueSize).map Prod.snd

/-- `main`'s configuration with the clock connected to the loaded memory. -/
def Config.load (cfg : Config) (programs : List Program) : Config :=
  { cfg with clockPmRef := some (loaded programs).2.physicalMemory }

/-- The runs of a system started from programs. -/
def programRuns (cfg : Config) (programs : List Program) : Runs Sys Action :=
  sysRuns (cfg.load programs) (loadedPcbs cfg programs)

theorem loaded_spec (programs : List Program) :
    LoadedProcesses (loaded programs).2 (loaded programs).1 :=
  loadedProcesses_createProcesses programs

theorem loaded_layout (programs : List Program) :
    Layout (loaded programs).2.physicalMemory (loadedSpaces programs) :=
  (loaded_spec programs).allocated.toLayout

/-- Each enqueued process was made from a program, and its table is that of
its space. -/
theorem loadedPcbs_getElem? {cfg : Config} {programs : List Program} {p : Nat} {pcb : PCB}
    (h : (loadedPcbs cfg programs)[p]? = some pcb) :
    ∃ program pid base, (loaded programs).1[p]? = some (program, pcb) ∧
      pcb = program.pcb pid base ∧
      (loadedSpaces programs)[p]? = some ⟨base, program.totalPages.toNat⟩ := by
  rw [loadedPcbs, List.getElem?_map] at h
  obtain ⟨⟨program, pcb'⟩, hget, rfl⟩ := Option.map_eq_some_iff.mp h
  rw [List.getElem?_take] at hget
  split at hget
  · obtain ⟨pid, base, _, he⟩ := (loaded_spec programs).created _ (List.mem_of_getElem? hget)
    refine ⟨program, pid, base, hget, he, ?_⟩
    rw [loadedSpaces, List.getElem?_map, hget]
    simp only [Option.map_some, spaceOf]
    rw [show pcb' = program.pcb pid base from he]
    rfl
  · cases hget

theorem loadedPcbs_nodup (cfg : Config) (programs : List Program) :
    ((loadedPcbs cfg programs).map PCB.pid).Nodup := by
  have hpids := (loaded_spec programs).pids
  have hsub : ((loadedPcbs cfg programs).map PCB.pid).Sublist
      ((loaded programs).1.map fun process => process.2.pid) := by
    rw [loadedPcbs, List.map_map]
    exact (List.take_sublist _ _).map _
  exact (hpids.sublist hsub).imp fun hlt => Int.ne_of_lt hlt

end LocOS
