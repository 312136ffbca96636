import LocOS.Elf
import LocOS.Handshake
import LocOS.Lib.Decimal
import LocOS.Startup
import LocOS.WorkConserving

/-!
# Options

The command line of `main` (`sys/kernel.c`) and the system it asks for. A flag
takes the argument behind it, whatever that is; other arguments, and a flag
with nothing behind it, are passed over.
-/

namespace LocOS

/-! ## Flags -/

/-- The flags `main` reads. -/
inductive Flag where
  | f
  | q
  | t
  | timeri
  | policy
  | sync
  | qsize
  | cpus
  | cores
  | threads
  deriving DecidableEq, Repr

namespace Flag

/-- In the order `main` compares them. -/
def all : List Flag := [f, q, t, timeri, policy, sync, qsize, cpus, cores, threads]

/-- What `main` compares an argument with. -/
def text : Flag → List Char
  | f => ['-', 'f']
  | q => ['-', 'q']
  | t => ['-', 't']
  | timeri => ['-', 't', 'i', 'm', 'e', 'r', 'i']
  | policy => ['-', 'p', 'o', 'l', 'i', 'c', 'y']
  | sync => ['-', 's', 'y', 'n', 'c']
  | qsize => ['-', 'q', 's', 'i', 'z', 'e']
  | cpus => ['-', 'c', 'p', 'u', 's']
  | cores => ['-', 'c', 'o', 'r', 'e', 's']
  | threads => ['-', 't', 'h', 'r', 'e', 'a', 'd', 's']

/-- The flag an argument is. -/
def ofText? (arg : List Char) : Option Flag := all.find? fun flag => arg = flag.text

theorem ofText?_text (flag : Flag) : ofText? flag.text = some flag := by
  cases flag <;> decide

theorem mem_all (flag : Flag) : flag ∈ all := by
  cases flag <;> decide

/-- The values `main` takes for a flag: from `lowest` to `highest`. -/
def lowest : Flag → Int
  | t | policy | sync => 0
  | _ => 1

/-- See `lowest`; a number without an upper test ends at `INT_MAX`. -/
def highest : Flag → Int
  | policy => 2
  | sync => 1
  | _ => 2 ^ 31 - 1

/-- The test behind the flag lets the number through. -/
def Accepts (flag : Flag) (n : Int) : Prop := flag.lowest ≤ n ∧ n ≤ flag.highest

instance (flag : Flag) (n : Int) : Decidable (flag.Accepts n) :=
  inferInstanceAs (Decidable (_ ∧ _))

/-- What a number that is not accepted makes of the value `old`. -/
def fallback (flag : Flag) (old : Int) : Int :=
  match flag with
  | f | t | cpus => 1
  | q | timeri => 5
  | policy | sync => old
  | qsize => 100
  | cores => 2
  | threads => 4

theorem fallback_accepts {flag : Flag} {old : Int} (h : flag.Accepts old) :
    flag.Accepts (flag.fallback old) := by
  cases flag
  case policy => exact h
  case sync => exact h
  all_goals
    simp only [Accepts, fallback, lowest, highest]
    omega

theorem Accepts.atoi {flag : Flag} {n : Int} (h : flag.Accepts n) :
    Text.atoi (Text.printDecimal n) = n := by
  have hlo : 0 ≤ flag.lowest := by cases flag <;> decide
  have hhi : flag.highest < 2 ^ 31 := by cases flag <;> decide
  exact Text.atoi_printDecimal (by have := h.1; omega) (by have := h.2; omega)

end Flag

/-! ## Options -/

/-- The variables of `main` that the flags set, and `CLOCK_FREQUENCY_HZ`. -/
structure Options where
  clockFrequencyHz : Int
  quantum : Int
  numTimers : Int
  timerInterval : Int
  schedPolicy : Int
  schedSync : Int
  readyQueueSize : Int
  numCpus : Int
  numCores : Int
  numThreads : Int
  deriving DecidableEq, Repr

namespace Options

/-- Without arguments. -/
def default : Options where
  clockFrequencyHz := 1
  quantum := 3
  numTimers := 1
  timerInterval := 5
  schedPolicy := 0
  schedSync := 0
  readyQueueSize := 100
  numCpus := 1
  numCores := 2
  numThreads := 4

/-- The variable a flag sets. -/
def get (options : Options) : Flag → Int
  | .f => options.clockFrequencyHz
  | .q => options.quantum
  | .t => options.numTimers
  | .timeri => options.timerInterval
  | .policy => options.schedPolicy
  | .sync => options.schedSync
  | .qsize => options.readyQueueSize
  | .cpus => options.numCpus
  | .cores => options.numCores
  | .threads => options.numThreads

/-- What `main` does with the number `n` behind a flag. -/
def set (options : Options) (flag : Flag) (n : Int) : Options :=
  match flag with
  | .f => { options with clockFrequencyHz := if n > 0 then n else 1 }
  -- 5 and not the 3 of `default`
  | .q => { options with quantum := if n > 0 then n else 5 }
  | .t => { options with numTimers := if n ≥ 0 then n else 1 }
  | .timeri => { options with timerInterval := if n > 0 then n else 5 }
  | .policy => if n ≥ 0 ∧ n ≤ 2 then { options with schedPolicy := n } else options
  | .sync => if n ≥ 0 ∧ n ≤ 1 then { options with schedSync := n } else options
  | .qsize => { options with readyQueueSize := if n > 0 then n else 100 }
  | .cpus => { options with numCpus := if n > 0 then n else 1 }
  | .cores => { options with numCores := if n > 0 then n else 2 }
  | .threads => { options with numThreads := if n > 0 then n else 4 }

/-- The loop over the arguments. -/
def parse (options : Options) : List (List Char) → Options
  | [] => options
  | [_] => options
  | arg :: value :: args =>
      match Flag.ofText? arg with
      | some flag => parse (options.set flag (Text.atoi value)) args
      | none => parse options (value :: args)

/-- Every variable holds a value its flag accepts. -/
def Valid (options : Options) : Prop := ∀ flag : Flag, flag.Accepts (options.get flag)

theorem ext_get {a b : Options} (h : ∀ flag, a.get flag = b.get flag) : a = b := by
  have hf := h .f
  have hq := h .q
  have ht := h .t
  have htimeri := h .timeri
  have hpolicy := h .policy
  have hsync := h .sync
  have hqsize := h .qsize
  have hcpus := h .cpus
  have hcores := h .cores
  have hthreads := h .threads
  cases a
  cases b
  simp only [get] at *
  simp only [*]

theorem default_valid : default.Valid := by
  intro flag
  cases flag <;> decide

/-! ## One flag -/

section
variable (options : Options) (flag : Flag) (n : Int)

theorem get_set_self (hn : n < 2 ^ 31) : (options.set flag n).get flag =
    if flag.Accepts n then n else flag.fallback (options.get flag) := by
  cases flag
  case policy => exact apply_ite (fun changed : Options => changed.get .policy) ..
  case sync => exact apply_ite (fun changed : Options => changed.get .sync) ..
  all_goals exact if_congr ⟨fun h => ⟨h, by simp only [Flag.highest]; omega⟩, And.left⟩ rfl rfl

theorem get_set_ne {other : Flag} (hne : other ≠ flag) :
    (options.set flag n).get other = options.get other := by
  cases flag
  case policy => simp only [set]; split <;> cases other <;> first | rfl | exact absurd rfl hne
  case sync => simp only [set]; split <;> cases other <;> first | rfl | exact absurd rfl hne
  all_goals cases other <;> first | rfl | exact absurd rfl hne

end

theorem Valid.set {options : Options} (h : options.Valid) (flag : Flag) {n : Int}
    (hn : n < 2 ^ 31) : (options.set flag n).Valid := by
  intro other
  by_cases he : other = flag
  · subst he
    rw [get_set_self _ _ _ hn]
    split
    · assumption
    · exact Flag.fallback_accepts (h other)
  · rw [get_set_ne _ _ _ he]
    exact h other

/-! ## The arguments -/

theorem Valid.parse {options : Options} (h : options.Valid) (args : List (List Char)) :
    (options.parse args).Valid := by
  fun_induction Options.parse options args with
  | case1 => exact h
  | case2 => exact h
  | case3 options arg value args flag _ ih => exact ih (h.set flag (Text.atoi_upper value))
  | case4 options arg value args _ ih => exact ih h

/-- No flag stands last, without a value. -/
def Complete : List (List Char) → Prop
  | [] => True
  | [arg] => Flag.ofText? arg = none
  | arg :: value :: args =>
      match Flag.ofText? arg with
      | some _ => Complete args
      | none => Complete (value :: args)

theorem parse_append (options : Options) {args : List (List Char)} (h : Complete args)
    (more : List (List Char)) :
    options.parse (args ++ more) = (options.parse args).parse more := by
  fun_induction Options.parse options args with
  | case1 => rfl
  | case2 options arg =>
      have harg : Flag.ofText? arg = none := h
      cases more with
      | nil => rfl
      | cons value more => simp only [List.singleton_append, parse, harg]
  | case3 options arg value args flag harg ih =>
      simp only [Complete, harg] at h
      simp only [List.cons_append, parse, harg]
      exact ih h
  | case4 options arg value args harg ih =>
      simp only [Complete, harg] at h
      simp only [List.cons_append, parse, harg]
      exact ih h

/-- The arguments that ask for the values of `options`. -/
def settings (options : Options) (flags : List Flag) : List (List Char) :=
  flags.flatMap fun flag => [flag.text, Text.printDecimal (options.get flag)]

theorem get_parse_settings (options : Options) {wanted : Options} (h : wanted.Valid)
    (flags : List Flag) (flag : Flag) :
    (options.parse (wanted.settings flags)).get flag =
      if flag ∈ flags then wanted.get flag else options.get flag := by
  induction flags generalizing options with
  | nil => rfl
  | cons first flags ih =>
      have haccepts := h first
      have hparse : options.parse (wanted.settings (first :: flags)) =
          (options.set first (wanted.get first)).parse (wanted.settings flags) := by
        simp only [settings, List.flatMap_cons, List.cons_append, List.nil_append, parse,
          Flag.ofText?_text, haccepts.atoi]
      rw [hparse, ih]
      by_cases he : flag = first
      · subst he
        have hn : wanted.get flag < 2 ^ 31 := by
          rw [← haccepts.atoi]
          exact Text.atoi_upper _
        rw [get_set_self _ _ _ hn, if_pos haccepts, ite_self, if_pos (List.mem_cons_self ..)]
      · rw [get_set_ne _ _ _ he]
        simp only [List.mem_cons, he, false_or]

/-! ## What is created -/

/-- The constants of `sys/process.h`. -/
def policy (options : Options) : Policy :=
  if options.schedPolicy = 0 then .roundRobin
  else if options.schedPolicy = 1 then .bfs
  else .preemptivePrio

/-- 0 is `SCHED_SYNC_CLOCK`. -/
def syncMode (options : Options) : SyncMode := if options.schedSync = 0 then .clock else .timer

/-- What `main` creates the queue, the machine and the scheduler with. -/
def config (options : Options) (h : options.Valid) : Config where
  quantum := options.quantum
  policy := options.policy
  syncMode := options.syncMode
  readyQueueSize := options.readyQueueSize.toNat
  machine := createMachine options.numCpus.toNat options.numCores.toNat options.numThreads.toNat
  clockPmRef := none
  sizePos := Int.lt_toNat.mpr (h .qsize).1

/-- The timers `main` creates for the options. -/
def timers (options : Options) : List TimerSpec :=
  mainTimers options.syncMode options.numTimers options.quantum options.timerInterval

/-- In timer mode there is a timer to activate the scheduler. -/
def Activated (options : Options) : Prop :=
  options.syncMode = .timer → ⟨options.quantum, true⟩ ∈ options.timers

end Options

/-! ## Main -/

/-- What `main` answers with its usage. -/
def helpText : List Char := ['-', '-', 'h', 'e', 'l', 'p']

/-- `argv[1..]` as `main` reads it; `none` where it prints its usage and
returns. -/
def mainOptions (args : List (List Char)) : Option Options :=
  if args = [helpText] then none else some (Options.default.parse args)

/-- A file of the programs directory; `contents` is `none` where `fopen`
fails, and `draw` is what `rand` returns while it is loaded. -/
structure DirEntry where
  name : List Char
  contents : Option (List Char)
  draw : Nat

namespace DirEntry

/-- A name behind which there is more than `.elf`. -/
def isElf (entry : DirEntry) : Bool :=
  decide (entry.name.length > 4) &&
    decide (entry.name.drop (entry.name.length - 4) = ['.', 'e', 'l', 'f'])

/-- What the loader makes of the entry, if `main` passes it on. -/
def program? (entry : DirEntry) : Option Program :=
  if entry.isElf then entry.contents.bind fun file => loadProgramFromElf file entry.draw else none

end DirEntry

/-- The programs `main` loads, in the order of the directory. -/
def dirPrograms (dir : List DirEntry) : List Program := dir.filterMap DirEntry.program?

/-- The runs of the system `main` starts. -/
def mainRuns (args : List (List Char)) (dir : List DirEntry) : Runs Sys Action where
  init s := ∃ options valid, mainOptions args = some options ∧
    (programRuns (options.config valid) (dirPrograms dir)).init s
  step s a t := t = s.next a

theorem mainRuns_eq {args : List (List Char)} {options : Options}
    (h : mainOptions args = some options) (valid : options.Valid) (dir : List DirEntry) :
    mainRuns args dir = programRuns (options.config valid) (dirPrograms dir) := by
  have hinit : (mainRuns args dir).init =
      (programRuns (options.config valid) (dirPrograms dir)).init := by
    funext s
    refine propext ⟨?_, fun hs => ⟨options, valid, h, hs⟩⟩
    rintro ⟨options', valid', h', hs⟩
    obtain rfl := Option.some.inj (h.symm.trans h')
    exact hs
  exact congrArg (Runs.mk · fun s a t => t = s.next a) hinit

/-! ## Every command line -/

theorem threadCount_createMachine (numCpus numCores numThreads : Nat) :
    (createMachine numCpus numCores numThreads).threadCount =
      numCpus * (numCores * numThreads) := by
  simp [Machine.threadCount, Machine.cores, createMachine, createCore, Core.numKernelThreads,
    List.flatMap_def, Nat.mul_assoc]

theorem exists_boot {cfg : Config} {pcbs : List PCB} (hquantum : 1 ≤ cfg.quantum)
    (hfit : pcbs.length ≤ cfg.readyQueueSize) : ∃ s, boot cfg pcbs = some s := by
  have hwf := ProcessQueue.createProcessQueue_wf cfg.sizePos
  have hroom : (createProcessQueue cfg.readyQueueSize).currentSize +
      (List.range pcbs.length).length ≤ (createProcessQueue cfg.readyQueueSize).maxCapacity := by
    simpa [createProcessQueue] using hfit
  obtain ⟨rq, hrq⟩ := ProcessQueue.exists_enqueueAll hwf hroom
  simp [boot, createSchedulerWithPolicy, Int.not_lt.mpr hquantum, hrq]

/-- What the system takes for granted of its configuration, its timers and its
processes, and that it starts and runs. -/
structure Runnable (cfg : Config) (timers : List TimerSpec) (pcbs : List PCB) : Prop where
  idle : cfg.machine.Idle
  threads : 0 < cfg.machine.threadCount
  quantum : 1 ≤ cfg.quantum
  intervals : ∀ spec ∈ timers, 1 ≤ spec.interval
  pids : (pcbs.map PCB.pid).Nodup
  memory : cfg.clockPmRef ≠ none
  boots : ∃ s, boot cfg pcbs = some s
  sound : ∀ s, (sysRuns cfg pcbs).Reachable s → Sound cfg.machine.threadCount s

namespace Options

variable {options : Options}

theorem Valid.threads (h : options.Valid) : 0 < (options.config h).machine.threadCount := by
  have hcpus : 0 < options.numCpus.toNat := Int.lt_toNat.mpr (h .cpus).1
  have hcores : 0 < options.numCores.toNat := Int.lt_toNat.mpr (h .cores).1
  have hthreads : 0 < options.numThreads.toNat := Int.lt_toNat.mpr (h .threads).1
  show 0 < (createMachine _ _ _).threadCount
  rw [threadCount_createMachine]
  exact Nat.mul_pos hcpus (Nat.mul_pos hcores hthreads)

theorem Valid.intervals (h : options.Valid) : ∀ spec ∈ options.timers, 1 ≤ spec.interval := by
  intro spec hspec
  have hquantum : 1 ≤ options.quantum := (h .q).1
  have hinterval : 1 ≤ options.timerInterval := (h .timeri).1
  obtain ⟨i, _, rfl⟩ := List.mem_map.mp hspec
  split
  · exact hquantum
  · exact hinterval

/-- `main` creates the scheduler's timer as long as `num_timers + 1` is an
`int`; for the greatest number it creates no timer at all. -/
theorem Valid.activated_iff (h : options.Valid) :
    options.Activated ↔ (options.syncMode = .timer → options.numTimers + 1 < 2 ^ 31) := by
  have hlow : 0 ≤ options.numTimers := (h .t).1
  have hhigh : options.numTimers ≤ 2 ^ 31 - 1 := (h .t).2
  refine forall_congr' fun htimer => ?_
  rw [timers, htimer, mainTimers]
  constructor
  · intro hmem
    obtain ⟨i, hi, _⟩ := List.mem_map.mp hmem
    by_contra hover
    have hmost : options.numTimers = 2 ^ 31 - 1 := by omega
    rw [hmost] at hi
    cases hi
  · intro hfits
    refine List.mem_map.mpr ⟨0, List.mem_range.mpr ?_, if_pos ⟨rfl, rfl⟩⟩
    by_cases hnone : options.numTimers < 1
    · rw [timersToCreate, if_pos hnone]
      decide
    · rw [timersToCreate, if_neg hnone,
        BitVec.toInt_ofInt_eq_self (by decide) (by omega) (by omega)]
      omega

theorem Valid.runnable (h : options.Valid) (programs : List Program) :
    Runnable ((options.config h).load programs) options.timers
      (loadedPcbs (options.config h) programs) where
  idle := Machine.createMachine_idle _ _ _
  threads := h.threads
  quantum := (h .q).1
  intervals := h.intervals
  pids := loadedPcbs_nodup _ programs
  memory := Option.some_ne_none _
  boots := by
    apply exists_boot
    · exact (h .q).1
    · rw [loadedPcbs, List.length_map]
      exact List.length_take_le ..
  sound := by
    intro s hs
    refine hs.invariant (Sound _) ?_ ?_
    · intro s hb
      exact .boot (boot_spec hb) (Machine.createMachine_idle _ _ _).compact.bounded
    · rintro s a t h rfl
      exact h.next a

end Options

/-- Whatever the command line, as long as it does not ask for help, and
whatever is in the programs directory: `main` starts a system that is ready to
run. Its scheduler is activated in timer mode for every number of timers but
the greatest `int`. -/
theorem main_starts (args : List (List Char)) (hargs : args ≠ [helpText]) (dir : List DirEntry) :
    ∃ options valid, mainOptions args = some options ∧
      mainRuns args dir = programRuns (options.config valid) (dirPrograms dir) ∧
      Runnable ((options.config valid).load (dirPrograms dir)) options.timers
        (loadedPcbs (options.config valid) (dirPrograms dir)) ∧
      (options.Activated ↔ (options.syncMode = .timer → options.numTimers + 1 < 2 ^ 31)) := by
  have hparse : mainOptions args = some (Options.default.parse args) := if_neg hargs
  have hvalid := Options.default_valid.parse args
  exact ⟨_, hvalid, hparse, mainRuns_eq hparse hvalid dir, hvalid.runnable _,
    hvalid.activated_iff⟩

/-- Two CPUs, a quantum of 5, and the policy of the default, since nothing
stands behind the flag; in timer mode `2147483647` timers are none. -/
def manyTimers : List (List Char) :=
  [['-', 'c', 'p', 'u', 's'], ['2'], ['-', 'q'], ['x'], ['-', 's', 'y', 'n', 'c'], ['1'],
    ['-', 't'], ['2', '1', '4', '7', '4', '8', '3', '6', '4', '7'], Flag.policy.text]

theorem main_starts_manyTimers : ∃ options valid,
    mainOptions manyTimers = some options ∧
      options = { Options.default with
        numCpus := 2, quantum := 5, schedSync := 1, numTimers := 2147483647 } ∧
      Runnable ((options.config valid).load (dirPrograms [])) options.timers
        (loadedPcbs (options.config valid) (dirPrograms [])) ∧
      ¬ options.Activated := by
  obtain ⟨options, valid, hoptions, _, hrun, hactivated⟩ := main_starts manyTimers (by decide) []
  have hread : mainOptions manyTimers = some { Options.default with
      numCpus := 2, quantum := 5, schedSync := 1, numTimers := 2147483647 } := by
    decide
  obtain rfl := Option.some.inj (hoptions.symm.trans hread)
  have hover : ¬ (2147483647 : Int) + 1 < 2 ^ 31 := by decide
  exact ⟨_, valid, hoptions, rfl, hrun, fun h => hover (hactivated.mp h rfl)⟩

/-- What valid options print, read back behind any other arguments: the flags
given, in any order, have the printed values, the others what the arguments
before them asked for. -/
theorem options_roundTrip {wanted : Options} (h : wanted.Valid) {flags : List Flag}
    (hflags : flags ≠ []) {args : List (List Char)} (hargs : Options.Complete args) :
    ∃ options, mainOptions (args ++ wanted.settings flags) = some options ∧
      (∀ flag, options.get flag =
        if flag ∈ flags then wanted.get flag else (Options.default.parse args).get flag) ∧
      ((∀ flag, flag ∈ flags) → options = wanted) := by
  have hhelp : args ++ wanted.settings flags ≠ [helpText] := by
    obtain ⟨flag, flags, rfl⟩ := List.exists_cons_of_ne_nil hflags
    intro he
    have hlen := congrArg List.length he
    simp only [Options.settings, List.length_append, List.flatMap_cons, List.length_cons,
      List.length_nil] at hlen
    omega
  have hget : ∀ flag, (Options.default.parse (args ++ wanted.settings flags)).get flag =
      if flag ∈ flags then wanted.get flag else (Options.default.parse args).get flag := by
    intro flag
    rw [Options.parse_append _ hargs, Options.get_parse_settings _ h]
  refine ⟨_, if_neg hhelp, hget, fun hall => Options.ext_get fun flag => ?_⟩
  rw [hget, if_pos (hall flag)]

/-- `x` is passed over, and the flags go in against their order. -/
theorem options_roundTrip_reversed :
    Options.Valid { Options.default with numCpus := 12 } ∧
      mainOptions ([['x']] ++
        Options.settings { Options.default with numCpus := 12 } Flag.all.reverse) =
          some { Options.default with numCpus := 12 } := by
  have hvalid : Options.Valid { Options.default with numCpus := 12 } := by
    intro flag
    cases flag <;> decide
  have hflags : Flag.all.reverse ≠ [] := by decide
  have hargs : Options.Complete [['x']] := by
    show Flag.ofText? ['x'] = none
    decide
  obtain ⟨options, hread, _, hall⟩ := options_roundTrip hvalid hflags hargs
  rw [hall fun flag => List.mem_reverse.mpr flag.mem_all] at hread
  exact ⟨hvalid, hread⟩

end LocOS
