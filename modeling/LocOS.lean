import LocOS.Lib.Loop
import LocOS.Lib.Runs
import LocOS.Memory
import LocOS.Process
import LocOS.Queue
import LocOS.Machine
import LocOS.System
import LocOS.Scheduler
import LocOS.Slots
import LocOS.Waiting
import LocOS.Run
import LocOS.Cycle
import LocOS.Conservation
import LocOS.Scan
import LocOS.RoundRobin
import LocOS.Mirror
import LocOS.Transfer
import LocOS.Priority
import LocOS.Levels
import LocOS.Space
import LocOS.Loader
import LocOS.Loaded
import LocOS.Virtual
import LocOS.Isolation
import LocOS.Transparency
import LocOS.Elf
import LocOS.Prometheus
import LocOS.Generated
import LocOS.RoundTrip
import LocOS.Execution
import LocOS.EndToEnd
import LocOS.Handshake
import LocOS.Ticks
import LocOS.Signals
import LocOS.Bitmap
import LocOS.Ownership
import LocOS.InstructionSet
import LocOS.Fairness
import LocOS.Lifetime
import LocOS.Quantum
import LocOS.ClockMode
import LocOS.Ranks
import LocOS.BfsQueue
import LocOS.Deadlines
import LocOS.Hangs
import LocOS.Destroyed
import LocOS.Admission
import LocOS.Selection
import LocOS.Victim
import LocOS.Image
import LocOS.Passes
import LocOS.Generator
import LocOS.Copies
import LocOS.Estimate
import LocOS.Lib.Rounds
import LocOS.Roomy
import LocOS.Rounds
import LocOS.Completion
import LocOS.BoundedFifo
import LocOS.LeastImportant
import LocOS.Fault
import LocOS.Coverage
import LocOS.KernelSpace
import LocOS.Unload
import LocOS.Removal
import LocOS.EntryPoint
import LocOS.Dispatch
import LocOS.WorkConserving
import LocOS.Response
import LocOS.Lib.Sharing
import LocOS.Makespan
import LocOS.Lib.Reorder
import LocOS.Locality
import LocOS.TickOrder
import LocOS.FinalMemory
import LocOS.HeapSafety
import LocOS.Cleanup
import LocOS.Report
import LocOS.BfsRuns
import LocOS.Lib.Decimal
import LocOS.Options
import LocOS.Lib.Custody
import LocOS.Resources
import LocOS.Leaks
import LocOS.Dangling
import LocOS.Supply
import LocOS.Timely
