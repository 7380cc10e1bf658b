import AosvFibers.Lib.Transition
import AosvFibers.Lib.HashTable
import AosvFibers.Lib.Paging
import AosvFibers.Lib.CString
import AosvFibers.Lib.Ledger
import AosvFibers.Model.Types
import AosvFibers.Model.Statements
import AosvFibers.Model.Fibers
import AosvFibers.Model.Ioctl
import AosvFibers.Model.Timer
import AosvFibers.Atomic.System
import AosvFibers.Atomic.Invariant
import AosvFibers.Atomic.Effects
import AosvFibers.Atomic.Outcome
import AosvFibers.Atomic.Ownership
import AosvFibers.Atomic.Isolation
import AosvFibers.Atomic.Context
import AosvFibers.Atomic.Fls
import AosvFibers.Atomic.Switch
import AosvFibers.Atomic.Ids
import AosvFibers.Atomic.Reclaim
import AosvFibers.Atomic.Failure
import AosvFibers.Interleaved.Machine
import AosvFibers.Atomic.Locks
import AosvFibers.Atomic.Time
import AosvFibers.Interleaved.Pending
import AosvFibers.Interleaved.Simulation
import AosvFibers.Interleaved.Advance
import AosvFibers.Interleaved.Refinement
import AosvFibers.Interleaved.Guard
import AosvFibers.Interleaved.Converting
import AosvFibers.Interleaved.Conversion
import AosvFibers.Proc.Pident
import AosvFibers.Proc.Splice
import AosvFibers.Proc.FiberDir
import AosvFibers.Fiberlib.Init
import AosvFibers.Proc.Fill
import AosvFibers.Interleaved.Attempts
import AosvFibers.Interleaved.Creating
import AosvFibers.Interleaved.Creation
import AosvFibers.Fiberlib.Message
import AosvFibers.Proc.FiberFile
import AosvFibers.Proc.FiberStat
import AosvFibers.Atomic.FlsFresh
import AosvFibers.Atomic.Preempt
import AosvFibers.Fiberlib.Wrappers
import AosvFibers.Fiberlib.Stack
import AosvFibers.Atomic.Teardown
import AosvFibers.Lib.FiniteMap
import AosvFibers.Atomic.Maps
import AosvFibers.Interleaved.Lifetime
import AosvFibers.Interleaved.Counting
import AosvFibers.Interleaved.InUse
import AosvFibers.Lib.Fallible
import AosvFibers.Lib.Buckets
import AosvFibers.Benchmark.Calqueue
import AosvFibers.Benchmark.CalqueueShape
import AosvFibers.Benchmark.CalqueueBag
import AosvFibers.Benchmark.CalqueueOrder
import AosvFibers.Lib.Bitmap
import AosvFibers.Lib.DoublyLinked
import AosvFibers.Lib.MultiplyWithCarry
import AosvFibers.Benchmark.Channel
import AosvFibers.Benchmark.Model
import AosvFibers.Benchmark.Numerical
import AosvFibers.Benchmark.Cell
import AosvFibers.Benchmark.MainLoop
import AosvFibers.Benchmark.Testbed
import AosvFibers.Benchmark.Startup
import AosvFibers.Benchmark.Ult
import AosvFibers.Benchmark.UltSafety
import AosvFibers.Benchmark.UltStuck
import AosvFibers.Lib.HeadInsertion
import AosvFibers.Interleaved.Insertion
import AosvFibers.Interleaved.Published
import AosvFibers.Interleaved.Publishing
import AosvFibers.Interleaved.Survival
