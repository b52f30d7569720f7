import Nanobdd.Lib.Chain
import Nanobdd.Lib.Diagram
import Nanobdd.Lib.Interning
import Nanobdd.Lib.Ladder
import Nanobdd.Lib.Marking
import Nanobdd.Lib.Threads
import Nanobdd.Lib.Transition
import Nanobdd.Init
import Nanobdd.AllocatorSpec
import Nanobdd.Collect
import Nanobdd.Machine
import Nanobdd.CacheSound
import Nanobdd.Apply
import Nanobdd.Operation
import Nanobdd.Prime
import Nanobdd.InitSpec
import Nanobdd.Implication
import Nanobdd.Preserved
import Nanobdd.Handles
import Nanobdd.HandlesSpec
import Nanobdd.Programs
import Nanobdd.Compound
import Nanobdd.Interference
import Nanobdd.SharedTable
import Nanobdd.FreeList
import Nanobdd.CacheProtocol
import Nanobdd.Transparent
import Nanobdd.Exactness
import Nanobdd.Untorn
import Nanobdd.PrimeSpec
import Nanobdd.Sizing
import Nanobdd.Building
import Nanobdd.Slots
import Nanobdd.MutexCache
import Nanobdd.Builds
import Nanobdd.Coherence
import Nanobdd.DefaultBuild
import Nanobdd.LockFreeBucket
import Nanobdd.Footprint
import Nanobdd.Minimal
import Nanobdd.BoundedWork
import Nanobdd.Capacity
import Nanobdd.Load
import Nanobdd.MulMod
import Nanobdd.BucketSweep
import Nanobdd.Java
import Nanobdd.Sessions
import Nanobdd.Memoised
import Nanobdd.SharedOperators
import Nanobdd.Accesses
