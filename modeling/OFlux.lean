import OFlux.Library.TransitionSystem
import OFlux.Library.Placement
import OFlux.Runtime.Flow
import OFlux.Runtime.EventOperations
import OFlux.Runtime.RunTime
import OFlux.Runtime.Reload
import OFlux.Runtime.LiveEvents
import OFlux.Runtime.SourceTurnOff
import OFlux.Runtime.SourceRespawn
import OFlux.Runtime.Melding
import OFlux.Runtime.Baton
import OFlux.Runtime.MagicSorter
import OFlux.Lockfree.HashTable
import OFlux.Lockfree.AtomicMaps
import OFlux.Lockfree.AtomicCollection
import OFlux.Lockfree.RunTimeThread
import OFlux.Guards.AcquireEffect
import OFlux.Guards.DeadlockFreedom
import OFlux.Guards.WholeCalls
import OFlux.Guards.ReadWriteLock
import OFlux.Guards.PoolConservation
import OFlux.Guards.CollectionSafety
import OFlux.Library.LinkedQueue
import OFlux.Library.Loop
import OFlux.Library.Machine
import OFlux.Lockfree.Atomic
import OFlux.Lockfree.AtomicReadWrite
import OFlux.Lockfree.PoolEventList
import OFlux.Compiler.ListMerge
import OFlux.Compiler.PluginDiff
import OFlux.Compiler.XmlEquality
import OFlux.Reader.PluginApplication
import OFlux.Library.Classes
import OFlux.Frontend.Compatible
import OFlux.Frontend.CollapsedTypes
import OFlux.Frontend.CopyCode
import OFlux.Frontend.ConditionArguments
import OFlux.Frontend.UsesModel
import OFlux.Frontend.CycleFind
import OFlux.Frontend.Flatten
import OFlux.Frontend.Flow
import OFlux.Frontend.Reductions
import OFlux.Library.Probing
import OFlux.Lockfree.HashTableImplementation
import OFlux.Lockfree.HashTableEntries
import OFlux.Lockfree.HashTableMap
import OFlux.Lockfree.HashTableEnumerator
import OFlux.Library.FirstMatch
import OFlux.Frontend.Successors
import OFlux.Frontend.Routing
import OFlux.Frontend.AcyclicFlow
import OFlux.Frontend.FlowRecursions
import OFlux.Frontend.KeptCells
import OFlux.Frontend.Sequences
import OFlux.Frontend.GuardOrder
import OFlux.Guards.Drain
import OFlux.Guards.SortGuards
import OFlux.Lockfree.WorkStealingDeque
import OFlux.Lockfree.LFArrayQueue
import OFlux.Library.ReferenceCount
import OFlux.Runtime.ScatterGather
import OFlux.Runtime.SharedPtr
import OFlux.Library.TwoWayList
import OFlux.Runtime.LinkedList
import OFlux.Reader.XmlFile
import OFlux.Reader.PluginFiles
import OFlux.Frontend.GuardNumbers
import OFlux.Frontend.UninterpretedCpp
import OFlux.Lockfree.HazardPointers
import OFlux.Util.CircularBufferProgress
import OFlux.Lockfree.MemoryPool
import OFlux.Lockfree.DequeInterleavings
import OFlux.Lockfree.ExclusiveInterleavings
import OFlux.Lockfree.ExclusiveHandOver
import OFlux.Lockfree.HazardInterleavings
import OFlux.Frontend.TypedLinks
import OFlux.Frontend.RouteTypes
import OFlux.Guards.MutualExclusion
import OFlux.Lockfree.HashTableCopies
import OFlux.Lockfree.HashTableLinearization
