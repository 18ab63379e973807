import Ufora.Checkpoints.Pauses
import Ufora.Checkpoints.Triggered
import Ufora.Computations.Withdrawal
import Ufora.Containers.GraphRestriction
import Ufora.Containers.ImmutableTreeMap
import Ufora.Containers.Mutators
import Ufora.Containers.Persistence
import Ufora.Containers.SetOperations
import Ufora.DataTasks.HomogenousArrays
import Ufora.DataTasks.Splits
import Ufora.Futures.FinalResult
import Ufora.Futures.SlotLifetime
import Ufora.Graphs.CalculatedProperties
import Ufora.Judgments.Soundness
import Ufora.Memory.LargeMemoryBlockTracker
import Ufora.Moves.Lost
import Ufora.NativeCode.UnusedBlocks
import Ufora.Networking.Delivery
import Ufora.PageLayout.AccumulatorTasks
import Ufora.PageLayout.Consistency
import Ufora.PageLayout.ThreadGroupPages
import Ufora.PageLayout.WorkingSetPages
import Ufora.PageLoads.ExternalAnswers
import Ufora.Pages.DroppedPages
import Ufora.Pages.InFlight
import Ufora.Pages.LastCopy
import Ufora.Pages.Leak
import Ufora.Pages.PagesToVectors
import Ufora.Pages.Refcounts
import Ufora.Pages.Replay
import Ufora.Pages.SchedulerPageLoader
import Ufora.PersistentCache.GarbageCollection
import Ufora.PersistentCache.TotalBytes
import Ufora.PersistentCache.ValidObjects
import Ufora.Recovery.Allocation
import Ufora.Recovery.Termination
import Ufora.Regimes.Agreement
import Ufora.Scheduling.ThreadGroupStatusTracker
import Ufora.SharedState.Convergence
import Ufora.SharedState.Denotation
import Ufora.SharedState.Disconnects
import Ufora.SharedState.Storage.Compress
import Ufora.Threading.Executions
import Ufora.Threading.PriorityInversion
import Ufora.Transfers.Accounting
import Ufora.Vectors.BigVectorSliceSet
import Ufora.Vectors.SequenceOperations
import Ufora.Vectors.VectorHashes
