import LockfreeStm.Library.WriteLog
import LockfreeStm.Library.Serialization
import LockfreeStm.Library.Ledger
import LockfreeStm.Library.Ring
import LockfreeStm.Library.RwLock
import LockfreeStm.Library.Optimistic
import LockfreeStm.Library.SideBySide
import LockfreeStm.Library.History
import LockfreeStm.Library.Fuel
import LockfreeStm.Word
import LockfreeStm.PodVector
import LockfreeStm.Library.Blocks
import LockfreeStm.PodVectorBlock
import LockfreeStm.VarLayout
import LockfreeStm.PodHashSet
import LockfreeStm.EpochQueue
import LockfreeStm.QuiescenceBuffer
import LockfreeStm.QuiescenceRefinement
import LockfreeStm.NestedCallbacks
import LockfreeStm.FastRwMutex
import LockfreeStm.ThreadSynchronization
import LockfreeStm.GracePeriod
import LockfreeStm.Machine.State
import LockfreeStm.Machine.Step
import LockfreeStm.Machine.Moves
import LockfreeStm.Machine.Views
import LockfreeStm.Machine.Active
import LockfreeStm.Machine.Locks
import LockfreeStm.Machine.Attempt
import LockfreeStm.Machine.Heap
import LockfreeStm.Machine.Commits
import LockfreeStm.Machine.Snapshot
import LockfreeStm.Machine.Atomicity
import LockfreeStm.Machine.WriteSets
import LockfreeStm.Machine.Bodies
import LockfreeStm.Machine.Programs
import LockfreeStm.Machine.Serial
import LockfreeStm.Machine.Prefixes
import LockfreeStm.Machine.Opacity
import LockfreeStm.Machine.Clients
import LockfreeStm.Machine.Histories
import LockfreeStm.Machine.TypedPrograms
import LockfreeStm.Machine.OwnWrites
import LockfreeStm.Machine.Callbacks
import LockfreeStm.Machine.Ownership
import LockfreeStm.Machine.Due
import LockfreeStm.Machine.Grace
import LockfreeStm.Machine.EmptyCommit
import LockfreeStm.Machine.ReclaimAll
import LockfreeStm.Machine.ThreadExit
import LockfreeStm.Machine.Discipline
import LockfreeStm.CommitAlgorithm
import LockfreeStm.Machine.Aborts
import LockfreeStm.Machine.Progress
import LockfreeStm.Machine.Alone
import LockfreeStm.AtomicBase
import LockfreeStm.Memory
import LockfreeStm.Registration
import LockfreeStm.FailCallbacks
import LockfreeStm.HeapVar
import LockfreeStm.Forwarding
import LockfreeStm.StmList
import LockfreeStm.StmListRuns
import LockfreeStm.Rbtree.Program
import LockfreeStm.Rbtree.Shape
import LockfreeStm.Rbtree.Rotation
import LockfreeStm.Rbtree.Balance
import LockfreeStm.Rbtree.Insert
import LockfreeStm.Rbtree.Valid
import LockfreeStm.Rbtree.Emplace
import LockfreeStm.Rbtree.Delete
import LockfreeStm.Rbtree.Erase
import LockfreeStm.Rbtree.Footprint
import LockfreeStm.Rbtree.Rerun
import LockfreeStm.Rbtree.Descendants
import LockfreeStm.Rbtree.Concurrent
import LockfreeStm.Rbtree.Teardown
import LockfreeStm.Rbtree.ConcurrentErase
import LockfreeStm.Rbtree.ConcurrentEmplace
import LockfreeStm.Rbtree.NegativeErase
import LockfreeStm.Rbtree.ManyOperations
import LockfreeStm.Rbtree.OnMachine
