import ThreadPool.Lib.System
import ThreadPool.Lib.Trace
import ThreadPool.Lib.WaitsFor
import ThreadPool.Lib.LevelOrder
import ThreadPool.Lib.Tally
import ThreadPool.Lib.Tickets
import ThreadPool.Lib.Ring
import ThreadPool.Lib.Probing
import ThreadPool.Model.Impl
import ThreadPool.Model.Process
import ThreadPool.Model.Definitions
import ThreadPool.Model.Step
import ThreadPool.Model.Worker
import ThreadPool.Model.Calls
import ThreadPool.Model.Scheduling
import ThreadPool.Model.Dispatch
import ThreadPool.Model.Order
import ThreadPool.Model.Lifecycle
import ThreadPool.Model.Construction
import ThreadPool.Model.Joining
import ThreadPool.Model.Shutdown
import ThreadPool.Model.Timeout
import ThreadPool.Model.Futures
import ThreadPool.Model.Exceptions
import ThreadPool.Model.Callable
import ThreadPool.Model.Program
import ThreadPool.Model.Dependencies
import ThreadPool.Model.AsyncExecutor
import ThreadPool.Model.Blocking
import ThreadPool.Model.SubQueue
import ThreadPool.Model.Indices
import ThreadPool.Model.FreeList
import ThreadPool.Model.ExplicitProducer
import ThreadPool.Model.BlockRing
import ThreadPool.Model.Storage
import ThreadPool.Model.Filling
import ThreadPool.Model.Elements
import ThreadPool.Model.WaitFree
import ThreadPool.Model.ProducerHash
import ThreadPool.Model.Producers
import ThreadPool.Model.Lookup
