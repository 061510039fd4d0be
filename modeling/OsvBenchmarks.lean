import OsvBenchmarks.Library.Runs
import OsvBenchmarks.Library.Reports
import OsvBenchmarks.Library.Layers
import OsvBenchmarks.Library.Interleave
import OsvBenchmarks.Library.Tally
import OsvBenchmarks.Library.Table
import OsvBenchmarks.Library.RwLock
import OsvBenchmarks.Library.Prefix
import OsvBenchmarks.Library.PrefixCode
import OsvBenchmarks.Library.Chunks
import OsvBenchmarks.Library.FenceTree.Shape
import OsvBenchmarks.Library.FenceTree.Steps
import OsvBenchmarks.Library.FenceTree.Chain
import OsvBenchmarks.Library.FenceTree.Route
import OsvBenchmarks.PageState.Word
import OsvBenchmarks.PageState.Machine
import OsvBenchmarks.PageState.Exclusion
import OsvBenchmarks.PageState.Lock
import OsvBenchmarks.PageState.Optimistic
import OsvBenchmarks.PageState.Locks
import OsvBenchmarks.PageState.Eviction
import OsvBenchmarks.BTree.Node
import OsvBenchmarks.BTree.Heap
import OsvBenchmarks.BTree.Search
import OsvBenchmarks.BTree.Layout
import OsvBenchmarks.BTree.Build
import OsvBenchmarks.BTree.Page
import OsvBenchmarks.BTree.Separator
import OsvBenchmarks.BTree.Split
import OsvBenchmarks.BTree.Inner
import OsvBenchmarks.BTree.Merge
import OsvBenchmarks.BTree.Accounting
import OsvBenchmarks.BTree.Halves
import OsvBenchmarks.BTree.Rejoin
import OsvBenchmarks.BTree.SplitPoint
import OsvBenchmarks.BTree.FullPage
import OsvBenchmarks.BTree.Fewer
import OsvBenchmarks.BTree.Compare
import OsvBenchmarks.BTree.Budget
import OsvBenchmarks.BTree.Divide
import OsvBenchmarks.BTree.Sized
import OsvBenchmarks.Rte.Memcmp
import OsvBenchmarks.Rte.Memcpy
import OsvBenchmarks.Tree.Operations
import OsvBenchmarks.Tree.View
import OsvBenchmarks.Tree.Invariant
import OsvBenchmarks.Tree.Steps
import OsvBenchmarks.Tree.Asserted
import OsvBenchmarks.Tree.Insert
import OsvBenchmarks.Tree.Lookup
import OsvBenchmarks.Tree.Remove
import OsvBenchmarks.Tree.Refinement
import OsvBenchmarks.Tree.Fuel
import OsvBenchmarks.Tree.FiniteMap
import OsvBenchmarks.Tree.SplitPoint
import OsvBenchmarks.Tree.Structure
import OsvBenchmarks.Tree.Scan
import OsvBenchmarks.Tree.Copies
import OsvBenchmarks.Threads.Deadlock
import OsvBenchmarks.Fio.Engine
import OsvBenchmarks.Library.Lockstep
import OsvBenchmarks.Duckdb.FileHandle
import OsvBenchmarks.Duckdb.Transport
import OsvBenchmarks.Duckdb.Prefetch
import OsvBenchmarks.Tpcc.History
import OsvBenchmarks.Tpcc.KeyFold
import OsvBenchmarks.Bfs.Kernel
import OsvBenchmarks.Bfs.Distances
import OsvBenchmarks.Bfs.Run
import OsvBenchmarks.Tpcc.Workload
import OsvBenchmarks.Tpcc.Orders
import OsvBenchmarks.Tpcc.NewOrder
import OsvBenchmarks.Tpcc.Delivery
import OsvBenchmarks.Tpcc.Load
import OsvBenchmarks.Tpcc.OrderIds
import OsvBenchmarks.Tpcc.Calls
import OsvBenchmarks.Tpcc.Serial
import OsvBenchmarks.Tpcc.Undelivered
import OsvBenchmarks.Tpcc.DeliverOnce
import OsvBenchmarks.Tpcc.Credits
import OsvBenchmarks.Tpcc.Payment
import OsvBenchmarks.Tpcc.Books
import OsvBenchmarks.Tpcc.Consistency
import OsvBenchmarks.Tpcc.StockRange
import OsvBenchmarks.Tpcc.Shuffle
import OsvBenchmarks.Tpcc.Scan
import OsvBenchmarks.Tpcc.StockLevel
import OsvBenchmarks.Tpcc.ByName
import OsvBenchmarks.Tpcc.CreditText
import OsvBenchmarks.Tpcc.Adapter
import OsvBenchmarks.Tpcc.Rows
import OsvBenchmarks.Driver.ParallelFor
import OsvBenchmarks.Mmapbench.SeqScan
import OsvBenchmarks.BTree.Hints
import OsvBenchmarks.PageState.Dirty
import OsvBenchmarks.Bfs.Depth
import OsvBenchmarks.Bfs.Sweep
