import FdPostgres.Registration
import FdPostgres.HashIndex.Blocks
import FdPostgres.Bitmapset.Agreement
import FdPostgres.Dynahash.Overflow
import FdPostgres.IntegerSet.Runs
import FdPostgres.Multixact.Backends
import FdPostgres.Heap.Vacuum
import FdPostgres.Fsm.Runs
import FdPostgres.Deadlock.Check
import FdPostgres.Procarray.DeferCleanup
import FdPostgres.Procarray.Snapshots
import FdPostgres.OldSnapshot
import FdPostgres.Pglz.Compress
import FdPostgres.Heap.PruneSpec
import FdPostgres.Partition.PruneCombine
import FdPostgres.Acl.Runs
import FdPostgres.Sinval.Delivery
import FdPostgres.Wal.FullPageWrites
import FdPostgres.FdStatement
import FdPostgres.Statistics.Generators
import FdPostgres.Statistics.Degree
import FdPostgres.Knapsack
import FdPostgres.Calendar
