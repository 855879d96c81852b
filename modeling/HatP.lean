import HatP.BloomFile
import HatP.CacheLimits
import HatP.CompactionPicker
import HatP.Concurrent.FlushDurability
import HatP.Concurrent.FlushVisibility
import HatP.Concurrent.MemtableGc
import HatP.Concurrent.ReadsSurvive
import HatP.Concurrent.SnapshotStability
import HatP.Frontend.CatalogSnapshot
import HatP.Frontend.Isolation
import HatP.Frontend.Update
import HatP.KeyIndexFile
import HatP.Levels
import HatP.MemtableBackends
import HatP.ReadPruning
import HatP.RowCounts
import HatP.Rows.ColumnScan
import HatP.Rows.Narrow
import HatP.Tables.DeleteByKey
import HatP.Tables.Pushdown
import HatP.Tables.Recreated
import HatP.Tx.BeginWindow
import HatP.Tx.BufferedReads
import HatP.Tx.Cycles
import HatP.Tx.Retry
import HatP.Tx.TxIds
import HatP.VersionHistory
import HatP.Wal.BitFlips
import HatP.Wal.Timestamps
import HatP.Wal.TornTail
import HatP.Watch.Resolved
