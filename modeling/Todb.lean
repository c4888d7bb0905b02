import Todb.Library.Run
import Todb.Library.ByteCodec
import Todb.Library.Search
import Todb.Library.Cursor
import Todb.Library.Place
import Todb.Library.Packing
import Todb.Model.Storage.Fault
import Todb.Model.Storage.Block
import Todb.Model.Sst.BlockIter
import Todb.Model.Sst.Footer
import Todb.Model.Sst.SstIter
import Todb.Model.Sst.Builder
import Todb.Verification.Storage.Files
import Todb.Verification.Sst.BlockCursor
import Todb.Verification.Sst.CorruptBlocks
import Todb.Verification.Sst.EntryHeaders
import Todb.Verification.Sst.Footer
import Todb.Verification.Sst.IndexTree
import Todb.Verification.Sst.Iterator
import Todb.Verification.Sst.BlockCodec
import Todb.Verification.Sst.Tower
import Todb.Verification.Sst.Building
import Todb.Verification.Sst.Finish
import Todb.Verification.Sst.RoundTrip
import Todb.Verification.Sst.Reseek
import Todb.Library.SortedMap
import Todb.Library.Machine
import Todb.Model.Memtable
import Todb.Model.Wal.Frame
import Todb.Model.Wal.Config
import Todb.Model.Wal.Segment
import Todb.Model.Wal.IndexFile
import Todb.Model.Wal.Buffer
import Todb.Model.Wal.Threads
import Todb.Model.Wal.Flush
import Todb.Model.Wal.System
import Todb.Model.Wal.Snapshot
import Todb.Verification.Wal.Effects
import Todb.Verification.Wal.Ownership
import Todb.Verification.Wal.Numbering
import Todb.Verification.Wal.Chain
import Todb.Verification.Wal.Conservation
import Todb.Verification.Wal.Ranges
import Todb.Verification.Wal.Contents
import Todb.Verification.Wal.IndexFile
import Todb.Verification.Sst.Totality
import Todb.Verification.Wal.SealedIndex
import Todb.Verification.Sst.BlockFormat
import Todb.Verification.Sst.Assertions
import Todb.Verification.Sst.OneBlock
import Todb.Model.Wal.IndexReader
import Todb.Verification.Wal.IndexReader
import Todb.Verification.Wal.Frame
import Todb.Library.Crash
import Todb.Library.Spans
import Todb.Model.Wal.Meta
import Todb.Verification.Wal.Meta
import Todb.Model.Wal.SegmentLife
import Todb.Verification.Wal.SealOrder
import Todb.Verification.Wal.Segments
import Todb.Verification.Wal.Solo
import Todb.Verification.Wal.Termination
import Todb.Verification.Wal.Stored
import Todb.Verification.Wal.Barrier
import Todb.Verification.Wal.Snapshot
import Todb.Model.Wal.FlushBuffer
import Todb.Verification.Wal.FlushBuffer
import Todb.Verification.Wal.Accounting
import Todb.Model.Wal.Disk
import Todb.Model.Wal.Iter
import Todb.Verification.Wal.BufferPool
import Todb.Verification.Wal.IterPins
import Todb.Model.Lsm.State
import Todb.Model.Lsm.Store
import Todb.Model.Iterators.Merge
import Todb.Model.Lsm.Scan
import Todb.Library.Bisimulation
import Todb.Verification.Iterators.Alike
import Todb.Library.Merge
import Todb.Verification.Iterators.Memtable
import Todb.Verification.Iterators.Merge
import Todb.Verification.Iterators.Lost
import Todb.Verification.Iterators.TwoMerge
import Todb.Verification.Iterators.Concat
import Todb.Verification.Lsm.RangeScan
import Todb.Verification.Lsm.Atomicity
import Todb.Verification.Lsm.Steps
import Todb.Verification.Lsm.FlushOrder
import Todb.Verification.Lsm.Retention
import Todb.Verification.Lsm.Recency
import Todb.Verification.Lsm.Flushable
import Todb.Verification.Lsm.FailedWrites
import Todb.Model.Storage.MetaManager
import Todb.Verification.Storage.Routing
import Todb.Model.Server.SchemaProvider
import Todb.Verification.Server.SchemaProvider
import Todb.Verification.Wal.Shutdown
import Todb.Verification.Wal.Padding
import Todb.Verification.Wal.OneCaller
import Todb.Verification.Wal.AppendOrder
import Todb.Verification.Wal.FlushProgress
import Todb.Verification.Wal.OneRun
import Todb.Verification.Wal.EndToEnd
import Todb.Verification.Sst.BlockSearch
import Todb.Verification.Wal.Encodings
import Todb.Verification.Wal.Assembly
import Todb.Verification.Wal.Claims
import Todb.Verification.Wal.ScanContract
import Todb.Verification.Sst.Repositioned
import Todb.Verification.Iterators.Endless
import Todb.Verification.Lsm.Files
import Todb.Verification.Lsm.Merged
import Todb.Verification.Lsm.LastWriter
import Todb.Model.Lsm.Shards
import Todb.Model.Storage.Database
import Todb.Verification.Sst.Writers
import Todb.Verification.Lsm.SharedDisk
import Todb.Verification.Lsm.Alone
import Todb.Verification.Lsm.WriteAhead
import Todb.Verification.Storage.Logs
import Todb.Verification.Storage.Tables
