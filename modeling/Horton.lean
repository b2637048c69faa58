import Horton.Lib.Bytes
import Horton.Lib.Device
import Horton.Lib.Reads
import Horton.Lib.Search
import Horton.Lib.Newest
import Horton.Lib.Spans
import Horton.Lib.ShiftRegister
import Horton.Lib.Packing
import Horton.Lib.Reader
import Horton.Lib.GroupLog
import Horton.Basic
import Horton.Crc
import Horton.Compress
import Horton.Compress.Buffer
import Horton.MemTable
import Horton.MemTable.Refine
import Horton.Wal.Record
import Horton.Wal.Writer
import Horton.Wal.Scan
import Horton.Wal.Tear
import Horton.Wal.Region
import Horton.Wal.Stage
import Horton.Batch
import Horton.Wal.Log
import Horton.Wal.Refine
import Horton.Lib.Journal
import Horton.Wal.Calls
import Horton.Wal.Moves
import Horton.Wal.Batches
import Horton.KeyBound
import Horton.Manifest.Basic
import Horton.Manifest.Codec
import Horton.Manifest.Blocks
import Horton.Manifest.Recover
import Horton.Manifest.Commit
import Horton.Manifest.Crash
import Horton.Manifest.Agreement
import Horton.Manifest.Retry
import Horton.Sstable.Format
import Horton.Sstable.Writer
import Horton.Sstable.Reader
import Horton.Sstable.Seal
import Horton.Sstable.Layout
import Horton.Sstable.Lookup
import Horton.Slots
import Horton.Db.Basic
import Horton.Db.Layout
import Horton.Db.Write
import Horton.Db.Flush
import Horton.Db.Open
import Horton.Ring.Basic
import Horton.Ring.Unbounded
import Horton.Ring.Trace
import Horton.Ring.Safety
import Horton.Ring.Simulation
import Horton.Ring.Refine
import Horton.Ring.Release
import Horton.Drainer.Payload
import Horton.Drainer.Basic
import Horton.Drainer.Account
import Horton.Drainer.Sweep
import Horton.Drainer.Watermark
import Horton.Drainer.Capacity
import Horton.Db.Commit
import Horton.Db.Staged
import Horton.Db.Frame
import Horton.Db.Healthy
import Horton.Db.Recovery
import Horton.Db.Run
import Horton.Db.Replayed
import Horton.Sstable.Extent
import Horton.Sstable.Packed
import Horton.Sstable.Rdel
import Horton.Sstable.Agreement
import Horton.Sstable.Capacity
import Horton.MemTable.Checked
import Horton.Sstable.RdelReader
import Horton.Db.Bounded
import Horton.Compact.Cursor
import Horton.Compact.RdelMerger
import Horton.Compact.RdelJob
import Horton.Wal.Replay
import Horton.Db.Reached
import Horton.Db.Legal
import Horton.Db.Flushable
import Horton.Db.Read
import Horton.Db.Sources
import Horton.Lib.Heads
import Horton.Lib.Reading
import Horton.Scan.Basic
import Horton.Scan.Answer
import Horton.Scan.Blocks
import Horton.Scan.Parked
import Horton.Scan.Cursor
import Horton.Scan.Merge
import Horton.Scan.Forward
import Horton.Scan.RevBlock
import Horton.Scan.RevCursor
import Horton.Scan.Reverse
import Horton.Scan.Agreement
import Horton.Store.Log
import Horton.Store.Sources
import Horton.Store.Parts
import Horton.Store.Table
import Horton.Store.Placed
import Horton.Store.Stored
import Horton.Store.Live
import Horton.Store.Flushed
import Horton.Store.Reopened
import Horton.Lib.OpenSpans
import Horton.Compact.Coverage
import Horton.Compact.KeepSet
import Horton.Compact.KeepModel
import Horton.Lib.Simulation
import Horton.Store.Runs
