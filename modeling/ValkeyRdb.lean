import ValkeyRdb.Lib.Bytes
import ValkeyRdb.Lib.ReadAction
import ValkeyRdb.Lib.ReadRules
import ValkeyRdb.Lib.Ieee
import ValkeyRdb.Lib.Text
import ValkeyRdb.Types
import ValkeyRdb.Crc64
import ValkeyRdb.Compact
import ValkeyRdb.Listpack
import ValkeyRdb.Ziplist
import ValkeyRdb.Intset
import ValkeyRdb.Lzf
import ValkeyRdb.Stream
import ValkeyRdb.Reader.Primitives
import ValkeyRdb.Reader.Values
import ValkeyRdb.Lib.SortedMap
import ValkeyRdb.Lib.StateAction
import ValkeyRdb.Lib.GuardedAction
import ValkeyRdb.Reader.Iterator
import ValkeyRdb.Reader.Laws
import ValkeyRdb.Reader.Checksum
import ValkeyRdb.Reader.Safety
import ValkeyRdb.Reader.Termination
import ValkeyRdb.Reader.Rewiring
import ValkeyRdb.Reader.Prefix
import ValkeyRdb.Reader.Chunking
import ValkeyRdb.Lib.Encodings
import ValkeyRdb.Format.Lzf
import ValkeyRdb.Format.Strings
import ValkeyRdb.Format.Listpack
import ValkeyRdb.Format.Ziplist
import ValkeyRdb.Format.Stream
import ValkeyRdb.Format.Collections
import ValkeyRdb.Format.Modules
import ValkeyRdb.Format.StreamValue
import ValkeyRdb.Format.Values
import ValkeyRdb.Format.ListpackWalk
import ValkeyRdb.Reader.Bounds
import ValkeyRdb.Reader.Preamble
import ValkeyRdb.Format.Opcodes
import ValkeyRdb.Format.Records
import ValkeyRdb.Format.File
import ValkeyRdb.Format.WholeFile
import ValkeyRdb.Format.Objects
import ValkeyRdb.Format.Skipped
import ValkeyRdb.Lib.Columns
import ValkeyRdb.Arrow.Detect
import ValkeyRdb.Arrow.Schema
import ValkeyRdb.Arrow.Builders
import ValkeyRdb.Arrow.Rows
import ValkeyRdb.Arrow.Batcher
import ValkeyRdb.Arrow.Conservation
import ValkeyRdb.Lib.LoopIterator
import ValkeyRdb.Lib.Outcomes
import ValkeyRdb.Arrow.BatchRun
import ValkeyRdb.Arrow.Summarize
import ValkeyRdb.Arrow.Writer
import ValkeyRdb.Cli.Export
import ValkeyRdb.Lib.Windows
import ValkeyRdb.Reader.Pieces
import ValkeyRdb.Arrow.PieceRows
import ValkeyRdb.Arrow.ChunkSettings
import ValkeyRdb.Arrow.EntryLimit
import ValkeyRdb.Arrow.Metadata
import ValkeyRdb.Cli.Validate
import ValkeyRdb.Cli.ExportValidate
import ValkeyRdb.Lib.ShiftRegister
import ValkeyRdb.Crc64.Serial
import ValkeyRdb.Format.ZiplistBlobs
import ValkeyRdb.Format.LzfMeaning
import ValkeyRdb.Format.StreamAccepted
import ValkeyRdb.Format.StreamPayload
import ValkeyRdb.Format.StringForms
import ValkeyRdb.Format.ModuleSkip
import ValkeyRdb.Lib.SpacedBits
import ValkeyRdb.Arrow.Deinterleave
import ValkeyRdb.Format.ModuleIds
import ValkeyRdb.Arrow.Appends
import ValkeyRdb.Arrow.ColumnBytes
import ValkeyRdb.Arrow.Estimate
import ValkeyRdb.Arrow.BuilderRun
import ValkeyRdb.Arrow.Thresholds
import ValkeyRdb.Arrow.Capacity
import ValkeyRdb.Arrow.Offsets
import ValkeyRdb.Format.Intset
import ValkeyRdb.Lib.LossyText
import ValkeyRdb.Cli.ParquetFiles
import ValkeyRdb.Reader.ChunkErrors
import ValkeyRdb.Arrow.SummaryTotals
import ValkeyRdb.Lib.Cells
import ValkeyRdb.Lib.NameList
import ValkeyRdb.Lib.ValidText
import ValkeyRdb.Arrow.TypeNames
import ValkeyRdb.Arrow.WriterLog
import ValkeyRdb.Arrow.WriterInvariant
import ValkeyRdb.Cli.OutputFiles
import ValkeyRdb.Cli.Sharded
import ValkeyRdb.Cli.Errors
import ValkeyRdb.Cli.Args
import ValkeyRdb.Cli.ExportRun
import ValkeyRdb.Cli.ExportOutcome
import ValkeyRdb.Cli.ExportFiles
import ValkeyRdb.Cli.ValidateRun
import ValkeyRdb.Cli.Shares
import ValkeyRdb.Cli.ShardedValidate
import ValkeyRdb.Arrow.WriterMatch
import ValkeyRdb.Arrow.WriterUnwind
import ValkeyRdb.Python.Bindings
import ValkeyRdb.Python.Reading
import ValkeyRdb.Python.Agreement
import ValkeyRdb.Python.Inspect
import ValkeyRdb.Cli.Truncated
import ValkeyRdb.Cli.Interrupted
