import ValkeyRdb.Arrow.Summarize
import ValkeyRdb.Cli.ExportRun

/-!
# The Python module (python/src/lib.rs)

The conversions to objects of Python and of PyArrow are left out: a batch is the batch it
is made from.
-/

namespace ValkeyRdb

/-! ### What errors say (types.rs:15-21, 298-308, error.rs:16) -/

def RdbMagic.text : RdbMagic → String
  | .redis => "REDIS"
  | .valkey => "VALKEY"

/-- What `read_exact` says, or the read that failed. -/
def IoErrorKind.text : IoErrorKind → String
  | .unexpectedEof => "failed to fill whole buffer"
  | .other text => text

def RdbError.text : RdbError → String
  | .io e => "I/O error: " ++ e.text
  | .invalidMagic => "invalid RDB magic string"
  | .unsupportedVersion v => "unsupported RDB version: " ++ toString v
  | .corruptData msg => "corrupt RDB data: " ++ msg
  | .unknownType t => "unknown RDB type code: " ++ toString t.toNat

/-- types.rs:45 -/
def RdbMetadata.serverVersion (metadata : RdbMetadata) : Option Bytes :=
  (metadata.aux.get? (asciiBytes "valkey-ver")).or (metadata.aux.get? (asciiBytes "redis-ver"))

namespace Python

open Cli (IoError RdbInput System ExportSystem ParquetConfig Compression parseCompression joinPath
  ofBatchError)

/-- An exception, with its message. -/
inductive PyErr where
  | osError (message : String)
  | valueError (message : String)
  | runtimeError (message : String)
  deriving DecidableEq

/-- How a call from Python can fail. -/
inductive Failure where
  | raised (e : PyErr)
  | panic
  | diverge
  deriving DecidableEq

abbrev PyResult := Except Failure

/-- `rdb_to_py_err` (lib.rs:299), for an error or a panic. -/
def rdbToPyErr : Fault → Failure
  | .error (.io e) => .raised (.osError e.text)
  | .error other => .raised (.valueError other.text)
  | .panic => .panic
  | .diverge => .diverge

section Errors

variable {ε : Type} (errorText : ε → String)

/-- `arrow_to_py_err` (lib.rs:308); `errorText` is what an error of Arrow or Parquet says. -/
def arrowToPyErr : Cli.ArrowConvertError ε → Failure
  | .io e => .raised (.osError e.text)
  | .parser f => rdbToPyErr f
  | .arrow e => .raised (.runtimeError ("Arrow error: " ++ errorText e))
  | .parquet e => .raised (.runtimeError ("Parquet error: " ++ errorText e))

/-- lib.rs:177 -/
inductive ThreadError (ε : Type) where
  | io (e : IoError)
  | rdb (f : Fault)
  | arrow (e : Cli.ArrowConvertError ε)

/-- lib.rs:183 -/
def ThreadError.toPyErr : ThreadError ε → Failure
  | .io e => .raised (.osError e.text)
  | .rdb f => rdbToPyErr f
  | .arrow e => arrowToPyErr errorText e

end Errors

/-! ### Arguments -/

/-- The arguments that `read`, `read_batches` and `to_parquet` share. -/
structure ReadArgs where
  path : Bytes
  batchSize : Nat
  noChunking : Bool
  batchBytes : Option Nat
  maxEntryBytes : Option Nat
  heuristic : String

/-- lib.rs:17 -/
def parseHeuristics (s : String) : PyResult (Finset Heuristic) :=
  match Heuristic.parseSet s with
  | .ok heuristics => .ok heuristics
  | .error e => .error (.raised (.valueError e))

/-- lib.rs:21 -/
def makeBatcherConfig (batchSize : Nat) (batchBytes maxEntryBytes : Option Nat)
    (heuristics : String) : PyResult BatcherConfig :=
  if batchSize = 0 then .error (.raised (.valueError "batch_size must be > 0"))
  else
    match parseHeuristics heuristics with
    | .error e => .error e
    | .ok heuristics =>
      .ok {
        batchSize := batchSize
        batchBytes := match batchBytes with
          | some bb => some bb
          | none => BatcherConfig.default.batchBytes
        maxEntryBytes := maxEntryBytes
        heuristics := heuristics }

def ReadArgs.config (args : ReadArgs) : PyResult BatcherConfig :=
  makeBatcherConfig args.batchSize args.batchBytes args.maxEntryBytes args.heuristic

section Run

variable {ω W R ε : Type} (errorText : ε → String)

/-- `File::open`, `RdbReader::new` and `without_chunking` (lib.rs:73-79, 128-134, 225-231). -/
def openReader (sys : System ω) (path : Bytes) (noChunking : Bool) :
    StateAction ω (ThreadError ε) (RdbInput × RdbReader) := fun w =>
  match sys.openInput path w with
  | (.error e, w) => (.error (.io e), w)
  | (.ok source, w) =>
    match RdbReader.new source.bytes with
    | .error f => (.error (.rdb (source.fault f)), w)
    | .ok reader => (.ok (source, if noChunking = true then reader.withoutChunking else reader), w)

/-- The items of `batcher.process(reader)`, one call of `next` at a time. -/
def batchNext (tryNew : TryNew ε) (source : RdbInput) (n : Nat) (it : BatchIterator RdbReader) :
    Option (Except (Cli.ArrowConvertError ε) TypedBatch) × BatchIterator RdbReader :=
  let (x, it) := BatchIterator.next tryNew RdbReader.next n it
  (x.map (Except.mapError (ofBatchError source)), it)

/-! ### `read_batches` -/

/-- `BatchReader` (lib.rs:148); the state behind the boxed iterator, and what it reads. -/
structure BatchReader where
  source : RdbInput
  inner : BatchIterator RdbReader

/-- `__next__` (lib.rs:156); `none` is the end of the iteration. -/
def BatchReader.next (tryNew : TryNew ε) (n : Nat) (it : BatchReader) :
    Option (PyResult (Bytes × RecordBatch)) × BatchReader :=
  match batchNext tryNew it.source n it.inner with
  | (some (.ok t), inner) => (some (.ok (t.tag.asStr, t.batch)), ⟨it.source, inner⟩)
  | (some (.error e), inner) => (some (.error (arrowToPyErr errorText e)), ⟨it.source, inner⟩)
  | (none, inner) => (none, ⟨it.source, inner⟩)

/-- lib.rs:114 -/
def readBatches (sys : System ω) (args : ReadArgs) : StateAction ω Failure BatchReader := fun w =>
  match args.config with
  | .error e => (.error e, w)
  | .ok config =>
    match openReader (ε := ε) sys args.path args.noChunking w with
    | (.error e, w) => (.error (e.toPyErr errorText), w)
    | (.ok (source, reader), w) => (.ok ⟨source, (ArrowBatcher.new config).process reader⟩, w)

/-! ### `read` -/

/-- The loop over the batches (lib.rs:84-91), for at most `n` of them. -/
def perTypeLoop (next : BatchIterator RdbReader →
      Option (Except (Cli.ArrowConvertError ε) TypedBatch) × BatchIterator RdbReader) :
    Nat → BatchIterator RdbReader → SortedMap TypeTag (List RecordBatch) →
      Except (ThreadError ε) (SortedMap TypeTag (List RecordBatch))
  | 0, _, _ => .error (.rdb .diverge)
  | n + 1, it, perType =>
    match next it with
    | (none, _) => .ok perType
    | (some (.error e), _) => .error (.arrow e)
    | (some (.ok t), it) =>
      perTypeLoop next n it (perType.upsert t.tag fun batches => batches.getD [] ++ [t.batch])

/-- The dictionary from the names of the types (lib.rs:94-108). -/
def tableDict (perType : SortedMap TypeTag (List RecordBatch)) : List (Bytes × List RecordBatch) :=
  perType.entries.map fun entry => (entry.1.asStr, entry.2)

/-- lib.rs:52 -/
def read (sys : System ω) (tryNew : TryNew ε) (n : Nat) (args : ReadArgs) :
    StateAction ω Failure (List (Bytes × List RecordBatch)) := fun w =>
  match args.config with
  | .error e => (.error e, w)
  | .ok config =>
    match openReader (ε := ε) sys args.path args.noChunking w with
    | (.error e, w) => (.error (e.toPyErr errorText), w)
    | (.ok (source, reader), w) =>
      match perTypeLoop (batchNext tryNew source n) n ((ArrowBatcher.new config).process reader) .empty with
      | .error e => (.error (e.toPyErr errorText), w)
      | .ok perType => (.ok (tableDict perType), w)

/-! ### `to_parquet` -/

structure ToParquetArgs extends ReadArgs where
  outputDir : Bytes
  compression : String
  rowGroupSize : Nat

/-- The checks before the file is opened (lib.rs:211-219). -/
def ToParquetArgs.checked (args : ToParquetArgs) : PyResult (BatcherConfig × Compression) :=
  match args.config with
  | .error e => .error e
  | .ok config =>
    if args.rowGroupSize = 0 then .error (.raised (.valueError "row_group_size must be > 0"))
    else
      match parseCompression args.compression.toList with
      | .error e => .error (.raised (.valueError e))
      | .ok compression => .ok (config, compression)

/-- lib.rs:246 -/
def parquetFilename (tag : TypeTag) : Bytes := tag.asStr ++ asciiBytes ".parquet"

/-- `writer_factory` (lib.rs:245). -/
def writerFactory (sys : ExportSystem ω W R ε) (outputDir : Bytes) (tag : TypeTag) :
    StateAction ω (Cli.ArrowConvertError ε) W := fun w =>
  match sys.createFile (joinPath outputDir (parquetFilename tag)) w with
  | (.ok file, w) => (.ok file, w)
  | (.error e, w) => (.error (.io e), w)

/-- The callbacks of `write_parquet`. -/
def parquetCallbacks (sys : ExportSystem ω W R ε) (outputDir : Bytes) (config : ParquetConfig) :
    Callbacks ω W R (Cli.ArrowConvertError ε) (Cli.ArrowConvertError ε) where
  factory := writerFactory sys outputDir
  openWriter := (sys.parquet config).openWriter
  write := (sys.parquet config).write
  close := (sys.parquet config).close

/-- lib.rs:198 -/
def toParquet (sys : ExportSystem ω W R ε) (tryNew : TryNew ε) (n : Nat) (args : ToParquetArgs) :
    StateAction ω Failure Unit := fun w =>
  match args.checked with
  | .error e => (.error e, w)
  | .ok (batcherConfig, compression) =>
    match openReader (ε := ε) sys.toSystem args.path args.noChunking w with
    | (.error e, w) => (.error (e.toPyErr errorText), w)
    | (.ok (source, reader), w) =>
      let metadata := metadataFromRdb reader.metadata batcherConfig.heuristics
      let config : ParquetConfig := ⟨compression, args.rowGroupSize, metadata⟩
      match sys.createDirAll args.outputDir w with
      | (.error e, w) => (.error (ThreadError.toPyErr errorText (.io e)), w)
      | (.ok (), w) =>
        let batches := (collect (batchNext tryNew source n) n
          ((ArrowBatcher.new batcherConfig).process reader)).1
        match runUnwinding Cli.ArrowConvertError.unwinds (parquetCallbacks sys args.outputDir config) id
          batches w with
        | (.error e, w) => (.error (ThreadError.toPyErr errorText (.arrow e)), w)
        | (.ok (), w) => (.ok (), w)

/-! ### `inspect` -/

structure DbDict where
  db : Nat
  keys : Nat
  types : List (Bytes × Nat)
  deriving DecidableEq

structure InspectDict where
  magic : String
  rdbVersion : Nat
  serverVersion : Option Bytes
  totalKeys : Nat
  dbs : List DbDict
  deriving DecidableEq

/-- lib.rs:274-296 -/
def inspectDict (summary : EntrySummary) : InspectDict where
  magic := summary.header.magic.text
  rdbVersion := summary.header.version
  serverVersion := summary.metadata.serverVersion
  totalKeys := summary.totalKeys
  dbs := summary.perDb.entries.map fun entry =>
    { db := entry.1
      keys := (summary.perDbKeys.get? entry.1).getD 0
      types := entry.2.entries.map fun count => (count.1.asStr, count.2) }

/-- lib.rs:264 -/
def inspect (sys : System ω) (path : Bytes) (heuristic : String) : StateAction ω Failure InspectDict :=
  fun w =>
    match parseHeuristics heuristic with
    | .error e => (.error e, w)
    | .ok heuristics =>
      match sys.openInput path w with
      | (.error e, w) => (.error (ThreadError.toPyErr errorText (.io e)), w)
      | (.ok source, w) =>
        match RdbReader.new source.bytes with
        | .error f => (.error (ThreadError.toPyErr errorText (.rdb (source.fault f))), w)
        | .ok reader =>
          match summarizeEntries reader heuristics with
          | .error f => (.error (ThreadError.toPyErr errorText (.rdb (source.fault f))), w)
          | .ok summary => (.ok (inspectDict summary), w)

end Run

end Python

end ValkeyRdb
