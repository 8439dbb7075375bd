import ValkeyRdb.Arrow.WriterUnwind
import ValkeyRdb.Cli.Args
import ValkeyRdb.Cli.Errors
import ValkeyRdb.Cli.Export

/-!
# The export command (export.rs, args.rs, writer.rs:101-245)

The file system and the libraries of the formats are parameters; they act on a state `ω` of
their own and may fail at any call.
-/

namespace ValkeyRdb.Cli

/-! ### Compression -/

inductive Compression where
  | zstd
  | snappy
  | lz4
  | lz4Raw
  | gzip
  | uncompressed
  deriving DecidableEq

/-- writer.rs:122 -/
def parseCompression (name : List Char) : Except String Compression :=
  match String.ofList (toAsciiLowercase name) with
  | "zstd" => .ok .zstd
  | "snappy" => .ok .snappy
  | "lz4" => .ok .lz4
  | "lz4-raw" | "lz4_raw" => .ok .lz4Raw
  | "gzip" => .ok .gzip
  | "none" => .ok .uncompressed
  | other => .error ("unknown compression: '" ++ other ++
      "'. Valid: zstd, snappy, lz4, lz4-raw, gzip, none")

/-- args.rs:141 -/
inductive CompressionArg where
  | zstd
  | snappy
  | lz4
  | lz4Raw
  | gzip
  | none

/-- args.rs:157 -/
def CompressionArg.asName : CompressionArg → String
  | .zstd => "zstd"
  | .snappy => "snappy"
  | .lz4 => "lz4"
  | .lz4Raw => "lz4-raw"
  | .gzip => "gzip"
  | .none => "none"

/-- args.rs:168; the `expect` is a panic. -/
def CompressionArg.toParquetCompression (c : CompressionArg) : Res Compression :=
  match parseCompression c.asName.toList with
  | .ok compression => .ok compression
  | .error _ => .error .panic

theorem toParquetCompression_ok (c : CompressionArg) : ∃ x, c.toParquetCompression = .ok x := by
  cases c
  · exact ⟨.zstd, by decide⟩
  · exact ⟨.snappy, by decide⟩
  · exact ⟨.lz4, by decide⟩
  · exact ⟨.lz4Raw, by decide⟩
  · exact ⟨.gzip, by decide⟩
  · exact ⟨.uncompressed, by decide⟩

/-- writer.rs:101 -/
structure ParquetConfig where
  compression : Compression
  maxRowGroupSize : Nat
  fileMetadata : SortedMap String String

/-! ### The system -/

/-- An error of a writer, which has nothing to do with the parser. -/
def ArrowConvertError.OfWriter {ε : Type} : ArrowConvertError ε → Prop
  | .parser _ => False
  | _ => True

/-- A writer library: what `open`, `write` and `close` of one format do. -/
structure FormatLibrary (ω W R ε : Type) where
  openWriter : TypeTag → W → StateAction ω (ArrowConvertError ε) R
  write : R → RecordBatch → ω → Except (ArrowConvertError ε) Unit × R × ω
  close : R → StateAction ω (ArrowConvertError ε) Unit
  openWriter_error : ∀ {tag raw w e w'}, openWriter tag raw w = (.error e, w') → e.OfWriter
  write_error : ∀ {writer batch w e writer' w'}, write writer batch w = (.error e, writer', w') →
    e.OfWriter
  close_error : ∀ {writer w e w'}, close writer w = (.error e, w') → e.OfWriter

structure ExportSystem (ω W R ε : Type) extends System ω where
  createDirAll : Bytes → StateAction ω IoError Unit
  createFile : Bytes → StateAction ω IoError W
  parquet : ParquetConfig → FormatLibrary ω W R ε
  arrowIpc : FormatLibrary ω W R ε
  csv : FormatLibrary ω W R ε
  json : FormatLibrary ω W R ε

/-! ### Arguments -/

/-- args.rs:54. Text that is parsed is a string, other text is its bytes. -/
structure ExportArgs where
  file : Bytes
  output : Option Bytes
  format : FormatArg
  compression : CompressionArg
  db : Option Nat
  typeNames : Option String
  keyPattern : Option Bytes
  batchSize : Nat
  rowGroupSize : Nat
  shardId : Option Bytes
  maxKeyElements : Option ℕ+
  noChunking : Bool
  batchBytes : Option Nat
  maxEntryBytes : Option Nat
  heuristic : String

namespace ExportArgs

/-- export.rs:20-23 -/
def parsedTypes (args : ExportArgs) : Except String (Option (Finset TypeTag)) :=
  match args.typeNames with
  | some names => some <$> TypeTag.parseSet names
  | none => .ok none

def shardIdMessage : String := "shard-id must be non-empty and contain only [A-Za-z0-9_-]"

/-- What is checked before the input is opened (export.rs:20-33). -/
def checked (args : ExportArgs) : Except String (Option (Finset TypeTag) × Finset Heuristic) :=
  match args.parsedTypes with
  | .error e => .error e
  | .ok typeTags =>
    if args.shardId.any (fun s => !shardIdOk s) = true then .error shardIdMessage
    else
      match Heuristic.parseSet args.heuristic with
      | .error e => .error e
      | .ok heuristics => .ok (typeTags, heuristics)

/-- The arguments of the pipeline, once those two sets are parsed. -/
def pipeline (args : ExportArgs) (typeTags : Option (Finset TypeTag))
    (heuristics : Finset Heuristic) : ValkeyRdb.ExportArgs where
  db := args.db
  typeTags := typeTags
  keyPattern := args.keyPattern
  heuristics := heuristics
  noChunking := args.noChunking
  maxKeyElements := args.maxKeyElements
  batchSize := args.batchSize
  batchBytes := args.batchBytes
  maxEntryBytes := args.maxEntryBytes

/-- `Path::file_name`: the last component, unless that is `..` or there is none. -/
def fileName (path : Bytes) : Option Bytes :=
  match ((path.splitOn 47).filter fun c => c != [] && c != [46]).getLast? with
  | none => none
  | some name => if name = [46, 46] then none else some name

/-- `Path::file_stem`: what is before the last dot, unless that is the first byte. -/
def fileStem (path : Bytes) : Option Bytes :=
  (fileName path).map fun name =>
    let before := (name.rdropWhile (· != 46)).dropLast
    if before = [] then name else before

def defaultDir : Bytes := asciiBytes "rdb_export"

/-- export.rs:46-61 -/
def outputDir (args : ExportArgs) : Bytes :=
  match args.output with
  | some dir => dir
  | none =>
    if args.file = [45] then defaultDir
    else
      match fileStem args.file with
      | some stem => if stem = [] then defaultDir else stem
      | none => defaultDir

/-- export.rs:129 -/
def filename (args : ExportArgs) (tag : TypeTag) : Bytes :=
  tag.asStr ++ shardSuffix args.shardId ++ dot ++ args.format.ext

end ExportArgs

/-! ### The run -/

section Run

variable {ω W R ε : Type}

/-- An error of the batches as an error of the pipeline, for batches made of this source. -/
def ofBatchError (source : RdbInput) : BatchError ε → ArrowConvertError ε
  | .fault f => .parser (source.fault f)
  | .arrow e => .arrow e

/-- Not an error that the pipeline is handed, but a pull that did not return. -/
def ArrowConvertError.unwinds : ArrowConvertError ε → Bool
  | .parser .panic => true
  | .parser .diverge => true
  | _ => false

/-- `writer_factory` (export.rs:128). -/
def writerFactory (sys : ExportSystem ω W R ε) (args : ExportArgs) (tag : TypeTag) :
    StateAction ω (ArrowConvertError ε) W := fun w =>
  let path := joinPath args.outputDir (args.filename tag)
  match sys.createFile path w with
  | (.ok raw, w') => (.ok raw, w')
  | (.error e, w') => (.error (.io (ioContext path e)), w')

def formatLibrary (sys : ExportSystem ω W R ε) (args : ExportArgs) (config : ParquetConfig) :
    FormatLibrary ω W R ε :=
  match args.format with
  | .parquet => sys.parquet config
  | .arrowIpc => sys.arrowIpc
  | .csv => sys.csv
  | .json => sys.json

/-- The callbacks of `write_parquet` and the other three. -/
def exportCallbacks (sys : ExportSystem ω W R ε) (args : ExportArgs) (config : ParquetConfig) :
    Callbacks ω W R (ArrowConvertError ε) (ArrowConvertError ε) where
  factory := writerFactory sys args
  openWriter := (formatLibrary sys args config).openWriter
  write := (formatLibrary sys args config).write
  close := (formatLibrary sys args config).close

/-- The batches that the pipeline pulls; every loop gets `n` rounds. -/
def exportItems (tryNew : TryNew ε) (globMatch : Bytes → Bytes → Bool)
    (args : ValkeyRdb.ExportArgs) (source : RdbInput) (reader : RdbReader) (n : Nat) :
    List (Except (ArrowConvertError ε) TypedBatch) :=
  (collect (exportBatches tryNew globMatch args.filter RdbReader.next n) n
    ((ArrowBatcher.new args.config).process (args.reader reader))).1.map
      (Except.mapError (ofBatchError source))

/-- export.rs:18 -/
def exportRun (sys : ExportSystem ω W R ε) (tryNew : TryNew ε) (globMatch : Bytes → Bytes → Bool)
    (n : Nat) (args : ExportArgs) : StateAction ω (Failure ε) Unit := fun w =>
  match args.checked with
  | .error e => (.error (.error (.usage e)), w)
  | .ok (typeTags, heuristics) =>
    match buildRdbReader sys.toSystem args.file w with
    | (.error e, w) => (.error e, w)
    | (.ok (source, reader), w) =>
      match sys.createDirAll args.outputDir w with
      | (.error e, w) => (.error (.error (.io e)), w)
      | (.ok (), w) =>
        match args.compression.toParquetCompression with
        | .error f => (.error (.ofFault f), w)
        | .ok compression =>
          let config := ⟨compression, args.rowGroupSize, metadataFromRdb reader.metadata heuristics⟩
          let items := exportItems tryNew globMatch (args.pipeline typeTags heuristics) source reader n
          match runUnwinding ArrowConvertError.unwinds (exportCallbacks sys args config) id items w with
          | (.error e, w) => (.error (.ofConvert e), w)
          | (.ok (), w) => (.ok (), w)

end Run

end ValkeyRdb.Cli
