import ValkeyRdb.Python.Reading

/-!
# `to_parquet` and the export command (python/src/lib.rs:198-255, export.rs)

The two do the same to the machine under the same settings, and fail together. They differ
in what a failure looks like: the command names the file that could not be opened, and has
an exit status of its own for a file that is cut off.
-/

namespace ValkeyRdb.Python

open Cli (IoError RdbInput ExportSystem ParquetConfig Compression CompressionArg parseCompression
  joinPath ioContext exportRun exportCallbacks pulled readerItems openRdbInput)

/-- The arguments of the command with the same settings. -/
def ToParquetArgs.exportArgs (args : ToParquetArgs) (compression : CompressionArg) :
    Cli.ExportArgs where
  file := args.path
  output := some args.outputDir
  format := .parquet
  compression := compression
  db := none
  typeNames := none
  keyPattern := none
  batchSize := args.batchSize
  rowGroupSize := args.rowGroupSize
  shardId := none
  maxKeyElements := none
  noChunking := args.noChunking
  batchBytes := args.batchBytes
  maxEntryBytes := args.maxEntryBytes
  heuristic := args.heuristic

/-- Every codec has a name on the command line. -/
def compressionArg : Compression → CompressionArg
  | .zstd => .zstd
  | .snappy => .snappy
  | .lz4 => .lz4
  | .lz4Raw => .lz4Raw
  | .gzip => .gzip
  | .uncompressed => .none

theorem toParquetCompression_compressionArg (c : Compression) :
    (compressionArg c).toParquetCompression = .ok c := by
  cases c <;> decide

section Checks

variable {args : ToParquetArgs}

theorem ToParquetArgs.checked_ok {config : BatcherConfig} {compression : Compression}
    (h : args.checked = .ok (config, compression)) : args.config = .ok config := by
  unfold ToParquetArgs.checked at h
  cases hc : args.config with
  | error e =>
    simp only [hc] at h
    cases h
  | ok config' =>
    simp only [hc] at h
    split at h
    · cases h
    · cases hp : parseCompression args.compression.toList with
      | error e =>
        simp only [hp] at h
        cases h
      | ok c =>
        simp only [hp] at h
        cases h
        rfl

/-- What is refused before the file is opened is a `ValueError`. -/
theorem ToParquetArgs.checked_error {e : Failure} (h : args.checked = .error e) :
    ∃ message, e = .raised (.valueError message) := by
  unfold ToParquetArgs.checked ReadArgs.config makeBatcherConfig parseHeuristics at h
  by_cases hsize : args.batchSize = 0
  · rw [if_pos hsize] at h
    cases h
    exact ⟨_, rfl⟩
  · rw [if_neg hsize] at h
    cases hp : Heuristic.parseSet args.heuristic with
    | error message =>
      simp only [hp] at h
      cases h
      exact ⟨_, rfl⟩
    | ok heuristics =>
      simp only [hp] at h
      split at h
      · cases h
        exact ⟨_, rfl⟩
      · cases hc : parseCompression args.compression.toList with
        | error message =>
          simp only [hc] at h
          cases h
          exact ⟨_, rfl⟩
        | ok c =>
          simp only [hc] at h
          cases h

theorem ToParquetArgs.exportArgs_checked (args : ToParquetArgs) (c : CompressionArg)
    {heuristics : Finset Heuristic} (h : Heuristic.parseSet args.heuristic = .ok heuristics) :
    (args.exportArgs c).checked = .ok (none, heuristics) := by
  have hnone : (args.exportArgs c).shardId = none := rfl
  have hnames : (args.exportArgs c).parsedTypes = .ok none := rfl
  have htext : (args.exportArgs c).heuristic = args.heuristic := rfl
  unfold Cli.ExportArgs.checked
  simp [hnone, hnames, htext, h]

theorem exportArgs_filename (args : ToParquetArgs) (c : CompressionArg) (tag : TypeTag) :
    (args.exportArgs c).filename tag = parquetFilename tag := by
  cases tag <;> rfl

end Checks

section Agreement

variable {ω W R ε : Type} {errorText : ε → String} {sys : ExportSystem ω W R ε}

/-- An error of the module's pipeline and one of the command's, which may name a file. -/
inductive SameError : Cli.ArrowConvertError ε → Cli.ArrowConvertError ε → Prop
  | same (e : Cli.ArrowConvertError ε) : SameError e e
  | named (path : Bytes) (e : IoError) : SameError (.io e) (.io (ioContext path e))

/-- The outcome of a call and the outcome of the command. -/
inductive Corresponds (errorText : ε → String) :
    PyResult Unit → Except (Cli.Failure ε) Unit → Prop
  | done : Corresponds errorText (.ok ()) (.ok ())
  | io {e e' : IoError} (h : e' = e ∨ ∃ path, e' = ioContext path e) :
    Corresponds errorText (.error (.raised (.osError e.text))) (.error (.error (.io e')))
  | cutOff (kind : IoErrorKind) : Corresponds errorText (.error (.raised (.osError kind.text)))
      (.error (.error (.corrupt (.io kind))))
  | corrupt {e : RdbError} (h : ∀ kind, e ≠ .io kind) :
    Corresponds errorText (.error (.raised (.valueError e.text))) (.error (.error (.corrupt e)))
  | arrow (e : ε) : Corresponds errorText
      (.error (.raised (.runtimeError ("Arrow error: " ++ errorText e))))
      (.error (.error (.other (.arrow e))))
  | parquet (e : ε) : Corresponds errorText
      (.error (.raised (.runtimeError ("Parquet error: " ++ errorText e))))
      (.error (.error (.other (.parquet e))))
  | panic : Corresponds errorText (.error .panic) (.error .panic)
  | diverge : Corresponds errorText (.error .diverge) (.error .diverge)

theorem corresponds_fault (errorText : ε → String) (f : Fault) :
    Corresponds errorText (.error (rdbToPyErr f)) (.error (.ofFault f)) := by
  cases f with
  | error e =>
    cases e with
    | io kind => exact .cutOff kind
    | invalidMagic => exact .corrupt nofun
    | unsupportedVersion v => exact .corrupt nofun
    | corruptData msg => exact .corrupt nofun
    | unknownType t => exact .corrupt nofun
  | panic => exact .panic
  | diverge => exact .diverge

theorem corresponds_convert (errorText : ε → String) {e e' : Cli.ArrowConvertError ε}
    (h : SameError e e') :
    Corresponds errorText (.error (arrowToPyErr errorText e)) (.error (.ofConvert e')) := by
  cases h with
  | named path e => exact .io (.inr ⟨path, rfl⟩)
  | same e =>
    cases e with
    | parser f => exact corresponds_fault errorText f
    | arrow e => exact .arrow e
    | parquet e => exact .parquet e
    | io e => exact .io (.inl rfl)

theorem callbacks_alike (sys : ExportSystem ω W R ε) (args : ToParquetArgs) (c : CompressionArg)
    (config : ParquetConfig) :
    (parquetCallbacks sys args.outputDir config).AlikeTo id
      (exportCallbacks sys (args.exportArgs c) config) id SameError where
  factory := by
    intro tag w
    have hpath : joinPath (args.exportArgs c).outputDir ((args.exportArgs c).filename tag) =
        joinPath args.outputDir (parquetFilename tag) := by
      rw [exportArgs_filename]
      rfl
    change AlikeIn SameError (writerFactory sys args.outputDir tag w)
      (Cli.writerFactory sys (args.exportArgs c) tag w)
    unfold writerFactory Cli.writerFactory
    simp only [hpath]
    rcases sys.createFile (joinPath args.outputDir (parquetFilename tag)) w with ⟨e | raw, w'⟩
    · exact ⟨.error (.named _ e), rfl⟩
    · exact ⟨.ok raw, rfl⟩
  openWriter := by
    intro tag raw w
    change AlikeIn SameError ((sys.parquet config).openWriter tag raw w)
      ((sys.parquet config).openWriter tag raw w)
    rcases (sys.parquet config).openWriter tag raw w with ⟨e | writer, w'⟩
    · exact ⟨.error (.same e), rfl⟩
    · exact ⟨.ok writer, rfl⟩
  write := by
    intro writer batch w
    change AlikeIn SameError ((sys.parquet config).write writer batch w)
      ((sys.parquet config).write writer batch w)
    rcases (sys.parquet config).write writer batch w with ⟨e | u, w'⟩
    · exact ⟨.error (.same e), rfl⟩
    · exact ⟨.ok u, rfl⟩
  close := by
    intro writer w
    change AlikeIn SameError ((sys.parquet config).close writer w)
      ((sys.parquet config).close writer w)
    rcases (sys.parquet config).close writer w with ⟨e | u, w'⟩
    · exact ⟨.error (.same e), rfl⟩
    · exact ⟨.ok u, rfl⟩

theorem sameError_unwinds (e e' : Cli.ArrowConvertError ε) (h : SameError e e') : e.unwinds = e'.unwinds := by
  cases h with
  | same e => rfl
  | named path e => rfl

theorem alike_self {E α : Type} {S : E → E → Prop} (h : ∀ e, S e e) (xs : List (Except E α)) :
    List.Forall₂ (Alike S) xs xs := by
  induction xs with
  | nil => exact .nil
  | cons x xs ih =>
    cases x with
    | error e => exact .cons (.error (h e)) ih
    | ok a => exact .cons (.ok a) ih

/-- What a call of `to_parquet` does, beside the command with the same settings. -/
structure AgreesWithExport (errorText : ε → String) (sys : ExportSystem ω W R ε) (tryNew : TryNew ε)
    (globMatch : Bytes → Bytes → Bool) (args : ToParquetArgs) (w : ω) (n : Nat) : Prop where
  refused : ∀ e, args.checked = .error e →
    toParquet errorText sys tryNew n args w = (.error e, w) ∧ ∃ message, e = .raised (.valueError message)
  accepted : ∀ config compression, args.checked = .ok (config, compression) →
    (toParquet errorText sys tryNew n args w).2 =
        (exportRun sys tryNew globMatch n (args.exportArgs (compressionArg compression)) w).2 ∧
      Corresponds errorText (toParquet errorText sys tryNew n args w).1
        (exportRun sys tryNew globMatch n (args.exportArgs (compressionArg compression)) w).1

theorem AgreesWithExport.of_refused {tryNew : TryNew ε} {globMatch : Bytes → Bytes → Bool}
    {args : ToParquetArgs} {w : ω} {n : Nat} {e : Failure} (hc : args.checked = .error e) :
    AgreesWithExport errorText sys tryNew globMatch args w n := by
  refine ⟨fun e' h => ?_, fun _ _ h => ?_⟩
  · rw [hc] at h
    cases h
    refine ⟨?_, ToParquetArgs.checked_error hc⟩
    simp only [toParquet, hc]
  · rw [hc] at h
    cases h

/-- Under settings that were accepted the two outcomes are compared. -/
theorem AgreesWithExport.of_accepted {tryNew : TryNew ε} {globMatch : Bytes → Bytes → Bool}
    {args : ToParquetArgs} {w : ω} {n : Nat} {config : BatcherConfig} {compression : Compression}
    (hc : args.checked = .ok (config, compression))
    (h : (toParquet errorText sys tryNew n args w).2 =
        (exportRun sys tryNew globMatch n (args.exportArgs (compressionArg compression)) w).2 ∧
      Corresponds errorText (toParquet errorText sys tryNew n args w).1
        (exportRun sys tryNew globMatch n (args.exportArgs (compressionArg compression)) w).1) :
    AgreesWithExport errorText sys tryNew globMatch args w n := by
  refine ⟨fun e he => ?_, fun config' compression' h' => ?_⟩
  · rw [hc] at he
    cases he
  · rw [hc] at h'
    cases h'
    exact h

/-- What the command opens that is not asked for the standard input. -/
theorem openRdbInput_path {path : Bytes} (hpath : path ≠ [45]) (w : ω) :
    openRdbInput sys.toSystem path w =
      ((sys.openInput path w).1.mapError (ioContext path), (sys.openInput path w).2) := by
  unfold openRdbInput
  rw [if_neg hpath]
  rcases sys.openInput path w with ⟨e | source, w'⟩
  · rfl
  · rfl

theorem pipelines_correspond (errorText : ε → String) (sys : ExportSystem ω W R ε) (args : ToParquetArgs)
    (c : CompressionArg) (config : ParquetConfig)
    (items : List (Except (Cli.ArrowConvertError ε) TypedBatch)) (w : ω) :
    (runUnwinding Cli.ArrowConvertError.unwinds (parquetCallbacks sys args.outputDir config) id items w).2 =
      (runUnwinding Cli.ArrowConvertError.unwinds (exportCallbacks sys (args.exportArgs c) config) id
        items w).2 ∧
    Corresponds errorText
      ((runUnwinding Cli.ArrowConvertError.unwinds (parquetCallbacks sys args.outputDir config) id
        items w).1.mapError (arrowToPyErr errorText))
      ((runUnwinding Cli.ArrowConvertError.unwinds (exportCallbacks sys (args.exportArgs c) config) id
        items w).1.mapError .ofConvert) := by
  have hrun := unwinding_alike (callbacks_alike sys args c config) sameError_unwinds
    (alike_self SameError.same items) w
  rcases hpy : runUnwinding Cli.ArrowConvertError.unwinds (parquetCallbacks sys args.outputDir config) id
    items w with ⟨x, w₁⟩
  rcases hcli : runUnwinding Cli.ArrowConvertError.unwinds
    (exportCallbacks sys (args.exportArgs c) config) id items w with ⟨x', w₁'⟩
  rw [hpy, hcli] at hrun
  obtain ⟨hres, hworld⟩ := hrun
  refine ⟨hworld, ?_⟩
  cases hres with
  | ok u => exact .done
  | error hs => exact corresponds_convert errorText hs

section Opened

variable {tryNew : TryNew ε} {globMatch : Bytes → Bytes → Bool} {args : ToParquetArgs}
  {heuristics : Finset Heuristic} {compression : Compression} {source : RdbInput} {r : RdbReader}
  {w w₁ w₂ : ω} {n : Nat}

/-- A call that opens its file and makes its directory runs the pipeline. -/
theorem toParquet_opened (hc : args.checked = .ok ((args.pipeline heuristics).config, compression))
    (hfile : sys.openInput args.path w = (.ok source, w₁)) (hnew : RdbReader.new source.bytes = .ok r)
    (hcreate : sys.createDirAll args.outputDir w₁ = (.ok (), w₂))
    (hitems : (collect (batchNext tryNew source n) n
      ((ArrowBatcher.new (args.pipeline heuristics).config).process
        ((args.pipeline heuristics).reader r))).1 =
      pulled tryNew allKeys (args.pipeline heuristics) source r) :
    toParquet errorText sys tryNew n args w =
      ((runUnwinding Cli.ArrowConvertError.unwinds (parquetCallbacks sys args.outputDir
          ⟨compression, args.rowGroupSize, metadataFromRdb r.metadata heuristics⟩) id
        (pulled tryNew allKeys (args.pipeline heuristics) source r) w₂).1.mapError (arrowToPyErr errorText),
      (runUnwinding Cli.ArrowConvertError.unwinds (parquetCallbacks sys args.outputDir
          ⟨compression, args.rowGroupSize, metadataFromRdb r.metadata heuristics⟩) id
        (pulled tryNew allKeys (args.pipeline heuristics) source r) w₂).2) := by
  have hmeta : ((args.pipeline heuristics).reader r).metadata = r.metadata := by
    rw [pipeline_reader]
    split <;> rfl
  have hheur : (args.pipeline heuristics).config.heuristics = heuristics := rfl
  have hopen : openReader (ε := ε) sys.toSystem args.path args.noChunking w =
      (.ok (source, (args.pipeline heuristics).reader r), w₁) := openReader_opened heuristics hfile hnew
  simp only [toParquet, hc, hopen, hcreate, hitems, hmeta, hheur]
  rcases runUnwinding Cli.ArrowConvertError.unwinds (parquetCallbacks sys args.outputDir
      ⟨compression, args.rowGroupSize, metadataFromRdb r.metadata heuristics⟩) id
    (pulled tryNew allKeys (args.pipeline heuristics) source r) w₂ with ⟨e | u, w₃⟩
  · rfl
  · rfl

/-- So does the command. -/
theorem exportRun_opened (hparse : Heuristic.parseSet args.heuristic = .ok heuristics)
    (hpath : args.path ≠ [45]) (hfile : sys.openInput args.path w = (.ok source, w₁))
    (hnew : RdbReader.new source.bytes = .ok r)
    (hcreate : sys.createDirAll args.outputDir w₁ = (.ok (), w₂))
    (hitems : Cli.exportItems tryNew globMatch (args.pipeline heuristics) source r n =
      pulled tryNew globMatch (args.pipeline heuristics) source r) :
    exportRun sys tryNew globMatch n (args.exportArgs (compressionArg compression)) w =
      ((runUnwinding Cli.ArrowConvertError.unwinds (exportCallbacks sys
          (args.exportArgs (compressionArg compression))
          ⟨compression, args.rowGroupSize, metadataFromRdb r.metadata heuristics⟩) id
        (pulled tryNew allKeys (args.pipeline heuristics) source r) w₂).1.mapError .ofConvert,
      (runUnwinding Cli.ArrowConvertError.unwinds (exportCallbacks sys
          (args.exportArgs (compressionArg compression))
          ⟨compression, args.rowGroupSize, metadataFromRdb r.metadata heuristics⟩) id
        (pulled tryNew allKeys (args.pipeline heuristics) source r) w₂).2) := by
  have hchecked := args.exportArgs_checked (compressionArg compression) hparse
  have hinput : openRdbInput sys.toSystem args.path w = _ := openRdbInput_path hpath w
  rw [hfile] at hinput
  have hopen : openRdbInput sys.toSystem (args.exportArgs (compressionArg compression)).file w =
      (.ok source, w₁) := hinput
  have hdir : sys.createDirAll (args.exportArgs (compressionArg compression)).outputDir w₁ =
      (.ok (), w₂) := hcreate
  have hcodec : (args.exportArgs (compressionArg compression)).compression.toParquetCompression =
      .ok compression := toParquetCompression_compressionArg compression
  have hgroup : (args.exportArgs (compressionArg compression)).rowGroupSize = args.rowGroupSize := rfl
  have hpipeline : (args.exportArgs (compressionArg compression)).pipeline none heuristics =
      args.pipeline heuristics := rfl
  have hany : pulled tryNew globMatch (args.pipeline heuristics) source r =
      pulled tryNew allKeys (args.pipeline heuristics) source r := by
    rw [pulled_eq_feed, pulled_eq_feed]
  simp only [exportRun, hchecked, Cli.buildRdbReader, hopen, hnew, hdir, hcodec, hgroup, hpipeline, hitems,
    hany]
  rcases runUnwinding Cli.ArrowConvertError.unwinds (exportCallbacks sys
      (args.exportArgs (compressionArg compression))
      ⟨compression, args.rowGroupSize, metadataFromRdb r.metadata heuristics⟩) id
    (pulled tryNew allKeys (args.pipeline heuristics) source r) w₂ with ⟨e | u, w₃⟩
  · rfl
  · rfl

end Opened

/-- Under the same settings, and for a path other than "-", `to_parquet` leaves the machine as
the export command does, and returns or raises what corresponds to the outcome of the
command. -/
theorem to_parquet_as_export (errorText : ε → String) (sys : ExportSystem ω W R ε) (tryNew : TryNew ε)
    (globMatch : Bytes → Bytes → Bool) (args : ToParquetArgs) (hpath : args.path ≠ [45]) (w : ω) :
    ∃ rounds, ∀ n, rounds ≤ n → AgreesWithExport errorText sys tryNew globMatch args w n := by
  cases hc : args.checked with
  | error e => exact ⟨0, fun n _ => .of_refused hc⟩
  | ok checked =>
    obtain ⟨config, compression⟩ := checked
    obtain ⟨hsize, heuristics, hparse, rfl⟩ := args.toReadArgs.config_ok (ToParquetArgs.checked_ok hc)
    have hcli := args.exportArgs_checked (compressionArg compression) hparse
    have hinput : openRdbInput sys.toSystem args.path w = _ := openRdbInput_path hpath w
    rcases hfile : sys.openInput args.path w with ⟨e | source, w₁⟩
    · refine ⟨0, fun n _ => .of_accepted hc ?_⟩
      have hopen : openRdbInput sys.toSystem (args.exportArgs (compressionArg compression)).file w =
          (.error (ioContext args.path e), w₁) := by
        rw [hfile] at hinput
        exact hinput
      have hpy : openReader (ε := ε) sys.toSystem args.path args.noChunking w = (.error (.io e), w₁) := by
        simp only [openReader, hfile]
      simp only [toParquet, exportRun, hc, hcli, hpy, Cli.buildRdbReader, hopen]
      exact ⟨trivial, .io (.inr ⟨_, rfl⟩)⟩
    · have hopen : openRdbInput sys.toSystem (args.exportArgs (compressionArg compression)).file w =
          (.ok source, w₁) := by
        rw [hfile] at hinput
        exact hinput
      cases hnew : RdbReader.new source.bytes with
      | error f =>
        refine ⟨0, fun n _ => .of_accepted hc ?_⟩
        have hpy : openReader (ε := ε) sys.toSystem args.path args.noChunking w =
            (.error (.rdb (source.fault f)), w₁) := by
          simp only [openReader, hfile, hnew]
        simp only [toParquet, exportRun, hc, hcli, hpy, Cli.buildRdbReader, hopen, hnew]
        exact ⟨trivial, corresponds_fault errorText (source.fault f)⟩
      | ok r =>
        rcases hcreate : sys.createDirAll args.outputDir w₁ with ⟨e | u, w₂⟩
        · refine ⟨0, fun n _ => .of_accepted hc ?_⟩
          have hpy : openReader (ε := ε) sys.toSystem args.path args.noChunking w =
              (.ok (source, (args.pipeline heuristics).reader r), w₁) :=
            openReader_opened heuristics hfile hnew
          have hdir : sys.createDirAll (args.exportArgs (compressionArg compression)).outputDir w₁ =
              (.error e, w₂) := hcreate
          simp only [toParquet, exportRun, hc, hcli, hpy, Cli.buildRdbReader, hopen, hnew, hdir, hcreate]
          exact ⟨trivial, .io (.inl rfl)⟩
        · obtain ⟨rounds, hitems⟩ := Cli.exportItems_eq tryNew globMatch (Reachable.new hnew)
            (args.pipeline heuristics) source
          obtain ⟨rounds', hcollect⟩ := collect_batchNext tryNew (Reachable.new hnew) args.toReadArgs
            heuristics source
          refine ⟨max rounds rounds', fun n hn => .of_accepted hc ?_⟩
          obtain ⟨hn, hn'⟩ := max_le_iff.mp hn
          rw [toParquet_opened hc hfile hnew hcreate (hcollect n hn'),
            exportRun_opened hparse hpath hfile hnew hcreate (hitems n hn)]
          exact pipelines_correspond _ _ _ _ _ _ _

end Agreement

/-- The arguments of `to_parquet("dump.rdb", "out")`. -/
def defaultToParquetArgs : ToParquetArgs where
  toReadArgs := defaultReadArgs
  outputDir := asciiBytes "out"
  compression := "zstd"
  rowGroupSize := 1048576

theorem to_parquet_as_export_list : ∃ rounds, ∀ n, rounds ≤ n →
    (toParquet id Cli.storeSystem checkedTryNew n defaultToParquetArgs fun _ => none).2 =
      (exportRun Cli.storeSystem checkedTryNew (fun _ _ => true) n
        (defaultToParquetArgs.exportArgs .zstd) fun _ => none).2 := by
  have hcodec : parseCompression defaultToParquetArgs.compression.toList = .ok .zstd := by decide +kernel
  have hconfig := defaultToParquetArgs.toReadArgs.config_of_parsed (by decide) parseSet_all
  have hchecked : defaultToParquetArgs.checked =
      .ok ((defaultToParquetArgs.pipeline Heuristic.all).config, .zstd) := by
    unfold ToParquetArgs.checked
    simp only [hconfig, hcodec]
    rfl
  obtain ⟨rounds, h⟩ := to_parquet_as_export id Cli.storeSystem checkedTryNew (fun _ _ => true)
    defaultToParquetArgs (by decide) fun _ => none
  exact ⟨rounds, fun n hn => ((h n hn).accepted _ _ hchecked).1⟩

end ValkeyRdb.Python
