import ValkeyRdb.Cli.ExportRun
import ValkeyRdb.Cli.ExportValidate
import ValkeyRdb.Reader.ChunkErrors

/-!
# How an export ends (cli_error.rs, export.rs:18-158)

The exit status tells what went wrong: refused arguments, an input or output that cannot be
opened, a file that cannot be read to its end.
-/

namespace ValkeyRdb.Cli

section Outcome

variable {ω W R ε : Type} {sys : ExportSystem ω W R ε} {tryNew : TryNew ε}
  {globMatch : Bytes → Bytes → Bool}

/-- The items of the input under the chunk setting of an export. -/
def readerItems (args : ValkeyRdb.ExportArgs) (reader : RdbReader) : List (Res RdbEntry) :=
  (args.reader reader).items.1

theorem args_reader_reachable {input : Bytes} {r : RdbReader} (h : Reachable input r)
    (args : ValkeyRdb.ExportArgs) : Reachable input (args.reader r) := by
  unfold ValkeyRdb.ExportArgs.reader
  split
  · exact h.withoutChunking
  · cases args.maxKeyElements with
    | none => exact h
    | some max => exact h.withMaxKeyElements max

/-- What the pipeline of an export pulls, once every loop has rounds enough. -/
def pulled (tryNew : TryNew ε) (globMatch : Bytes → Bytes → Bool) (args : ValkeyRdb.ExportArgs)
    (source : RdbInput) (reader : RdbReader) : List (Except (ArrowConvertError ε) TypedBatch) :=
  (exported tryNew globMatch args.filter args.config (readerItems args reader)).map
    (Except.mapError (ofBatchError source))

/-- The batches of those in front of the first error. -/
def handed (tryNew : TryNew ε) (globMatch : Bytes → Bytes → Bool) (args : ValkeyRdb.ExportArgs)
    (reader : RdbReader) : List TypedBatch :=
  untilError (exported tryNew globMatch args.filter args.config (readerItems args reader))

theorem handed_eq (tryNew : TryNew ε) (globMatch : Bytes → Bytes → Bool) (args : ValkeyRdb.ExportArgs)
    (source : RdbInput) (reader : RdbReader) :
    untilError (pulled tryNew globMatch args source reader) = handed tryNew globMatch args reader :=
  untilError_mapError _ _

theorem exportItems_eq (tryNew : TryNew ε) (globMatch : Bytes → Bytes → Bool) {input : Bytes}
    {r : RdbReader} (h : Reachable input r) (args : ValkeyRdb.ExportArgs) (source : RdbInput) :
    ∃ rounds, ∀ n, rounds ≤ n → exportItems tryNew globMatch args source r n =
      pulled tryNew globMatch args source r := by
  have hy := (args_reader_reachable h args).yields
  obtain ⟨rounds, last, -, hrun⟩ := exportBatches_yields tryNew globMatch args.filter args.config hy
  refine ⟨max rounds ((exported tryNew globMatch args.filter args.config (readerItems args r)).length + 1),
    fun n hn => ?_⟩
  have hcollect := (hrun n (le_trans (le_max_left _ _) hn)).collect_eq
    (lt_of_lt_of_le (Nat.lt_succ_self _) (le_trans (le_max_right _ _) hn))
  unfold exportItems
  rw [hcollect]
  rfl

/-- How far an export gets, and what it returns then. -/
inductive ExportCase (sys : ExportSystem ω W R ε) (tryNew : TryNew ε)
    (globMatch : Bytes → Bytes → Bool) (args : ExportArgs) (w : ω) :
    Except (Failure ε) Unit × ω → Prop where
  | refused {e} : args.checked = .error e →
      ExportCase sys tryNew globMatch args w (.error (.error (.usage e)), w)
  | unopened {x e w₁} : args.checked = .ok x →
      openRdbInput sys.toSystem args.file w = (.error e, w₁) →
      ExportCase sys tryNew globMatch args w (.error (.error (.io e)), w₁)
  | unread {x source w₁ f} : args.checked = .ok x →
      openRdbInput sys.toSystem args.file w = (.ok source, w₁) →
      RdbReader.new source.bytes = .error f →
      ExportCase sys tryNew globMatch args w (.error (.ofFault (source.fault f)), w₁)
  | noDirectory {x source w₁ r e w₂} : args.checked = .ok x →
      openRdbInput sys.toSystem args.file w = (.ok source, w₁) → RdbReader.new source.bytes = .ok r →
      sys.createDirAll args.outputDir w₁ = (.error e, w₂) →
      ExportCase sys tryNew globMatch args w (.error (.error (.io e)), w₂)
  | ran {typeTags heuristics source w₁ r w₂ compression result w₃} :
      args.checked = .ok (typeTags, heuristics) →
      openRdbInput sys.toSystem args.file w = (.ok source, w₁) → RdbReader.new source.bytes = .ok r →
      sys.createDirAll args.outputDir w₁ = (.ok (), w₂) →
      args.compression.toParquetCompression = .ok compression →
      runUnwinding ArrowConvertError.unwinds (exportCallbacks sys args
          ⟨compression, args.rowGroupSize, metadataFromRdb r.metadata heuristics⟩) id
        (pulled tryNew globMatch (args.pipeline typeTags heuristics) source r) w₂ = (result, w₃) →
      ExportCase sys tryNew globMatch args w (result.mapError .ofConvert, w₃)

theorem exportRun_cases (sys : ExportSystem ω W R ε) (tryNew : TryNew ε)
    (globMatch : Bytes → Bytes → Bool) (args : ExportArgs) (w : ω) :
    ∃ rounds, ∀ n, rounds ≤ n →
      ExportCase sys tryNew globMatch args w (exportRun sys tryNew globMatch n args w) := by
  rcases hc : args.checked with e | ⟨typeTags, heuristics⟩
  · refine ⟨0, fun n _ => ?_⟩
    simp only [exportRun, hc]
    exact .refused hc
  rcases hopen : openRdbInput sys.toSystem args.file w with ⟨e | source, w₁⟩
  · refine ⟨0, fun n _ => ?_⟩
    simp only [exportRun, hc, buildRdbReader, hopen]
    exact .unopened hc hopen
  rcases hnew : RdbReader.new source.bytes with f | r
  · refine ⟨0, fun n _ => ?_⟩
    simp only [exportRun, hc, buildRdbReader, hopen, hnew]
    exact .unread hc hopen hnew
  rcases hdir : sys.createDirAll args.outputDir w₁ with ⟨e | u, w₂⟩
  · refine ⟨0, fun n _ => ?_⟩
    simp only [exportRun, hc, buildRdbReader, hopen, hnew, hdir]
    exact .noDirectory hc hopen hnew hdir
  obtain ⟨compression, hcomp⟩ := toParquetCompression_ok args.compression
  obtain ⟨rounds, hitems⟩ := exportItems_eq tryNew globMatch (Reachable.new hnew)
    (args.pipeline typeTags heuristics) source
  refine ⟨rounds, fun n hn => ?_⟩
  simp only [exportRun, hc, buildRdbReader, hopen, hnew, hdir, hcomp, hitems n hn]
  rcases hrun : runUnwinding ArrowConvertError.unwinds (exportCallbacks sys args
      ⟨compression, args.rowGroupSize, metadataFromRdb r.metadata heuristics⟩) id
      (pulled tryNew globMatch (args.pipeline typeTags heuristics) source r) w₂ with ⟨e | u, w₃⟩
  · exact .ran hc hopen hnew hdir hcomp hrun
  · exact .ran hc hopen hnew hdir hcomp hrun

/-- The callbacks of an export fail with errors of a writer only. -/
theorem exportCallbacks_fail (sys : ExportSystem ω W R ε) (args : ExportArgs) (config : ParquetConfig) :
    (exportCallbacks sys args config).FailsIn id ArrowConvertError.OfWriter where
  factory := by
    intro tag w e w' h
    have hrun : writerFactory sys args tag w = (.error e, w') := h
    unfold writerFactory at hrun
    rcases hc : sys.createFile (joinPath args.outputDir (args.filename tag)) w with ⟨e' | raw, w₁⟩
    · simp only [hc] at hrun
      cases hrun
      trivial
    · simp only [hc] at hrun
      cases hrun
  opened := (formatLibrary sys args config).openWriter_error
  write := (formatLibrary sys args config).write_error
  close := (formatLibrary sys args config).close_error

theorem steps_isError {input : Bytes} {r r' : RdbReader} {items : List (Res RdbEntry)}
    (h : Reachable input r) (hs : Steps RdbReader.next r items r') :
    ∀ f, .error f ∈ items → f.IsError := by
  induction hs with
  | nil => exact fun _ hm => absurd hm List.not_mem_nil
  | cons hn _ ih =>
    have hsafe := (next_safe h.valid).2
    have hnext := h.next
    rw [hn] at hsafe hnext
    intro f hm
    rcases List.mem_cons.mp hm with he | hm
    · exact hsafe f (by rw [he])
    · exact ih hnext f hm

theorem mem_faultsOf {items : List (Res RdbEntry)} {f : Fault} :
    f ∈ faultsOf items ↔ .error f ∈ items ∧ Terminal (.error f) := by
  have hterminal : Terminal (.error f) ↔ ¬isUnknownType (.error f) = true := by
    rcases unknownType_cases f with ⟨t, rfl⟩ | hu
    · simp [Terminal, isUnknownType]
    · rw [hu]
      cases f with
      | error e => cases e <;> simp_all [Terminal, isUnknownType]
      | panic => simp [Terminal]
      | diverge => simp [Terminal]
  rw [hterminal]
  unfold faultsOf
  rw [List.mem_filterMap]
  constructor
  · rintro ⟨x, hx, hxf⟩
    cases x with
    | ok e => cases hxf
    | error f' =>
      by_cases hu : isUnknownType (.error f') = true
      · simp [hu] at hxf
      · simp only [hu, Bool.false_eq_true, if_false, Option.some.injEq] at hxf
        exact hxf ▸ ⟨hx, hu⟩
  · rintro ⟨hm, hu⟩
    exact ⟨.error f, hm, by simp [hu]⟩

/-- The faults of a reader are errors of the parser. -/
theorem faultsOf_isError {input : Bytes} {r : RdbReader} (h : Reachable input r) {f : Fault}
    (hf : f ∈ faultsOf r.items.1) : ∃ e, f = .error e := by
  obtain ⟨m, hs, -⟩ := h.yields
  have herror := steps_isError h hs f (mem_faultsOf.mp hf).1
  cases f with
  | error e => exact ⟨e, rfl⟩
  | panic => exact herror.elim
  | diverge => exact herror.elim

/-- A fault of a reader is the last that it returns. -/
theorem reader_faultsLast {input : Bytes} {r : RdbReader} (h : Reachable input r) :
    FaultsLast r.items.1 := by
  obtain ⟨m, hs, -⟩ := h.yields
  generalize r.items.1 = items at hs
  unfold FaultsLast
  induction hs with
  | nil => rfl
  | @cons r r' r'' x items hn hrest ih =>
    have hnext := h.next
    rw [hn] at hnext
    by_cases hx : Terminal x
    · rw [steps_finished (next_terminal hn hx) hrest]
      rfl
    · cases items with
      | nil => rfl
      | cons y items =>
        have hquiet : faultsOf [x] = [] := by
          cases x with
          | ok e => rfl
          | error f =>
            refine List.eq_nil_iff_forall_not_mem.mpr fun g hg => ?_
            obtain ⟨hm, ht⟩ := mem_faultsOf.mp hg
            rw [List.mem_singleton.mp hm] at ht
            exact hx ht
        have happend : x :: (y :: items).dropLast = [x] ++ (y :: items).dropLast := rfl
        rw [List.dropLast_cons_cons, happend, faultsOf_append, hquiet, ih hnext]
        rfl

/-! ### What the pipeline is handed -/

/-- The entries of a file that an export keeps. -/
def keptEntries (globMatch : Bytes → Bytes → Bool) (args : ValkeyRdb.ExportArgs) (r : RdbReader) :
    List RdbEntry :=
  (entriesOf (readerItems args r)).filter (args.filter.matchesEntry globMatch)

theorem errors_of_map (source : RdbInput) (xs : List (BatchItem ε)) :
    (xs.map (Except.mapError (ofBatchError source))).filterMap failureOf =
      (errorsOf xs).map (ofBatchError source) := by
  induction xs with
  | nil => rfl
  | cons x xs ih =>
    cases x with
    | ok t => exact ih
    | error e => exact congrArg (ofBatchError source e :: ·) ih

/-- Where the kept keys fit their columns, the errors are those of the file. -/
theorem pulled_errors (ht : TryNewAccepts tryNew) {args : ValkeyRdb.ExportArgs} {r : RdbReader}
    (hfits : args.config.Fits (keptEntries globMatch args r)) (source : RdbInput) :
    (pulled tryNew globMatch args source r).filterMap failureOf =
      (faultsOf (readerItems args r)).map fun f => .parser (source.fault f) := by
  unfold pulled
  rw [errors_of_map, (exported_errors ht _ _ _).mpr hfits, List.map_map]
  rfl

/-- Behind the batches of a file that does not read to its end comes its first fault. -/
theorem pulled_corrupt (ht : TryNewAccepts tryNew) {input : Bytes} {r : RdbReader}
    (h : Reachable input r) {args : ValkeyRdb.ExportArgs}
    (hfits : args.config.Fits (keptEntries globMatch args r)) (source : RdbInput)
    (hread : faultsOf (readerItems args r) ≠ []) :
    ∃ e rest, (faultsOf (readerItems args r)).head? = some (.error e) ∧
      pulled tryNew globMatch args source r = (handed tryNew globMatch args r).map .ok ++
        .error (.parser (source.fault (.error e))) :: rest := by
  obtain ⟨f, faults, hfaults⟩ := List.exists_cons_of_ne_nil hread
  have hf : f ∈ faultsOf (readerItems args r) := by
    rw [hfaults]
    exact List.mem_cons_self
  obtain ⟨e, rfl⟩ := faultsOf_isError (args_reader_reachable h args) hf
  have herrors := pulled_errors ht hfits source
  rw [hfaults, List.map_cons] at herrors
  have hfirst := firstError_eq (pulled tryNew globMatch args source r)
  rw [herrors] at hfirst
  have hcases := outcomes_cases (pulled tryNew globMatch args source r)
  rw [handed_eq] at hcases
  rcases hcases with hok | ⟨e', rest, hitems⟩
  · rw [hok, failures_ok] at herrors
    cases herrors
  · rw [hitems, firstError_behind] at hfirst
    cases hfirst
    exact ⟨e, rest, congrArg List.head? hfaults, hitems⟩

/-- Otherwise a push panics before the reader is done. -/
theorem pulled_panics (ht : TryNewAccepts tryNew) {input : Bytes} {r : RdbReader}
    (h : Reachable input r) {args : ValkeyRdb.ExportArgs}
    (hover : ¬args.config.Fits (keptEntries globMatch args r)) (source : RdbInput) :
    (∃ rest, pulled tryNew globMatch args source r =
      (handed tryNew globMatch args r).map .ok ++ .error (.parser .panic) :: rest) ∧
    (∀ t ∈ handed tryNew globMatch args r, t.WellFormed) ∧
    ∀ tag, (∀ tags, args.typeTags = some tags → tag ∈ tags) →
      tagRows tag (handed tryNew globMatch args r) <+:
        (keptEntries globMatch args r).flatMap (args.config.taken tag) := by
  obtain ⟨ts, rest, hitems, hwell, hrows⟩ := exported_panics ht
    (reader_faultsLast (args_reader_reachable h args)) hover
  have hexported : exported tryNew globMatch args.filter args.config (readerItems args r) = _ := hitems
  have hhanded : handed tryNew globMatch args r = ts := by
    rw [handed, hexported, untilError_behind]
  rw [hhanded]
  refine ⟨⟨rest.map (Except.mapError (ofBatchError source)), ?_⟩, hwell, hrows⟩
  unfold pulled
  rw [hexported, List.map_append, List.map_map]
  rfl

theorem exported_wellFormed (ht : TryNewAccepts tryNew) {filter : EntryFilter} {config : BatcherConfig}
    {items : List (Res RdbEntry)}
    (hfits : config.Fits ((entriesOf items).filter (filter.matchesEntry globMatch))) :
    ∀ t ∈ batchesOf (exported tryNew globMatch filter config items), t.WellFormed := by
  obtain ⟨hv, -⟩ := ArrowBatcher.new_valid config
  obtain ⟨hbatches, -, -⟩ := feed_rows ht (items.filter (filter.keeps globMatch)) hv (kept_fit ht hfits)
  unfold exported
  cases filter.typeTags with
  | none => exact hbatches
  | some tags =>
    intro t hm
    obtain ⟨x, hx, hxt⟩ := List.mem_filterMap.mp hm
    exact hbatches t (List.mem_filterMap.mpr ⟨x, (List.mem_filter.mp hx).1, hxt⟩)

/-- The batches that an export is handed have the first rows of what it keeps. -/
theorem handed_leading (ht : TryNewAccepts tryNew) (globMatch : Bytes → Bytes → Bool) {input : Bytes}
    {r : RdbReader} (h : Reachable input r) (args : ValkeyRdb.ExportArgs) :
    (∀ t ∈ handed tryNew globMatch args r, t.WellFormed) ∧
    (∀ tags, args.typeTags = some tags → ∀ t ∈ handed tryNew globMatch args r, t.tag ∈ tags) ∧
    ∀ tag, (∀ tags, args.typeTags = some tags → tag ∈ tags) →
      tagRows tag (handed tryNew globMatch args r) <+:
        (keptEntries globMatch args r).flatMap (args.config.taken tag) := by
  have hvalues : handed tryNew globMatch args r <+:
      batchesOf (exported tryNew globMatch args.filter args.config (readerItems args r)) :=
    untilError_values _
  have htags : ∀ tags, args.typeTags = some tags → ∀ t ∈ handed tryNew globMatch args r, t.tag ∈ tags :=
    fun tags htags t hm => exported_tags htags args.config _ t (hvalues.subset hm)
  by_cases hfits : args.config.Fits (keptEntries globMatch args r)
  · refine ⟨fun t hm => exported_wellFormed ht hfits t (hvalues.subset hm), htags, fun tag htag => ?_⟩
    have hrows : tagRows tag _ = (keptEntries globMatch args r).flatMap (args.config.taken tag) :=
      exported_rows ht hfits htag
    rw [← hrows]
    unfold tagRows
    exact (hvalues.filter _).flatMap _
  · obtain ⟨-, hwell, hrows⟩ := pulled_panics ht h hfits ⟨[], none⟩
    exact ⟨hwell, htags, hrows⟩

/-- Where nothing goes wrong it is handed all of them. -/
theorem handed_whole (ht : TryNewAccepts tryNew) {args : ValkeyRdb.ExportArgs} {r : RdbReader}
    (hfits : args.config.Fits (keptEntries globMatch args r))
    (hread : faultsOf (readerItems args r) = []) :
    (∀ source, pulled tryNew globMatch args source r = (handed tryNew globMatch args r).map .ok) ∧
    ∀ tag, (∀ tags, args.typeTags = some tags → tag ∈ tags) →
      tagRows tag (handed tryNew globMatch args r) =
        (keptEntries globMatch args r).flatMap (args.config.taken tag) := by
  have herrors : errorsOf (exported tryNew globMatch args.filter args.config (readerItems args r)) = [] := by
    rw [(exported_errors ht _ _ _).mpr hfits, hread]
    rfl
  have hbatches := eq_batches_of_errors herrors
  have hhanded : handed tryNew globMatch args r =
      batchesOf (exported tryNew globMatch args.filter args.config (readerItems args r)) := by
    unfold handed
    rw [hbatches, untilError_ok, ← hbatches]
  refine ⟨fun source => ?_, fun tag htag => ?_⟩
  · rw [hhanded, pulled, hbatches, List.map_map, ← hbatches]
    rfl
  · rw [hhanded]
    exact exported_rows ht hfits htag

/-- An export that meets no error is handed all it keeps. -/
theorem handed_ok (ht : TryNewAccepts tryNew) {input : Bytes} {r : RdbReader} (hr : Reachable input r)
    {args : ValkeyRdb.ExportArgs} {source : RdbInput} {ts : List TypedBatch}
    (h : pulled tryNew globMatch args source r = ts.map .ok) :
    ts = handed tryNew globMatch args r ∧ args.config.Fits (keptEntries globMatch args r) ∧
      faultsOf (readerItems args r) = [] := by
  have hnone : (pulled tryNew globMatch args source r).filterMap failureOf = [] := by
    rw [h, failures_ok]
  have hfits : args.config.Fits (keptEntries globMatch args r) := by
    by_contra hover
    obtain ⟨⟨rest, hitems⟩, -⟩ := pulled_panics ht hr hover source
    have hfirst := firstError_eq (pulled tryNew globMatch args source r)
    rw [hnone, hitems, firstError_behind] at hfirst
    cases hfirst
  refine ⟨by rw [← handed_eq _ _ _ source, h, untilError_ok], hfits, ?_⟩
  rw [pulled_errors ht hfits] at hnone
  exact List.map_eq_nil_iff.mp hnone

/-- Whether a file reads to its end does not depend on the chunk setting. -/
theorem readable_iff_clean {input : Bytes} {r : RdbReader} (hnew : RdbReader.new input = .ok r)
    (args : ValkeyRdb.ExportArgs) : Readable (readerItems args r) ↔ r.Clean := by
  unfold readerItems
  rw [args_reader hnew]
  constructor
  · intro h
    refine clean_of_configured hnew (?_ : ∀ x ∈ (r.configure args.limit).items.1, ¬Terminal x)
    rintro (f | e) hx ht
    · have hm := mem_faultsOf.mpr ⟨hx, ht⟩
      rw [h] at hm
      cases hm
    · exact ht
  · intro h
    obtain ⟨r', hy⟩ := configured_yields hnew h args.limit
    rw [← (((Reachable.new hnew).configure args.limit).yields.unique hy).1.symm, Readable,
      faultsOf_pieceItems]
    exact readable_of_not_terminal h

end Outcome

/-! ### The exit status -/

section Status

variable {ω W R ε : Type}

/-- The arguments are refused before anything is opened. -/
def ExportArgs.Refused (args : ExportArgs) : Prop := ∃ e, args.checked = .error e

/-- The arguments are accepted and the input opens to `source`. -/
def Opens (sys : ExportSystem ω W R ε) (args : ExportArgs) (w : ω) (source : RdbInput) : Prop :=
  ¬args.Refused ∧ (openRdbInput sys.toSystem args.file w).1 = .ok source

/-- The file has a header and preamble, and no error behind them. -/
def ReadsThrough (input : Bytes) : Prop := ∃ r, RdbReader.new input = .ok r ∧ r.Clean

/-- No column of an export of the file is to hold more than an offset can tell. -/
def HasRoom (globMatch : Bytes → Bytes → Bool) (args : ExportArgs) (input : Bytes) : Prop :=
  ∀ typeTags heuristics r, args.checked = .ok (typeTags, heuristics) → RdbReader.new input = .ok r →
    (args.pipeline typeTags heuristics).config.Fits
      (keptEntries globMatch (args.pipeline typeTags heuristics) r)

/-- No call to the file system or a library fails. -/
structure ExportSystem.Succeeds (sys : ExportSystem ω W R ε) : Prop where
  createDirAll : ∀ dir w, ∃ w', sys.createDirAll dir w = (.ok (), w')
  createFile : ∀ path w, ∃ raw w', sys.createFile path w = (.ok raw, w')
  opened : ∀ args config tag raw w, ∃ writer w',
    (formatLibrary sys args config).openWriter tag raw w = (.ok writer, w')
  write : ∀ args config writer batch w, ∃ writer' w',
    (formatLibrary sys args config).write writer batch w = (.ok (), writer', w')
  close : ∀ args config writer w, ∃ w', (formatLibrary sys args config).close writer w = (.ok (), w')

theorem ExportSystem.Succeeds.callbacks {sys : ExportSystem ω W R ε} (h : sys.Succeeds)
    (args : ExportArgs) (config : ParquetConfig) : (exportCallbacks sys args config).Succeeds where
  factory := by
    intro tag w
    obtain ⟨raw, w', hc⟩ := h.createFile (joinPath args.outputDir (args.filename tag)) w
    refine ⟨raw, w', ?_⟩
    change writerFactory sys args tag w = _
    unfold writerFactory
    simp only [hc]
  opened := h.opened args config
  write := h.write args config
  close := h.close args config

theorem unwinds_of_writer (e : ArrowConvertError ε) (h : e.OfWriter) : e.unwinds = false := by
  cases e with
  | parser f => exact h.elim
  | arrow e => rfl
  | parquet e => rfl
  | io e => rfl

theorem exitStatus_writer {α : Type} {e : ArrowConvertError ε} (h : e.OfWriter) :
    exitStatus (.error (.ofConvert e) : Except (Failure ε) α) = some 1 ∨
      exitStatus (.error (.ofConvert e) : Except (Failure ε) α) = some 3 := by
  cases e with
  | parser f => exact h.elim
  | arrow e => exact .inl rfl
  | parquet e => exact .inl rfl
  | io e => exact .inr rfl

/-- What the exit status of an export says. -/
structure StatusMeans (sys : ExportSystem ω W R ε) (globMatch : Bytes → Bytes → Bool)
    (args : ExportArgs) (w : ω) (status : Nat) : Prop where
  among : status ∈ [0, 1, 2, 3, 4, 101]
  usage : status = 2 ↔ args.Refused
  done : status = 0 → ∃ source, Opens sys args w source ∧ ReadsThrough source.bytes ∧
    HasRoom globMatch args source.bytes
  corrupt : status = 4 → ∃ source, Opens sys args w source ∧ ¬ReadsThrough source.bytes ∧
    HasRoom globMatch args source.bytes
  panicked : status = 101 → ∃ source, Opens sys args w source ∧ ¬HasRoom globMatch args source.bytes
  unopened : sys.Succeeds → (status = 3 ↔ ¬args.Refused ∧ ∀ source, ¬Opens sys args w source)
  opened : sys.Succeeds → ∀ source, Opens sys args w source →
    (status = 0 ↔ ReadsThrough source.bytes ∧ HasRoom globMatch args source.bytes) ∧
    (status = 4 ↔ ¬ReadsThrough source.bytes ∧ HasRoom globMatch args source.bytes) ∧
    (status = 101 ↔ ¬HasRoom globMatch args source.bytes)

variable {sys : ExportSystem ω W R ε} {args : ExportArgs} {w : ω} {tryNew : TryNew ε}
  {globMatch : Bytes → Bytes → Bool}

theorem Opens.unique {source source' : RdbInput} (h : Opens sys args w source)
    (h' : Opens sys args w source') : source = source' := by
  have heq := h.2.symm.trans h'.2
  cases heq
  rfl

theorem StatusMeans.refused (h : args.Refused) : StatusMeans sys globMatch args w 2 where
  among := by decide
  usage := ⟨fun _ => h, fun _ => rfl⟩
  done := nofun
  corrupt := nofun
  panicked := nofun
  unopened := fun _ => ⟨nofun, fun hn => absurd h hn.1⟩
  opened := fun _ _ ho => absurd h ho.1

theorem StatusMeans.not_opened (ha : ¬args.Refused) (h : ∀ source, ¬Opens sys args w source) :
    StatusMeans sys globMatch args w 3 where
  among := by decide
  usage := ⟨nofun, fun hr => absurd hr ha⟩
  done := nofun
  corrupt := nofun
  panicked := nofun
  unopened := fun _ => ⟨fun _ => ⟨ha, h⟩, fun _ => rfl⟩
  opened := fun _ source ho => absurd ho (h source)

/-- How the input ends an export that no writer failed. -/
inductive InputStatus (globMatch : Bytes → Bytes → Bool) (args : ExportArgs) (input : Bytes) :
    Nat → Prop
  | complete : ReadsThrough input → HasRoom globMatch args input → InputStatus globMatch args input 0
  | corrupt : ¬ReadsThrough input → HasRoom globMatch args input → InputStatus globMatch args input 4
  | panicked : ¬HasRoom globMatch args input → InputStatus globMatch args input 101

theorem InputStatus.iff {input : Bytes} {status : Nat} (h : InputStatus globMatch args input status) :
    (status = 0 ↔ ReadsThrough input ∧ HasRoom globMatch args input) ∧
    (status = 4 ↔ ¬ReadsThrough input ∧ HasRoom globMatch args input) ∧
    (status = 101 ↔ ¬HasRoom globMatch args input) := by
  cases h with
  | complete hread hroom => simp [hread, hroom]
  | corrupt hread hroom => simp [hread, hroom]
  | panicked hroom => simp [hroom]

theorem InputStatus.means {source : RdbInput} {status : Nat} (ho : Opens sys args w source)
    (h : InputStatus globMatch args source.bytes status) :
    StatusMeans sys globMatch args w status where
  among := by cases h <;> decide
  usage := ⟨fun hs => (by cases h <;> cases hs), fun hr => absurd hr ho.1⟩
  done := fun hs => ⟨source, ho, h.iff.1.mp hs⟩
  corrupt := fun hs => ⟨source, ho, h.iff.2.1.mp hs⟩
  panicked := fun hs => ⟨source, ho, h.iff.2.2.mp hs⟩
  unopened := fun _ => ⟨fun hs => (by cases h <;> cases hs), fun hn => absurd ho (hn.2 source)⟩
  opened := by
    intro _ source' ho'
    obtain rfl := ho.unique ho'
    exact h.iff

/-- A writer or the directory failed behind an opened input. -/
theorem StatusMeans.failed {source : RdbInput} {status : Nat} (ho : Opens sys args w source)
    (hs : status = 1 ∨ status = 3) (hfail : ¬sys.Succeeds) :
    StatusMeans sys globMatch args w status where
  among := by rcases hs with rfl | rfl <;> decide
  usage := ⟨fun h => by omega, fun hr => absurd hr ho.1⟩
  done := fun h => by omega
  corrupt := fun h => by omega
  panicked := fun h => by omega
  unopened := fun h => absurd h hfail
  opened := fun h => absurd h hfail

theorem readsThrough_iff {input : Bytes} {r : RdbReader} (hnew : RdbReader.new input = .ok r)
    (pipeline : ValkeyRdb.ExportArgs) :
    ReadsThrough input ↔ faultsOf (readerItems pipeline r) = [] := by
  rw [← Readable, readable_iff_clean hnew]
  constructor
  · rintro ⟨r', hnew', hclean⟩
    rw [hnew] at hnew'
    cases hnew'
    exact hclean
  · exact fun h => ⟨r, hnew, h⟩

theorem hasRoom_iff (globMatch : Bytes → Bytes → Bool) {input : Bytes} {r : RdbReader}
    (hnew : RdbReader.new input = .ok r) {typeTags : Option (Finset TypeTag)} {heuristics : Finset Heuristic}
    (hc : args.checked = .ok (typeTags, heuristics)) :
    HasRoom globMatch args input ↔ (args.pipeline typeTags heuristics).config.Fits
      (keptEntries globMatch (args.pipeline typeTags heuristics) r) := by
  refine ⟨fun h => h typeTags heuristics r hc hnew, fun h typeTags' heuristics' r' hc' hnew' => ?_⟩
  rw [hc] at hc'
  cases hc'
  rw [hnew] at hnew'
  cases hnew'
  exact h

/-- The first error that an export is handed, by what is wrong with its input. -/
theorem pulled_firstError (ht : TryNewAccepts tryNew) (globMatch : Bytes → Bytes → Bool)
    {source : RdbInput} {r : RdbReader} (hnew : RdbReader.new source.bytes = .ok r) {typeTags : Option (Finset TypeTag)}
    {heuristics : Finset Heuristic} (hc : args.checked = .ok (typeTags, heuristics)) :
    ∃ status, InputStatus globMatch args source.bytes status ∧
      exitStatus ((firstError (pulled tryNew globMatch (args.pipeline typeTags heuristics) source r)).mapError
        Failure.ofConvert) = some status := by
  have hread := readsThrough_iff hnew (args.pipeline typeTags heuristics)
  have hroom := hasRoom_iff globMatch hnew hc
  by_cases hfits : (args.pipeline typeTags heuristics).config.Fits
      (keptEntries globMatch (args.pipeline typeTags heuristics) r)
  · by_cases hfaults : faultsOf (readerItems (args.pipeline typeTags heuristics) r) = []
    · refine ⟨0, .complete (hread.mpr hfaults) (hroom.mpr hfits), ?_⟩
      rw [firstError_eq, pulled_errors ht hfits source, hfaults]
      rfl
    · obtain ⟨e, rest, -, hitems⟩ := pulled_corrupt ht (Reachable.new hnew) hfits source hfaults
      obtain ⟨e', he'⟩ := source.fault_error e
      refine ⟨4, .corrupt (mt hread.mp hfaults) (hroom.mpr hfits), ?_⟩
      rw [hitems, firstError_behind, he']
      rfl
  · obtain ⟨⟨rest, hitems⟩, -⟩ := pulled_panics ht (Reachable.new hnew) hfits source
    refine ⟨101, .panicked (mt hroom.mp hfits), ?_⟩
    rw [hitems, firstError_behind]
    rfl

/-- The exit status at each point that an export can get to. -/
theorem ExportCase.status (ht : TryNewAccepts tryNew) {out : Except (Failure ε) Unit × ω}
    (h : ExportCase sys tryNew globMatch args w out) :
    ∃ status, exitStatus out.1 = some status ∧ StatusMeans sys globMatch args w status ∧
      (args.Refused → out.2 = w) := by
  have haccepted : ∀ {x}, args.checked = .ok x → ¬args.Refused := by
    rintro x hc ⟨e, he⟩
    rw [hc] at he
    cases he
  cases h with
  | refused hc => exact ⟨2, rfl, .refused ⟨_, hc⟩, fun _ => rfl⟩
  | unopened hc hopen =>
    refine ⟨3, rfl, .not_opened (haccepted hc) ?_, fun h => absurd h (haccepted hc)⟩
    rintro source ⟨-, h⟩
    rw [hopen] at h
    cases h
  | @unread x source w₁ f hc hopen hnew =>
    have hends := new_ends source.bytes
    rw [hnew] at hends
    have ho : Opens sys args w source := ⟨haccepted hc, by rw [hopen]⟩
    have hstatus : InputStatus globMatch args source.bytes 4 := by
      refine .corrupt ?_ fun _ _ r _ hr => ?_
      · rintro ⟨r, hr, -⟩
        rw [hnew] at hr
        cases hr
      · rw [hnew] at hr
        cases hr
    cases f with
    | error e =>
      obtain ⟨e', he'⟩ := source.fault_error e
      rw [he']
      exact ⟨4, rfl, hstatus.means ho, fun h => absurd h ho.1⟩
    | panic => exact hends.elim
    | diverge => exact hends.elim
  | @noDirectory x source w₁ r e w₂ hc hopen hnew hdir =>
    have ho : Opens sys args w source := ⟨haccepted hc, by rw [hopen]⟩
    refine ⟨3, rfl, .failed ho (.inr rfl) fun hs => ?_, fun h => absurd h ho.1⟩
    obtain ⟨w', h⟩ := hs.createDirAll args.outputDir w₁
    rw [hdir] at h
    cases h
  | @ran typeTags heuristics source w₁ r w₂ compression result w₃ hc hopen hnew hdir hcomp hrun =>
    have ho : Opens sys args w source := ⟨haccepted hc, by rw [hopen]⟩
    obtain ⟨status, hinput, hstatus⟩ := pulled_firstError ht globMatch hnew hc
    have hresult := unwinding_result (exportCallbacks_fail sys args
        ⟨compression, args.rowGroupSize, metadataFromRdb r.metadata heuristics⟩) unwinds_of_writer
      (pulled tryNew globMatch (args.pipeline typeTags heuristics) source r) w₂
    rw [hrun] at hresult
    -- what the input has to say first, unless a writer fails before it is asked
    rcases hresult with hfirst | ⟨e, he, hwriter⟩
    · have hfirst' : result = _ := hfirst
      exact ⟨status, by rw [hfirst', hstatus], hinput.means ho, fun h => absurd h ho.1⟩
    · by_cases hs : sys.Succeeds
      · have hsucceeds := @unwinding_succeeds _ _ _ _ _ ArrowConvertError.unwinds _
          (hs.callbacks args ⟨compression, args.rowGroupSize, metadataFromRdb r.metadata heuristics⟩) id
          (pulled tryNew globMatch (args.pipeline typeTags heuristics) source r) w₂
        rw [hrun] at hsucceeds
        have hfirst : result = _ := hsucceeds
        exact ⟨status, by rw [hfirst, hstatus], hinput.means ho, fun h => absurd h ho.1⟩
      · have hresult : result = .error e := he
        subst hresult
        rcases exitStatus_writer (α := Unit) hwriter with h | h
        · exact ⟨1, h, .failed ho (.inl rfl) hs, fun h => absurd h ho.1⟩
        · exact ⟨3, h, .failed ho (.inr rfl) hs, fun h => absurd h ho.1⟩

/-- The exit status of an export: refused arguments leave the machine as it is, and past
them the status tells an input or output that does not open from a file that does not read
to its end, and both from a column that is full. -/
theorem export_exit_status (ht : TryNewAccepts tryNew) (sys : ExportSystem ω W R ε)
    (globMatch : Bytes → Bytes → Bool) (args : ExportArgs) (w : ω) :
    ∃ rounds, ∀ n, rounds ≤ n → ∃ status,
      exitStatus (exportRun sys tryNew globMatch n args w).1 = some status ∧
      StatusMeans sys globMatch args w status ∧
      (args.Refused → (exportRun sys tryNew globMatch n args w).2 = w) := by
  obtain ⟨rounds, hcases⟩ := exportRun_cases sys tryNew globMatch args w
  exact ⟨rounds, fun n hn => (hcases n hn).status ht⟩

end Status

/-! ### An export of one list -/

/-- A library whose calls succeed and do nothing. -/
def quietLibrary (ε : Type) : FormatLibrary Unit Unit Unit ε where
  openWriter _ _ w := (.ok (), w)
  write _ _ w := (.ok (), (), w)
  close _ w := (.ok (), w)
  openWriter_error := by
    intro tag raw w e w' h
    cases h
  write_error := by
    intro writer batch w e writer' w' h
    cases h
  close_error := by
    intro writer w e w' h
    cases h

/-- A machine where every file holds `listFile`. -/
def listSystem : ExportSystem Unit Unit Unit String where
  stdin w := (⟨listFile, none⟩, w)
  openInput _ w := (.ok ⟨listFile, none⟩, w)
  createDirAll _ w := (.ok (), w)
  createFile _ w := (.ok (), w)
  parquet _ := quietLibrary String
  arrowIpc := quietLibrary String
  csv := quietLibrary String
  json := quietLibrary String

theorem listSystem_succeeds : listSystem.Succeeds where
  createDirAll _ w := ⟨w, rfl⟩
  createFile _ w := ⟨(), w, rfl⟩
  opened args _ _ _ w := ⟨(), w, by unfold formatLibrary; cases args.format <;> rfl⟩
  write args _ _ _ w := ⟨(), w, by unfold formatLibrary; cases args.format <;> rfl⟩
  close args _ _ w := ⟨w, by unfold formatLibrary; cases args.format <;> rfl⟩

/-- The arguments of `rdb export dump.rdb`. -/
def defaultExportArgs : ExportArgs where
  file := asciiBytes "dump.rdb"
  output := none
  format := .parquet
  compression := .zstd
  db := none
  typeNames := none
  keyPattern := none
  batchSize := 65536
  rowGroupSize := 1048576
  shardId := none
  maxKeyElements := none
  noChunking := false
  batchBytes := none
  maxEntryBytes := none
  heuristic := "all"

theorem defaultExportArgs_checked : defaultExportArgs.checked = .ok (none, Heuristic.all) := by
  decide +kernel

/-- The one list of the file fits any column. -/
theorem listFile_hasRoom : HasRoom (fun _ _ => true) defaultExportArgs listFile := by
  obtain ⟨hnew, -, -⟩ := listReader_clean
  rw [hasRoom_iff _ hnew defaultExportArgs_checked, ← eachFits_iff_fits checkedTryNew_accepts]
  decide +kernel

theorem export_exit_status_list : ∃ rounds, ∀ n, rounds ≤ n →
    exitStatus (exportRun listSystem checkedTryNew (fun _ _ => true) n defaultExportArgs ()).1 =
      some 0 := by
  obtain ⟨hnew, hclean, -⟩ := listReader_clean
  have haccepted : ¬defaultExportArgs.Refused := by
    rintro ⟨e, he⟩
    rw [defaultExportArgs_checked] at he
    cases he
  obtain ⟨rounds, h⟩ := export_exit_status checkedTryNew_accepts listSystem (fun _ _ => true)
    defaultExportArgs ()
  refine ⟨rounds, fun n hn => ?_⟩
  obtain ⟨status, hstatus, hmeans, -⟩ := h n hn
  have hzero := (hmeans.opened listSystem_succeeds ⟨listFile, none⟩ ⟨haccepted, rfl⟩).1
  rw [hstatus, hzero.mpr ⟨⟨listReader, hnew, hclean⟩, listFile_hasRoom⟩]

end ValkeyRdb.Cli
