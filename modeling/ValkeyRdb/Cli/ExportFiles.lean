import ValkeyRdb.Arrow.WriterInvariant
import ValkeyRdb.Cli.ExportOutcome
import ValkeyRdb.Cli.OutputFiles

/-!
# What an export leaves on disk (export.rs:46-158)

The machine keeps the files of the output directory; its calls change the file they were
opened for and no other. An export that succeeds then leaves a finished file for each tag
of its batches, and one that fails at any point nothing but files that begin like them,
which a panic leaves open.
-/

namespace ValkeyRdb.Cli

section Machine

variable {ω W R ε : Type}

/-- A library whose calls are kept in the file the writer was opened for. `raw` and `own`
tell the file of an output and of a writer. -/
structure FormatLibrary.Stores (lib : FormatLibrary ω W R ε) (files : ω → Files)
    (raw : Bytes → W → Prop) (own : Bytes → R → Prop) (opened : TypeTag → FileCall) : Prop where
  openWriter : ∀ {name tag a w x w'}, raw name a → lib.openWriter tag a w = (x, w') →
    files w' = Function.update (files w) name
      ((files w name).map (·.add (.unless (failureOf x) (opened tag)))) ∧ ∀ r, x = .ok r → own name r
  write : ∀ {name r batch w x r' w'}, own name r → lib.write r batch w = (x, r', w') →
    files w' = Function.update (files w) name
      ((files w name).map (·.add (.unless (failureOf x) (.wrote batch)))) ∧ own name r'
  close : ∀ {name r w x w'}, own name r → lib.close r w = (x, w') →
    files w' = Function.update (files w) name
      ((files w name).map (·.add (.unless (failureOf x) .closed)))

/-- A machine with the files of one directory. Reading changes none of them, and
`File::create` empties the file it creates. -/
structure ExportSystem.Stores (sys : ExportSystem ω W R ε) (dir : Bytes) (files : ω → Files)
    (raw : Bytes → W → Prop) (own : Bytes → R → Prop) : Prop where
  stdin : ∀ w, files (sys.stdin w).2 = files w
  openInput : ∀ path w, files (sys.openInput path w).2 = files w
  createDirAll : ∀ w, files (sys.createDirAll dir w).2 = files w
  created : ∀ {name w a w'}, 47 ∉ name → sys.createFile (joinPath dir name) w = (.ok a, w') →
    files w' = Function.update (files w) name (some (.written [])) ∧ raw name a
  refused : ∀ {name w e w'}, 47 ∉ name → sys.createFile (joinPath dir name) w = (.error e, w') →
    files w' = files w
  parquet : ∀ config, (sys.parquet config).Stores files raw own
    fun tag => .opened .parquet tag config.fileMetadata
  arrowIpc : sys.arrowIpc.Stores files raw own fun tag => .opened .arrowIpc tag .empty
  csv : sys.csv.Stores files raw own fun tag => .opened .csv tag .empty
  json : sys.json.Stores files raw own fun tag => .opened .json tag .empty

/-- The files that an export with accepted arguments writes. -/
def ExportArgs.exporter (args : ExportArgs) (hid : ShardIdChecked args.shardId)
    (metadata : SortedMap String String) : Exporter := ⟨args.shardId, args.format, metadata, hid⟩

/-- Arguments that were accepted have a shard id without dots and slashes. -/
theorem shardId_of_checked {args : ExportArgs} {x : Option (Finset TypeTag) × Finset Heuristic}
    (h : args.checked = .ok x) : ShardIdChecked args.shardId := by
  intro s hs
  unfold ExportArgs.checked at h
  cases ht : args.parsedTypes with
  | error e =>
    rw [ht] at h
    cases h
  | ok typeTags =>
    simp only [ht] at h
    cases hok : shardIdOk s with
    | true => rfl
    | false =>
      rw [hs, if_pos (by simp [hok])] at h
      cases h

theorem slash_notMem_filename (x : Exporter) (tag : TypeTag) : (47 : UInt8) ∉ x.filename tag := by
  have htag : (47 : UInt8) ∉ tag.asStr := by cases tag <;> decide
  have hext : (47 : UInt8) ∉ x.format.ext := by cases x.format <;> decide
  have hdot : (47 : UInt8) ∉ dot := by decide
  have hsuffix : (47 : UInt8) ∉ shardSuffix x.shardId := by
    cases hs : x.shardId with
    | none => exact List.not_mem_nil
    | some s =>
      have hok := x.checked s hs
      unfold shardIdOk at hok
      rw [Bool.and_eq_true, List.all_eq_true] at hok
      intro hm
      rcases List.mem_append.mp hm with hm | hm
      · exact hdot hm
      · exact absurd (hok.2 _ hm) (by decide)
  unfold Exporter.filename
  simp only [List.mem_append, not_or]
  exact ⟨⟨⟨htag, hsuffix⟩, hdot⟩, hext⟩

variable {sys : ExportSystem ω W R ε} {args : ExportArgs} {files : ω → Files}
  {raw : Bytes → W → Prop} {own : Bytes → R → Prop}

/-- The library of the format, with the schema metadata of a Parquet file. -/
theorem formatLibrary_stores (h : sys.Stores args.outputDir files raw own)
    (hid : ShardIdChecked args.shardId) (config : ParquetConfig) :
    (formatLibrary sys args config).Stores files raw own
      (args.exporter hid config.fileMetadata).opened := by
  have hopened : (args.exporter hid config.fileMetadata).opened = fun tag => .opened args.format tag
      (if args.format = .parquet then config.fileMetadata else .empty) := rfl
  rw [hopened]
  unfold formatLibrary
  cases args.format with
  | parquet => exact h.parquet config
  | arrowIpc => exact h.arrowIpc
  | csv => exact h.csv
  | json => exact h.json

/-- On such a machine the calls of the pipeline change the files as the exporter says. -/
theorem exportCallbacks_replays (h : sys.Stores args.outputDir files raw own)
    (hid : ShardIdChecked args.shardId) (config : ParquetConfig) :
    (exportCallbacks sys args config).Replays files (args.exporter hid config.fileMetadata).change
      (fun tag => raw (args.filename tag)) (fun tag => own (args.filename tag)) := by
  have hlib := formatLibrary_stores h hid config
  constructor
  · intro tag w x w' hx
    have hrun : writerFactory sys args tag w = (x, w') := hx
    have hslash := slash_notMem_filename (args.exporter hid config.fileMetadata) tag
    unfold writerFactory at hrun
    rcases hc : sys.createFile (joinPath args.outputDir (args.filename tag)) w with ⟨e | a, w₁⟩
    · simp only [hc] at hrun
      cases hrun
      refine ⟨?_, nofun⟩
      rw [h.refused hslash hc]
      exact (Function.update_eq_self _ _).symm
    · simp only [hc] at hrun
      cases hrun
      obtain ⟨hfiles, hraw⟩ := h.created hslash hc
      refine ⟨hfiles, fun a' ha => ?_⟩
      cases ha
      exact hraw
  · exact hlib.openWriter
  · exact hlib.write
  · exact hlib.close

end Machine

/-! ### Whole runs -/

section Runs

variable {ω W R ε : Type}

/-- The files behind an export of `input` that succeeded: those of its batches, finished,
whose rows are those of the entries it keeps. -/
structure LeavesFinished (globMatch : Bytes → Bytes → Bool) (args : ExportArgs) (input : Bytes)
    (before after : Files) (r : RdbReader) (typeTags : Option (Finset TypeTag))
    (heuristics : Finset Heuristic) (hid : ShardIdChecked args.shardId) (batches : List TypedBatch) :
    Prop where
  reader : RdbReader.new input = .ok r ∧ args.checked = .ok (typeTags, heuristics)
  files : ∀ tag, after (args.filename tag) =
    if ∃ t ∈ batches, t.tag = tag then
      some ((args.exporter hid (metadataFromRdb r.metadata heuristics)).finished tag
        (tagBatches tag batches))
    else before (args.filename tag)
  tags : ∀ tags, typeTags = some tags → ∀ t ∈ batches, t.tag ∈ tags
  rows : ∀ tag, (∀ tags, typeTags = some tags → tag ∈ tags) → tagRows tag batches =
    (keptEntries globMatch (args.pipeline typeTags heuristics) r).flatMap
      ((args.pipeline typeTags heuristics).config.taken tag)

/-- What an export that took its input from the state `w` did to the files, however it
ended. -/
structure FilesBehind (sys : ExportSystem ω W R ε) (tryNew : TryNew ε)
    (globMatch : Bytes → Bytes → Bool) (args : ExportArgs) (w : ω) (before after : Files)
    (result : Except (Failure ε) Unit) : Prop where
  others : ∀ name, (∀ tag, name ≠ args.filename tag) → after name = before name
  done : result = .ok () → ∃ source r typeTags heuristics hid batches,
    (openRdbInput sys.toSystem args.file w).1 = .ok source ∧
    LeavesFinished globMatch args source.bytes before after r typeTags heuristics hid batches
  left : ∀ tag, after (args.filename tag) = before (args.filename tag) ∨
    ∃ source r typeTags heuristics attempts calls,
      (openRdbInput sys.toSystem args.file w).1 = .ok source ∧ RdbReader.new source.bytes = .ok r ∧
      args.checked = .ok (typeTags, heuristics) ∧
      attempts.map .ok <+: pulled tryNew globMatch (args.pipeline typeTags heuristics) source r ∧
      after (args.filename tag) = some (.written calls) ∧
      LeftBehind (result = .error .panic) (tagBatches tag attempts) calls

theorem FilesBehind.unchanged {sys : ExportSystem ω W R ε} {tryNew : TryNew ε}
    {globMatch : Bytes → Bytes → Bool} {args : ExportArgs} {w : ω} {before after : Files}
    {e : Failure ε} (h : after = before) :
    FilesBehind sys tryNew globMatch args w before after (.error e) where
  others := fun name _ => by rw [h]
  done := nofun
  left := fun tag => .inl (by rw [h])

variable {sys : ExportSystem ω W R ε} {args : ExportArgs} {files : ω → Files}
  {raw : Bytes → W → Prop} {own : Bytes → R → Prop}

theorem openRdbInput_files (h : sys.Stores args.outputDir files raw own) {w w' : ω}
    {x : Except IoError RdbInput} (hx : openRdbInput sys.toSystem args.file w = (x, w')) :
    files w' = files w := by
  unfold openRdbInput at hx
  split at hx
  · have hkeep := h.stdin w
    cases hx
    exact hkeep
  · have hkeep := h.openInput args.file w
    rcases hr : sys.openInput args.file w with ⟨e | source, w₁⟩
    · rw [hr] at hx hkeep
      cases hx
      exact hkeep
    · rw [hr] at hx hkeep
      cases hx
      exact hkeep

/-- The files behind a pipeline that succeeded, by its batches. -/
theorem files_finished (h : sys.Stores args.outputDir files raw own)
    (hid : ShardIdChecked args.shardId) (config : ParquetConfig)
    {items : List (Except (ArrowConvertError ε) TypedBatch)} {w w' : ω}
    (hrun : runUnwinding ArrowConvertError.unwinds (exportCallbacks sys args config) id items w =
      (.ok (), w')) :
    ∃ ts, items = ts.map .ok ∧ ∀ tag, files w' (args.filename tag) =
      if ∃ t ∈ ts, t.tag = tag then
        some ((args.exporter hid config.fileMetadata).finished tag (tagBatches tag ts))
      else files w (args.filename tag) := by
  have hcase := runUnwinding_cases (exportCallbacks_fail sys args config) unwinds_of_writer items w
  rw [hrun] at hcase
  cases hcase with
  | closed hclosed =>
    obtain ⟨result', w'', trace, attempts, last, closed, hrun', hcalls, hfiles⟩ := pipeline_replays
      (exportCallbacks_replays h hid config) id items w
    rw [hclosed] at hrun'
    cases hrun'
    obtain ⟨ts, hts, heffect⟩ := effectAt_complete (args.exporter hid config.fileMetadata) hcalls
    refine ⟨ts, hts, fun tag => ?_⟩
    rw [hfiles, replay_apply]
    exact heffect tag _

/-- The run of a pipeline was unwound. -/
def Unwound (result : Except (ArrowConvertError ε) Unit) : Prop :=
  ∃ e, result = .error e ∧ e.unwinds = true

/-- The calls of a run change the files of its tags only. -/
theorem files_elsewhere {hid : ShardIdChecked args.shardId} {config : ParquetConfig} {w w' : ω}
    {log : List (WriterEvent (ArrowConvertError ε) (ArrowConvertError ε))}
    (hfiles : files w' = replay (log.map (args.exporter hid config.fileMetadata).change) (files w))
    {name : Bytes} (hno : ∀ tag, name ≠ args.filename tag) : files w' name = files w name := by
  rw [hfiles, replay_apply]
  apply effectAt_of_ne
  intro c hc
  obtain ⟨e, -, rfl⟩ := List.mem_map.mp hc
  exact (hno e.tag).symm

/-- The files behind a pipeline, however it ended. -/
theorem files_left (h : sys.Stores args.outputDir files raw own)
    (hid : ShardIdChecked args.shardId) (config : ParquetConfig)
    {items : List (Except (ArrowConvertError ε) TypedBatch)} {w w' : ω}
    {result : Except (ArrowConvertError ε) Unit}
    (hrun : runUnwinding ArrowConvertError.unwinds (exportCallbacks sys args config) id items w =
      (result, w')) :
    (∀ name, (∀ tag, name ≠ args.filename tag) → files w' name = files w name) ∧
    ∃ attempts : List TypedBatch, attempts.map .ok <+: items ∧
      ∀ tag, files w' (args.filename tag) = files w (args.filename tag) ∨
        ∃ calls, files w' (args.filename tag) = some (.written calls) ∧
          LeftBehind (Unwound result) (tagBatches tag attempts) calls := by
  have hreplays := exportCallbacks_replays h hid config
  have hcase := runUnwinding_cases (exportCallbacks_fail sys args config) unwinds_of_writer items w
  rw [hrun] at hcase
  cases hcase with
  | closed hclosed hno =>
    obtain ⟨result', w'', trace, attempts, last, closed, hrun', hcalls, hfiles⟩ := pipeline_replays
      hreplays id items w
    rw [hclosed] at hrun'
    cases hrun'
    have hclosed' : ¬Unwound result := by
      rintro ⟨e, he, hu⟩
      exact Bool.false_ne_true ((hno e he).symm.trans hu)
    refine ⟨fun _ => files_elsewhere hfiles, attempts.map Prod.fst, ?_, fun tag => ?_⟩
    · rw [List.map_map]
      exact hcalls.attempted
    · have hafter := (congrFun hfiles (args.filename tag)).trans (replay_apply _ _ _)
      rw [hafter]
      exact effectAt_left (args.exporter hid config.fileMetadata) hcalls hclosed' tag _
  | @unwound e writers w' hloop hu hfirst =>
    obtain ⟨result', writers', w'', traced, log, attempts, last, hrun', hend, hfiles⟩ :=
      populate_replays hreplays items w
    rw [hloop] at hrun'
    cases hrun'
    refine ⟨fun _ => files_elsewhere hfiles, attempts.map Prod.fst, ?_, fun tag => ?_⟩
    · rw [List.map_map]
      exact hend.attempted
    · have hafter := (congrFun hfiles (args.filename tag)).trans (replay_apply _ _ _)
      rw [hafter]
      exact effectAt_unwound (args.exporter hid config.fileMetadata) hend ⟨e, rfl, hu⟩ tag _

/-- Of the runs of an export those are unwound that end in a panic. -/
theorem unwound_iff {result : Except (ArrowConvertError ε) Unit} {status : Nat}
    (h : exitStatus (result.mapError Failure.ofConvert) = some status) :
    Unwound result ↔ result.mapError Failure.ofConvert = .error .panic := by
  constructor
  · rintro ⟨e, rfl, hu⟩
    cases e with
    | parser f =>
      cases f with
      | error e => cases hu
      | panic => rfl
      | diverge => cases h
    | arrow e => cases hu
    | parquet e => cases hu
    | io e => cases hu
  · intro hpanic
    rcases result with e | u
    · cases e with
      | parser f =>
        cases f with
        | error e => cases hpanic
        | panic => exact ⟨_, rfl, rfl⟩
        | diverge => cases hpanic
      | arrow e => cases hpanic
      | parquet e => cases hpanic
      | io e => cases hpanic
    · cases hpanic

/-- The files at each point that an export can get to. -/
theorem ExportCase.behind {tryNew : TryNew ε} {globMatch : Bytes → Bytes → Bool}
    (ht : TryNewAccepts tryNew) (h : sys.Stores args.outputDir files raw own) {w : ω}
    {out : Except (Failure ε) Unit × ω} (hcase : ExportCase sys tryNew globMatch args w out) :
    FilesBehind sys tryNew globMatch args w (files w) (files out.2) out.1 := by
  obtain ⟨status, hstatus, -, -⟩ := hcase.status ht
  have hdirectory : ∀ {x w₁ w₂}, sys.createDirAll args.outputDir w₁ = (x, w₂) → files w₂ = files w₁ := by
    intro x w₁ w₂ hdir
    have hkeep := h.createDirAll w₁
    rw [hdir] at hkeep
    exact hkeep
  cases hcase with
  | refused hc => exact .unchanged rfl
  | unopened hc hopen => exact .unchanged (openRdbInput_files h hopen)
  | unread hc hopen hnew =>
    exact .unchanged (openRdbInput_files h hopen)
  | noDirectory hc hopen hnew hdir =>
    exact .unchanged ((hdirectory hdir).trans (openRdbInput_files h hopen))
  | @ran typeTags heuristics source w₁ r w₂ compression result w₃ hc hopen hnew hdir hcomp hrun =>
    have hbefore : files w₂ = files w := (hdirectory hdir).trans (openRdbInput_files h hopen)
    have hinput : (openRdbInput sys.toSystem args.file w).1 = .ok source := by rw [hopen]
    have hid := shardId_of_checked hc
    obtain ⟨hothers, attempts, hattempts, hleft⟩ := files_left h hid _ hrun
    rw [hbefore] at hothers hleft
    refine ⟨hothers, fun hok => ?_, fun tag => ?_⟩
    · cases result with
      | error e => cases hok
      | ok u =>
        obtain ⟨ts, hts, hfinished⟩ := files_finished h hid _ hrun
        rw [hbefore] at hfinished
        obtain ⟨rfl, hfits, hread⟩ := handed_ok ht (Reachable.new hnew) hts
        have htags := (handed_leading ht globMatch (Reachable.new hnew)
          (args.pipeline typeTags heuristics)).2.1
        have hrows := (handed_whole ht hfits hread).2
        exact ⟨source, r, typeTags, heuristics, hid, _, hinput, ⟨hnew, hc⟩, hfinished, htags, hrows⟩
    · refine (hleft tag).imp_right ?_
      rintro ⟨calls, hmade, hcalled⟩
      rw [propext (unwound_iff hstatus)] at hcalled
      exact ⟨source, r, typeTags, heuristics, attempts, calls, hinput, hnew, hc, hattempts, hmade, hcalled⟩

/-- However an export ends, it touches only the files it is to write. If it succeeds it
finishes one for each tag of its batches; if not, a file is as it was or begins like that,
and one that a panic leaves is not closed. -/
theorem export_files {tryNew : TryNew ε} (ht : TryNewAccepts tryNew) (sys : ExportSystem ω W R ε)
    (globMatch : Bytes → Bytes → Bool) (args : ExportArgs) (files : ω → Files)
    (raw : Bytes → W → Prop) (own : Bytes → R → Prop)
    (h : sys.Stores args.outputDir files raw own) (w : ω) :
    ∃ rounds, ∀ n, rounds ≤ n →
      FilesBehind sys tryNew globMatch args w (files w)
        (files (exportRun sys tryNew globMatch n args w).2)
        (exportRun sys tryNew globMatch n args w).1 := by
  obtain ⟨rounds, hcases⟩ := exportRun_cases sys tryNew globMatch args w
  exact ⟨rounds, fun n hn => (hcases n hn).behind ht h⟩

end Runs

/-! ### A machine of one directory -/

def addCall (call : FileCall) (name : Bytes) (files : Files) : Files :=
  Function.update files name ((files name).map (·.add call))

/-- A library that writes its calls down; an output is the name of its file. -/
def storeLibrary (opened : TypeTag → FileCall) : FormatLibrary Files Bytes Bytes String where
  openWriter tag name w := (.ok name, addCall (opened tag) name w)
  write name batch w := (.ok (), name, addCall (.wrote batch) name w)
  close name w := (.ok (), addCall .closed name w)
  openWriter_error := by
    intro tag raw w e w' h
    cases h
  write_error := by
    intro writer batch w e writer' w' h
    cases h
  close_error := by
    intro writer w e w' h
    cases h

theorem storeLibrary_stores (opened : TypeTag → FileCall) :
    (storeLibrary opened).Stores id (fun name a => a = name) (fun name a => a = name) opened where
  openWriter := by
    rintro name tag _ w x w' rfl h
    cases h
    exact ⟨rfl, by rintro r ⟨⟩; rfl⟩
  write := by
    rintro name _ batch w x r' w' rfl h
    cases h
    exact ⟨rfl, rfl⟩
  close := by
    rintro name _ w x w' rfl h
    cases h
    rfl

/-- The state is the files of the directory "out"; every input is `listFile`. -/
def storeSystem : ExportSystem Files Bytes Bytes String where
  stdin w := (⟨listFile, none⟩, w)
  openInput _ w := (.ok ⟨listFile, none⟩, w)
  createDirAll _ w := (.ok (), w)
  createFile path w := (.ok (path.drop 4), Function.update w (path.drop 4) (some (.written [])))
  parquet config := storeLibrary fun tag => .opened .parquet tag config.fileMetadata
  arrowIpc := storeLibrary fun tag => .opened .arrowIpc tag .empty
  csv := storeLibrary fun tag => .opened .csv tag .empty
  json := storeLibrary fun tag => .opened .json tag .empty

theorem storeSystem_stores : storeSystem.Stores (asciiBytes "out") id (fun name a => a = name)
    (fun name a => a = name) where
  stdin _ := rfl
  openInput _ _ := rfl
  createDirAll _ := rfl
  created := by
    intro name w a w' _ h
    have hdrop : (joinPath (asciiBytes "out") name).drop 4 = name := rfl
    have hrun : storeSystem.createFile (joinPath (asciiBytes "out") name) w =
        (.ok name, Function.update w name (some (.written []))) := by
      simp only [storeSystem, hdrop]
    rw [hrun] at h
    cases h
    exact ⟨rfl, rfl⟩
  refused := by
    intro name w e w' _ h
    cases h
  parquet config := storeLibrary_stores _
  arrowIpc := storeLibrary_stores _
  csv := storeLibrary_stores _
  json := storeLibrary_stores _

theorem storeSystem_succeeds : storeSystem.Succeeds where
  createDirAll _ w := ⟨w, rfl⟩
  createFile _ w := ⟨_, _, rfl⟩
  opened args _ _ _ _ := by unfold formatLibrary; cases args.format <;> exact ⟨_, _, rfl⟩
  write args _ _ _ _ := by unfold formatLibrary; cases args.format <;> exact ⟨_, _, rfl⟩
  close args _ _ _ := by unfold formatLibrary; cases args.format <;> exact ⟨_, rfl⟩

/-- The arguments of `rdb export dump.rdb -o out`. -/
def outArgs : ExportArgs := { defaultExportArgs with output := some (asciiBytes "out") }

theorem outArgs_opens : Opens storeSystem outArgs (fun _ => none) ⟨listFile, none⟩ := by
  refine ⟨?_, rfl⟩
  rintro ⟨e, he⟩
  have hchecked : outArgs.checked = _ := defaultExportArgs_checked
  rw [hchecked] at he
  cases he

/-- The file of the list, finished, and a name that is none of the export. -/
theorem export_files_list : ∃ rounds, ∀ n, rounds ≤ n → ∃ metadata, ∃ batches : List RecordBatch,
    (exportRun storeSystem checkedTryNew (fun _ _ => true) n outArgs fun _ => none).2
      (asciiBytes "list.parquet") =
        some (.written (.opened .parquet .list metadata :: batches.map .wrote ++ [.closed])) ∧
    batches.flatMap RecordBatch.rows = TypeTag.list.entryRows listEntry ∧
    (exportRun storeSystem checkedTryNew (fun _ _ => true) n outArgs fun _ => none).2
      (asciiBytes "notes.txt") = none := by
  obtain ⟨hnew, hclean, -⟩ := listReader_clean
  obtain ⟨rounds, hcases⟩ := exportRun_cases storeSystem checkedTryNew (fun _ _ => true) outArgs
    fun _ => none
  obtain ⟨rounds', h⟩ := export_files checkedTryNew_accepts storeSystem (fun _ _ => true) outArgs id
    (fun name a => a = name) (fun name a => a = name) storeSystem_stores fun _ => none
  refine ⟨max rounds rounds', fun n hn => ?_⟩
  have hbehind := h n (le_trans (le_max_right _ _) hn)
  have hok : (exportRun storeSystem checkedTryNew (fun _ _ => true) n outArgs fun _ => none).1 = .ok () := by
    obtain ⟨status, hstatus, hmeans, -⟩ :=
      (hcases n (le_trans (le_max_left _ _) hn)).status checkedTryNew_accepts
    have hzero := ((hmeans.opened storeSystem_succeeds _ outArgs_opens).1).mpr
      ⟨⟨listReader, hnew, hclean⟩, listFile_hasRoom⟩
    rw [hzero] at hstatus
    exact exitStatus_zero hstatus
  obtain ⟨source, r, typeTags, heuristics, hid, ts, hopen, hfinished⟩ := hbehind.done hok
  cases outArgs_opens.2.symm.trans hopen
  obtain ⟨hr, hc⟩ := hfinished.reader
  cases hnew.symm.trans hr
  have hchecked : outArgs.checked = _ := defaultExportArgs_checked
  cases hchecked.symm.trans hc
  have hrows : tagRows .list ts = TypeTag.list.entryRows listEntry := by
    rw [hfinished.rows .list nofun]
    decide +kernel
  have hex : ∃ t ∈ ts, t.tag = .list := by
    by_contra hno
    have hnil : tagRows .list ts = [] := by
      unfold tagRows
      rw [List.flatMap_eq_nil_iff]
      intro t ht
      obtain ⟨hm, htag⟩ := List.mem_filter.mp ht
      exact absurd ⟨t, hm, beq_iff_eq.mp htag⟩ hno
    rw [hnil] at hrows
    revert hrows
    decide +kernel
  refine ⟨_, tagBatches .list ts, (hfinished.files .list).trans (if_pos hex), ?_, ?_⟩
  · rw [← hrows]
    unfold tagBatches tagRows
    rw [List.flatMap_map]
  · refine hbehind.others _ fun tag => ?_
    cases tag <;> decide

end ValkeyRdb.Cli
