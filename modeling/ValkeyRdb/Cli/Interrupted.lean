import ValkeyRdb.Cli.ShardedValidate
import ValkeyRdb.Cli.Truncated

/-!
# Exports that were stopped (writer.rs:52-99, validate.rs)

Exports that share the rows of a file may be stopped at any point, or be given the first
bytes of the file only. A file of theirs is then unfinished, or finished with the first of
its batches. `validate` tells whether anything is missing.
-/

namespace ValkeyRdb

section Stopped

variable {E C : Type}

/-- The call returned without an error. -/
def WriterEvent.Succeeded (e : WriterEvent E C) : Prop := e.failure = none ∧ e.closeFailure = none

/-- There is no file, or one whose writer was not closed. -/
def Unfinished (f : Option StoredFile) : Prop :=
  f = none ∨ ∃ calls, f = some (.written calls) ∧ .closed ∉ calls

theorem Unfinished.add {f : Option StoredFile} (h : Unfinished f) {call : FileCall} (hc : call ≠ .closed) :
    Unfinished (f.map (·.add call)) := by
  rcases h with rfl | ⟨calls, rfl, hno⟩
  · exact .inl rfl
  · refine .inr ⟨calls ++ [call], rfl, ?_⟩
    simp [hno, Ne.symm hc]

/-- Calls that close no writer finish no file. -/
theorem effectAt_unfinished (x : Exporter) (name : Bytes) {log : List (WriterEvent E C)}
    (h : ∀ e ∈ log, e.closedTag = none) {f : Option StoredFile} (hf : Unfinished f) :
    Unfinished (effectAt name (log.map x.change) f) := by
  induction log generalizing f with
  | nil => exact hf
  | cons e log ih =>
    rw [List.forall_mem_cons] at h
    rw [List.map_cons, effectAt]
    apply ih h.2
    split
    · cases e with
      | factory tag failed =>
        cases failed with
        | none => exact .inr ⟨[], rfl, List.not_mem_nil⟩
        | some e => exact hf
      | opened tag failed => cases failed <;> exact hf.add FileCall.noConfusion
      | wrote tag batch failed => cases failed <;> exact hf.add FileCall.noConfusion
      | closed tag failed => cases h.1
    · exact hf

theorem tagCalls_unclosed (tag : TypeTag) (attempts : List (Attempt E)) :
    ∀ e ∈ tagCalls (C := C) tag attempts, e.closedTag = none := by
  unfold tagCalls
  cases attempts.filter fun a => a.1.tag == tag with
  | nil => exact nofun
  | cons a as =>
    intro e he
    simp only [List.mem_cons, List.mem_map] at he
    rcases he with rfl | rfl | ⟨b, -, rfl⟩ <;> rfl

/-- The file of a tag after the first calls of a run, which all succeeded: not finished, or
finished with what the run attempts to write to it. -/
theorem effectAt_stopped (x : Exporter) {batches : List (Except E TypedBatch)} {result : Except E Unit}
    {trace steps : List (WriterEvent E C)} {attempts : List (Attempt E)} {last : List (WriterEvent E C)}
    {closed : TypeTag → Option C} (h : PipelineCalls batches result trace attempts last closed)
    (hs : steps <+: trace) (hok : ∀ e ∈ steps, e.Succeeded) (tag : TypeTag) :
    Unfinished (effectAt (x.filename tag) (steps.map x.change) none) ∨
    (∃ a ∈ attempts, a.1.tag = tag) ∧ effectAt (x.filename tag) (steps.map x.change) none =
      some (x.finished tag (tagBatches tag (attempts.map Prod.fst))) := by
  have hleading : WriterEvent.forTag tag steps <+: WriterEvent.forTag tag trace := hs.filter _
  have hsteps : ∀ e ∈ WriterEvent.forTag tag steps, e.Succeeded :=
    fun e he => hok e (List.mem_filter.mp he).1
  rw [effectAt_forTag]
  by_cases hex : ∃ a ∈ attempts, a.1.tag = tag
  · rw [h.calls_of_attempt hex] at hleading
    rcases List.prefix_concat_iff.mp hleading with hall | hpart
    · refine .inr ⟨hex, ?_⟩
      rw [hall] at hsteps ⊢
      have hclosed : closed tag = none := (hsteps _ List.mem_concat_self).2
      rw [effectAt_calls x hex, hclosed, file_of_written]
      intro a ha htag
      have hmem : (.wrote tag a.1.batch a.2 : WriterEvent E C) ∈ tagCalls tag attempts := by
        have hin : a ∈ attempts.filter fun a => a.1.tag == tag :=
          List.mem_filter.mpr ⟨ha, by simp [htag]⟩
        unfold tagCalls
        cases hf : attempts.filter (fun a => a.1.tag == tag) with
        | nil =>
          rw [hf] at hin
          cases hin
        | cons b bs =>
          rw [hf] at hin
          exact List.mem_cons_of_mem _ (List.mem_cons_of_mem _ (List.mem_map_of_mem hin))
      exact (hsteps _ (List.mem_append_left _ hmem)).1
    · refine .inl (effectAt_unfinished x _ (fun e he => ?_) (.inl rfl))
      exact tagCalls_unclosed tag attempts e (hpart.subset he)
  · have hno : ∀ a ∈ attempts, a.1.tag ≠ tag := fun a ha htag => hex ⟨a, ha, htag⟩
    rw [h.calls, tagCalls_nil hno, if_neg hex, List.nil_append, List.append_nil] at hleading
    refine .inl (effectAt_unfinished x _ (fun e he => ?_) (.inl rfl))
    have hlast := (List.mem_filter.mp (hleading.subset he)).1
    rcases h.last_new with rfl | ⟨other, -, e', rfl | rfl⟩
    · cases hlast
    · rw [List.mem_singleton.mp hlast]
      rfl
    · simp only [List.mem_cons, List.not_mem_nil, or_false] at hlast
      rcases hlast with rfl | rfl <;> rfl

end Stopped

namespace Cli

/-! ### What `validate` needs to read -/

section Reading

variable {ω F ε : Type} {sys : ValidateSystem ω F ε} {args : ValidateArgs} {files : Files} {d : Directory}
  {I I' : ω → Prop}

/-- In the states of `I` the directory can be listed, and a finished Parquet file reads back. A
file whose writer was not closed has no footer to read. -/
structure ReadsFinished (sys : ValidateSystem ω F ε) (dir : Bytes) (files : Files) (d : Directory)
    (I : ω → Prop) : Prop where
  readDir : ∀ {w}, I w → sys.readDir dir w = some d.names
  fileExists : ∀ {name w}, I w → 47 ∉ name →
    sys.fileExists (joinPath dir name) w = decide (name ∈ d.names)
  text : ∀ {name tag}, name ∈ d.names → HasForm tag name → Utf8 (joinPath dir name)
  finished : ∀ {name tag metadata w} {batches : List RecordBatch}, I w →
    files name = some (.written (.opened .parquet tag metadata :: batches.map .wrote ++ [.closed])) →
    ∃ file w₁ w₂, sys.openFile (joinPath dir name) w = (.ok file, w₁) ∧
      sys.serializedFileReader file w₁ =
        (.ok ⟨((batches.map RecordBatch.numRows).sum : Nat), some metadata⟩, w₂) ∧ I w₂
  unfinished : ∀ {name w file w₁}, I w → Unfinished (files name) →
    sys.openFile (joinPath dir name) w = (.ok file, w₁) →
    ∃ e w₂, sys.serializedFileReader file w₁ = (.error e, w₂)

/-- A Parquet file that an export finished. -/
def FinishedParquet (f : Option StoredFile) : Prop := ∃ tag metadata, ∃ batches : List RecordBatch,
  f = some (.written (.opened .parquet tag metadata :: batches.map .wrote ++ [.closed]))

/-- Every file that is found for a tag is one of an export. -/
def FromExports (files : Files) (d : Directory) : Prop :=
  ∀ tag, ∀ name ∈ findParquetFiles d tag, Unfinished (files name) ∨ FinishedParquet (files name)

/-- A file whose footer was read was finished. -/
theorem finished_of_read (h : ReadsFinished sys args.output files d I) (hfrom : FromExports files d)
    {tag : TypeTag} {name : Bytes} (hm : name ∈ findParquetFiles d tag) {w w' : ω} (hi : I w)
    {footer : ParquetFooter}
    (hread : readFooter sys (joinPath args.output name) w = (.ok footer, w')) :
    FinishedParquet (files name) ∧ I w' := by
  obtain ⟨hname, hform⟩ := mem_findParquetFiles.mp hm
  unfold readFooter at hread
  rw [(h.text hname hform).lossy] at hread
  rcases hopen : sys.openFile (joinPath args.output name) w with ⟨e | file, w₁⟩
  · rw [hopen] at hread
    cases hread
  rw [hopen] at hread
  dsimp only at hread
  rcases hfrom tag name hm with hno | ⟨t, metadata, batches, hfile⟩
  · obtain ⟨e, w₂, herror⟩ := h.unfinished hi hno hopen
    rw [herror] at hread
    cases hread
  · obtain ⟨file', w₁', w₂, hopen', hfooter, hi₂⟩ := h.finished hi hfile
    rw [hopen] at hopen'
    cases hopen'
    rw [hfooter] at hread
    cases hread
    exact ⟨⟨t, metadata, batches, hfile⟩, hi₂⟩

theorem finished_of_countFiles (h : ReadsFinished sys args.output files d I) (hfrom : FromExports files d)
    {tag : TypeTag} {names : List Bytes} (hnames : ∀ name ∈ names, name ∈ findParquetFiles d tag)
    {total total' : Nat} {w w' : ω} (hi : I w)
    (hcount : countFiles sys (names.map (joinPath args.output)) total w = (.ok total', w')) :
    (∀ name ∈ names, FinishedParquet (files name)) ∧ I w' := by
  induction names generalizing total w with
  | nil =>
    cases hcount
    exact ⟨nofun, hi⟩
  | cons name names ih =>
    rw [List.forall_mem_cons] at hnames
    rw [List.map_cons, countFiles] at hcount
    rcases hread : readFooter sys (joinPath args.output name) w with ⟨e | footer, w₁⟩
    · simp only [hread] at hcount
      cases hcount
    · obtain ⟨hfinished, hi₁⟩ := finished_of_read h hfrom hnames.1 hi hread
      simp only [hread] at hcount
      split at hcount
      · cases hcount
      · obtain ⟨hrest, hi'⟩ := ih hnames.2 hi₁ hcount
        exact ⟨List.forall_mem_cons.mpr ⟨hfinished, hrest⟩, hi'⟩

theorem finished_of_countTags (h : ReadsFinished sys args.output files d I) (hfrom : FromExports files d)
    {tags : List TypeTag} {counts counts' : SortedMap TypeTag Nat} {w w' : ω} (hi : I w)
    (hcount : countTags sys args.output tags counts w = (.ok counts', w')) :
    ∀ tag ∈ tags, ∀ name ∈ findParquetFiles d tag, FinishedParquet (files name) := by
  induction tags generalizing counts w with
  | nil => exact nofun
  | cons tag tags ih =>
    have hpaths := findParquetPaths_eq (h.readDir hi) (h.fileExists hi) tag
    rw [List.forall_mem_cons]
    by_cases hnil : findParquetPaths sys args.output tag w = []
    · rw [countTags_none hnil] at hcount
      rw [hpaths, List.map_eq_nil_iff] at hnil
      refine ⟨fun name hm => ?_, ih hi hcount⟩
      rw [hnil] at hm
      cases hm
    · rcases hfiles : countFiles sys (findParquetPaths sys args.output tag w) 0 w with ⟨e | total, w₁⟩
      · have herror : countTags sys args.output (tag :: tags) counts w = (.error e, w₁) := by
          refine (if_neg hnil).trans ?_
          rw [hfiles]
        rw [herror] at hcount
        cases hcount
      · rw [countTags_some hnil hfiles] at hcount
        rw [hpaths] at hfiles
        obtain ⟨hfinished, hi₁⟩ := finished_of_countFiles h hfrom (fun name hm => hm) hi hfiles
        exact ⟨hfinished, ih hi₁ hcount⟩

theorem readParquetMetadata_keeps (h : ReadsFinished sys args.output files d I) (hfrom : FromExports files d)
    {w w' : ω} (hi : I w) {m : ParquetMeta}
    (hmeta : readParquetMetadata sys args.output w = (.ok m, w')) : I w' := by
  have hpaths : (fun tag => findParquetPaths sys args.output tag w) =
      fun tag => (findParquetFiles d tag).map (joinPath args.output) :=
    funext fun tag => findParquetPaths_eq (h.readDir hi) (h.fileExists hi) tag
  have hhead := head?_map_paths args.output (findParquetFiles d) TypeTag.all
  rw [← hpaths] at hhead
  unfold readParquetMetadata at hmeta
  cases hfirst : (TypeTag.all.flatMap (findParquetFiles d)).head? with
  | none =>
    rw [hfirst] at hhead
    simp only [hhead, Option.map_none] at hmeta
    cases hmeta
    exact hi
  | some name =>
    obtain ⟨tag, -, hm⟩ := List.mem_flatMap.mp (List.mem_of_head? hfirst)
    rw [hfirst] at hhead
    simp only [hhead, Option.map_some] at hmeta
    rcases hread : readFooter sys (joinPath args.output name) w with ⟨e | footer, w₁⟩
    · simp only [hread] at hmeta
      cases hmeta
    · obtain ⟨-, hi₁⟩ := finished_of_read h hfrom hm hi hread
      simp only [hread] at hmeta
      have hstate : w₁ = w' := congrArg Prod.snd hmeta
      exact hstate ▸ hi₁

/-- If `validate` passes, every file it finds was finished. -/
theorem finished_of_passed {source : RdbInput} (h : ReadsFinished sys args.output files d I)
    (h' : ReadsFinished sys args.output files d I') (hfrom : FromExports files d)
    (hinput : ∀ w, I w → ∃ w', openRdbInput sys.toSystem args.file w = (.ok source, w') ∧ I' w')
    {w : ω} (hi : I w) (hpass : (validateRun sys args w).1 = .ok ()) :
    ∀ tag, ∀ name ∈ findParquetFiles d tag, FinishedParquet (files name) := by
  have hfailed : ∀ {e w'}, validateReport sys args w = (.error e, w') → False := by
    intro e w' hx
    have hrun : validateRun sys args w = (.error e, w') := StateAction.run_bind_error hx
    rw [hrun] at hpass
    cases hpass
  rcases hmeta : readParquetMetadata sys args.output w with ⟨e | m, w₁⟩
  · exact (hfailed (StateAction.run_bind_error hmeta)).elim
  have hi₁ := readParquetMetadata_keeps h hfrom hi hmeta
  obtain ⟨w₂, hopen, hi₂⟩ := hinput w₁ hi₁
  have hcount := countRdb_eq m.heuristics hopen
  cases hr : ValkeyRdb.countRdb source.bytes m.heuristics with
  | error e =>
    rw [hr] at hcount
    exact (hfailed ((StateAction.run_bind_ok hmeta).trans (StateAction.run_bind_error hcount))).elim
  | ok rdb =>
    rw [hr] at hcount
    rcases hparquet : countParquet sys args.output w₂ with ⟨e | counts, w₃⟩
    · exact (hfailed ((StateAction.run_bind_ok hmeta).trans ((StateAction.run_bind_ok hcount).trans
        (StateAction.run_bind_error hparquet)))).elim
    · exact fun tag => finished_of_countTags h' hfrom hi₂ hparquet tag (TypeTag.mem_all tag)

/-- Where every file that is found was finished, the directory reads back. -/
theorem ReadsFinished.directory (h : ReadsFinished sys args.output files d I)
    (hall : ∀ tag, ∀ name ∈ findParquetFiles d tag, FinishedParquet (files name)) :
    ReadsDirectory sys args.output d (fun name => footerOf (files name)) I where
  readDir := h.readDir
  fileExists := h.fileExists
  text := h.text
  footer := by
    intro name tag w hi hname hform
    obtain ⟨t, metadata, batches, hfile⟩ := hall tag name (mem_findParquetFiles.mpr ⟨hname, hform⟩)
    have hback := footerOf_readsBack files name t metadata batches hfile
    dsimp only at hback
    rw [hback]
    exact h.finished hi hfile

end Reading

/-! ### What exports that were stopped leave -/

section Partly

variable {ι : Type} {globMatch : Bytes → Bytes → Bool} {r : RdbReader} {heuristics : Finset Heuristic}
  {limit : Option ℕ+}

/-- The calls of an export up to some point, which may be a panic; it was given the first
bytes of the file. -/
def StoppedExport {ε C : Type} (tryNew : TryNew ε) (globMatch : Bytes → Bytes → Bool)
    (args : ValkeyRdb.ExportArgs) (input : Bytes)
    (steps : List (WriterEvent (ArrowConvertError ε) C)) : Prop :=
  ∃ source reader result trace, source.bytes <+: input ∧ RdbReader.new source.bytes = .ok reader ∧
    Traced (pulled tryNew globMatch args source reader) result trace ∧ steps <+: trace

/-- The files of shards that were handed the batches `ts`, each unfinished or finished with
the first of its batches. -/
structure PartlyWritten (shards : Shards ι globMatch r heuristics limit) (ts : ι → List TypedBatch)
    (after : Files) : Prop where
  wellFormed : ∀ i, ∀ t ∈ ts i, t.WellFormed
  rows : ∀ i tag, tagRows tag (ts i) <+: (shards.args i).share globMatch r tag
  files : ∀ i tag, Unfinished (after ((shards.exporters i).filename tag)) ∨
    ∃ batches, batches <+: tagBatches tag (ts i) ∧ batches ≠ [] ∧
      after ((shards.exporters i).filename tag) = some ((shards.exporters i).finished tag batches)
  others : ∀ name tag, HasForm tag name → (∀ i t, name ≠ (shards.exporters i).filename t) →
    after name = none

theorem partly_of_run {ε C : Type} [DecidableEq ι] {tryNew : TryNew ε} (ht : TryNewAccepts tryNew)
    {input : Bytes} (hnew : RdbReader.new input = .ok r)
    (shards : Shards ι globMatch r heuristics limit) {run : List (ι × WriterEvent (ArrowConvertError ε) C)}
    (hrun : ∀ i, StoppedExport tryNew globMatch (shards.args i) input (stepsOf i run))
    (hok : ∀ e ∈ run, e.2.Succeeded) {before : Files}
    (hbefore : ∀ name tag, HasForm tag name → before name = none) :
    PartlyWritten shards (fun i => handed tryNew globMatch (shards.args i) r)
      (replay (changesOf (fun i => (shards.exporters i).change) run) before) := by
  have hid : ∀ i j, (shards.exporters i).shardId = (shards.exporters j).shardId →
      (shards.exporters i).format = (shards.exporters j).format → i = j :=
    fun i j h _ => shards.ids i j h
  have hr := Reachable.new hnew
  refine ⟨fun i => (handed_leading ht globMatch hr (shards.args i)).1,
    fun i tag => handed_share ht globMatch hr (shards.unlimited i) tag, fun i tag => ?_,
    fun name tag hform hno => ?_⟩
  · obtain ⟨source, reader, result, trace, hfirst, hreader, htraced, hsteps⟩ := hrun i
    obtain ⟨attempts, last, closed, hcalls⟩ := htraced.calls
    have hattempted := hcalls.attempted
    have hmap : attempts.map (fun a => (.ok a.1 : Except (ArrowConvertError ε) TypedBatch)) =
        (attempts.map Prod.fst).map .ok := by
      rw [List.map_map]
      rfl
    rw [hmap] at hattempted
    rw [List.prefix_iff_eq_take.mp hfirst] at hreader
    have hleading := cut_attempts hnew hreader hattempted
    have hnone : before ((shards.exporters i).filename tag) = none := by
      apply hbefore _ tag
      rw [shards.filename_form]
      exact exportFilename_hasForm tag _
    rw [replay_own hid, replay_apply, hnone]
    rcases effectAt_stopped (shards.exporters i) hcalls hsteps
      (fun e he => hok (i, e) (mem_stepsOf.mp he)) tag with hopen | ⟨⟨a, ha, htag⟩, hfinished⟩
    · exact .inl hopen
    · refine .inr ⟨_, tagBatches_leading tag hleading, ?_, hfinished⟩
      have hin : a.1 ∈ (attempts.map Prod.fst).filter fun t => t.tag == tag :=
        List.mem_filter.mpr ⟨List.mem_map_of_mem ha, by simp [htag]⟩
      exact List.ne_nil_of_mem (List.mem_map_of_mem hin)
  · rw [replay_others hno, hbefore name tag hform]

/-- The rows that `validate` counts in the file of a shard. -/
def rowsFound (shards : Shards ι globMatch r heuristics limit) (after : Files) (i : ι)
    (tag : TypeTag) : Nat :=
  if after ((shards.exporters i).filename tag) ≠ none then
    (footerOf (after ((shards.exporters i).filename tag))).numRows.toNat
  else 0

/-- The file of a shard and a tag holds all the shard was handed, which is all it takes. -/
structure Complete (shards : Shards ι globMatch r heuristics limit) (ts : ι → List TypedBatch)
    (after : Files) (i : ι) (tag : TypeTag) : Prop where
  file : after ((shards.exporters i).filename tag) = if ∃ t ∈ ts i, t.tag = tag then
    some ((shards.exporters i).finished tag (tagBatches tag (ts i))) else none
  rows : tagRows tag (ts i) = (shards.args i).share globMatch r tag

theorem FinishedParquet.not_unfinished {f : Option StoredFile} (h : FinishedParquet f) : ¬Unfinished f := by
  obtain ⟨tag, metadata, batches, rfl⟩ := h
  rintro (hnone | ⟨calls, hcalls, hno⟩)
  · cases hnone
  · cases hcalls
    exact hno List.mem_concat_self

/-- Batches in front that have all the rows are all the batches. -/
theorem prefix_of_rows {batches all : List RecordBatch} (h : batches <+: all)
    (hpos : ∀ b ∈ all, b.rows ≠ []) :
    (batches.map RecordBatch.numRows).sum ≤ (all.map RecordBatch.numRows).sum ∧
    ((batches.map RecordBatch.numRows).sum = (all.map RecordBatch.numRows).sum → batches = all) := by
  obtain ⟨rest, rfl⟩ := h
  rw [List.map_append, List.sum_append]
  refine ⟨Nat.le_add_right _ _, fun hsum => ?_⟩
  cases rest with
  | nil => rw [List.append_nil]
  | cons b rest =>
    have hrows : b.numRows ≠ 0 := by
      have hb := List.length_pos_iff.mpr (hpos b (List.mem_append_right _ List.mem_cons_self))
      have hlen : b.rows.length = b.numRows := by simp [RecordBatch.rows, rowsOf]
      omega
    rw [List.map_cons, List.sum_cons] at hsum
    omega

variable {shards : Shards ι globMatch r heuristics limit} {ts : ι → List TypedBatch} {after : Files}
  {d : Directory}

theorem PartlyWritten.fromExports (h : PartlyWritten shards ts after)
    (hd : ∀ name, name ∈ d.names ↔ after name ≠ none) : FromExports after d := by
  intro tag name hm
  obtain ⟨i, -, rfl⟩ := (shards.mem_found hd h.others).mp hm
  rcases h.files i tag with hopen | ⟨batches, -, -, hfile⟩
  · exact .inl hopen
  · refine .inr ⟨tag, metadataFromRdb r.metadata heuristics, batches, ?_⟩
    rw [hfile, shards.finished_eq]

/-- Where all files are finished, a file holds no more rows than its shard was handed, and
the same number only if it has all the batches. -/
theorem PartlyWritten.rows_handed (h : PartlyWritten shards ts after)
    (hd : ∀ name, name ∈ d.names ↔ after name ≠ none)
    (hall : ∀ tag, ∀ name ∈ findParquetFiles d tag, FinishedParquet (after name)) (i : ι) (tag : TypeTag) :
    rowsFound shards after i tag ≤ (tagRows tag (ts i)).length ∧
    (rowsFound shards after i tag = (tagRows tag (ts i)).length →
      after ((shards.exporters i).filename tag) = if ∃ t ∈ ts i, t.tag = tag then
        some ((shards.exporters i).finished tag (tagBatches tag (ts i))) else none) := by
  have hlength : (tagRows tag (ts i)).length = ((tagBatches tag (ts i)).map RecordBatch.numRows).sum := by
    rw [tagRows_length]
    unfold tagBatches
    rw [List.map_map]
    rfl
  have hpos : ∀ b ∈ tagBatches tag (ts i), b.rows ≠ [] := by
    intro b hb
    obtain ⟨t, ht, rfl⟩ := List.mem_map.mp hb
    exact (h.wellFormed i t (List.mem_filter.mp ht).1).1
  have hpresent : (∃ t ∈ ts i, t.tag = tag) ↔ tagBatches tag (ts i) ≠ [] := by
    unfold tagBatches
    simp [List.filter_eq_nil_iff]
  rcases h.files i tag with hopen | ⟨batches, hleading, hne, hfile⟩
  · rcases hopen with hno | ⟨calls, hcalls, hclosed⟩
    · have hzero : rowsFound shards after i tag = 0 := if_neg (not_not.mpr hno)
      refine ⟨by omega, fun hrows => ?_⟩
      obtain ⟨-, hsame⟩ := prefix_of_rows (List.nil_prefix (l := tagBatches tag (ts i))) hpos
      have hnil := hsame (by rw [List.map_nil, List.sum_nil, ← hlength, ← hrows, hzero])
      rw [if_neg (fun hex => hpresent.mp hex hnil.symm), hno]
    · have hm := (shards.mem_found hd h.others).mpr ⟨i, by rw [hcalls]; exact nofun, rfl⟩
      exact absurd (.inr ⟨calls, hcalls, hclosed⟩) (hall tag _ hm).not_unfinished
  · have hback := footerOf_readsBack after _ _ _ _
      (hfile.trans (congrArg some (shards.finished_eq i tag batches)))
    have hrows : rowsFound shards after i tag = (batches.map RecordBatch.numRows).sum := by
      have hsome : after ((shards.exporters i).filename tag) ≠ none := by
        rw [hfile]
        exact nofun
      dsimp only at hback
      unfold rowsFound
      rw [if_pos hsome, hback]
      rfl
    obtain ⟨hle, hsame⟩ := prefix_of_rows hleading hpos
    rw [hrows, hlength]
    refine ⟨hle, fun hsum => ?_⟩
    have hbatches := hsame hsum
    rw [if_pos (hpresent.mpr (hbatches ▸ hne)), hfile, hbatches]

/-- The same for all that the shard takes of the file. -/
theorem PartlyWritten.rows_le (h : PartlyWritten shards ts after)
    (hd : ∀ name, name ∈ d.names ↔ after name ≠ none)
    (hall : ∀ tag, ∀ name ∈ findParquetFiles d tag, FinishedParquet (after name)) (i : ι) (tag : TypeTag) :
    rowsFound shards after i tag ≤ ((shards.args i).share globMatch r tag).length ∧
    (rowsFound shards after i tag = ((shards.args i).share globMatch r tag).length →
      Complete shards ts after i tag) := by
  obtain ⟨hle, hfile⟩ := h.rows_handed hd hall i tag
  have hshare := (h.rows i tag).length_le
  refine ⟨hle.trans hshare, fun hrows => ⟨hfile (by omega), (h.rows i tag).eq_of_length (by omega)⟩⟩

/-- What `validate` counts under a tag is the sum over the shards. -/
theorem PartlyWritten.found_rows [Fintype ι] (h : PartlyWritten shards ts after) {input : Bytes}
    (hnew : RdbReader.new input = .ok r) (hclean : r.Clean) (hd : ∀ name, name ∈ d.names ↔ after name ≠ none)
    (hall : ∀ tag, ∀ name ∈ findParquetFiles d tag, FinishedParquet (after name)) {tag : TypeTag}
    (hfits : keyCount heuristics limit tag r.keys < 2 ^ 64) {n : Nat}
    (hn : directoryRows d (fun name => footerOf (after name)) tag = if 0 < n then some n else none) :
    ∑ i, rowsFound shards after i tag = n := by
  have hsum := shards.found_sum hd h.others tag fun name => (footerOf (after name)).numRows.toNat
  have hle : ∑ i, rowsFound shards after i tag ≤ keyCount heuristics limit tag r.keys := by
    rw [← shards.total (keys_whole hnew hclean) tag]
    simp only [← shards.share_length hnew hclean]
    exact Finset.sum_le_sum fun i _ => (h.rows_le hd hall i tag).1
  have hrows : ((findParquetFiles d tag).map fun name => (footerOf (after name)).numRows.toNat).sum =
      ∑ i, rowsFound shards after i tag := hsum
  unfold directoryRows at hn
  by_cases hnil : findParquetFiles d tag = []
  · rw [if_pos hnil] at hn
    rw [hnil] at hrows
    split at hn
    · cases hn
    · rw [← hrows]
      simp only [List.map_nil, List.sum_nil]
      omega
  · rw [if_neg hnil, hrows, Nat.mod_eq_of_lt (by omega)] at hn
    split at hn
    · exact Option.some.inj hn
    · cases hn

/-- The metadata that `validate` finds is that of the shards, unless it finds no files. -/
theorem PartlyWritten.metadata (h : PartlyWritten shards ts after)
    (hd : ∀ name, name ∈ d.names ↔ after name ≠ none)
    (hall : ∀ tag, ∀ name ∈ findParquetFiles d tag, FinishedParquet (after name)) :
    ((∀ tag, findParquetFiles d tag = []) ∧
      ValkeyRdb.readParquetMetadata (parquetDirOf d fun name => footerOf (after name)) =
        .ok ⟨false, Heuristic.all⟩) ∨
    ∃ found, ValkeyRdb.readParquetMetadata (parquetDirOf d fun name => footerOf (after name)) =
      .ok ⟨found, heuristics⟩ := by
  refine metadata_found (m := r.metadata) fun tag name hm => ?_
  obtain ⟨i, -, rfl⟩ := (shards.mem_found hd h.others).mp hm
  rcases h.files i tag with hopen | ⟨batches, -, -, hfile⟩
  · exact absurd hopen (hall tag _ hm).not_unfinished
  · have hback := footerOf_readsBack after _ _ _ _
      (hfile.trans (congrArg some (shards.finished_eq i tag batches)))
    dsimp only at hback
    rw [hback]

/-- If `validate` passes on finished files, none of their rows is missing. -/
theorem PartlyWritten.complete [Fintype ι] (h : PartlyWritten shards ts after) {input : Bytes}
    (hnew : RdbReader.new input = .ok r) (hclean : r.Clean)
    (hd : ∀ name, name ∈ d.names ↔ after name ≠ none)
    (hall : ∀ tag, ∀ name ∈ findParquetFiles d tag, FinishedParquet (after name))
    (hfits : ∀ tag, keyCount heuristics limit tag r.keys < 2 ^ 64)
    (hpass : ValkeyRdb.validate input (parquetDirOf d fun name => footerOf (after name)) = .ok ())
    {tag : TypeTag} (htag : tag ≠ .geo ∨ SplitAlike heuristics limit r) (i : ι) :
    Complete shards ts after i tag := by
  have hwhole := keys_whole hnew hclean
  have hcounted : ∀ m, ValkeyRdb.readParquetMetadata (parquetDirOf d fun name => footerOf (after name)) =
      .ok m → ∀ tag, ∑ i, rowsFound shards after i tag =
        keyCount m.heuristics (some defaultMaxKeyElements) tag r.keys := by
    intro m hm tag
    obtain ⟨t, ⟨summary, hsummary, htotals⟩, hcounts⟩ := default_summary hnew hclean m.heuristics
    have hsame := (validate_ok_iff hnew hm hsummary).mp hpass tag
    rw [htotals, summaryRows_eq hcounts] at hsame
    exact h.found_rows hnew hclean hd hall (hfits tag) hsame.symm
  have htotal : ∑ i, rowsFound shards after i tag =
      ∑ i, ((shards.args i).share globMatch r tag).length := by
    simp only [shards.share_length hnew hclean]
    rw [shards.total hwhole tag]
    rcases h.metadata hd hall with ⟨hnil, hm⟩ | ⟨found, hm⟩
    · have hkeys : r.keys = [] := by
        apply keys_nil_of_no_rows hwhole
        intro tag
        rw [← hcounted _ hm tag]
        have hsum := shards.found_sum hd h.others tag fun name => (footerOf (after name)).numRows.toNat
        rw [hnil tag] at hsum
        exact hsum.symm
      rw [hcounted _ hm tag, hkeys]
      rfl
    · rw [hcounted _ hm tag]
      rcases htag with hgeo | halike
      · exact keyCount_of_ne_geo heuristics _ _ hwhole hgeo
      · exact ((keyCount_eq_iff heuristics limit (some defaultMaxKeyElements) hwhole).mpr halike tag).symm
  have heach := (Finset.sum_eq_sum_iff_of_le fun i _ => (h.rows_le hd hall i tag).1).mp htotal
  exact (h.rows_le hd hall i tag).2 (heach i (Finset.mem_univ i))

/-- Files that are all complete are those of exports that have succeeded. -/
theorem PartlyWritten.written (h : PartlyWritten shards ts after) {input : Bytes}
    (hnew : RdbReader.new input = .ok r) (hclean : r.Clean)
    (hcomplete : ∀ i tag, Complete shards ts after i tag) : Written shards ts after where
  wellFormed := h.wellFormed
  rows i tag := by rw [(hcomplete i tag).rows, shards.share_length hnew hclean]
  files i tag := (hcomplete i tag).file
  others := h.others

theorem Written.finished (h : Written shards ts after) (hd : ∀ name, name ∈ d.names ↔ after name ≠ none) :
    ∀ tag, ∀ name ∈ findParquetFiles d tag, FinishedParquet (after name) := by
  intro tag name hm
  obtain ⟨i, hex, rfl⟩ := (h.mem_find hd).mp hm
  refine ⟨tag, metadataFromRdb r.metadata heuristics, tagBatches tag (ts i), ?_⟩
  rw [h.files, if_pos hex, shards.finished_eq]

theorem PartlyWritten.status [Fintype ι] {ω F ε : Type} (h : PartlyWritten shards ts after)
    {source : RdbInput} (hnew : RdbReader.new source.bytes = .ok r) (hclean : r.Clean)
    (hfits : ∀ tag, keyCount heuristics limit tag r.keys < 2 ^ 64) {sys : ValidateSystem ω F ε}
    {args : ValidateArgs} {I I' : ω → Prop} (hreads : ReadsFinished sys args.output after d I)
    (hreads' : ReadsFinished sys args.output after d I')
    (hinput : ∀ w, I w → ∃ w', openRdbInput sys.toSystem args.file w = (.ok source, w') ∧ I' w')
    (hd : ∀ name, name ∈ d.names ↔ after name ≠ none) {w : ω} (hw : I w)
    (hstatus : exitStatus (validateRun sys args w).1 = some 0) (i : ι) (tag : TypeTag)
    (htag : tag ≠ .geo ∨ SplitAlike heuristics limit r) : Complete shards ts after i tag := by
  have hpass : (validateRun sys args w).1 = .ok () := exitStatus_zero hstatus
  have hall := finished_of_passed hreads hreads' (h.fromExports hd) hinput hw hpass
  have hnonneg : ∀ tag, ∀ name ∈ findParquetFiles d tag, 0 ≤ (footerOf (after name)).numRows := by
    intro tag name hm
    obtain ⟨t, metadata, batches, hfile⟩ := hall tag name hm
    have hback := footerOf_readsBack after name t metadata batches hfile
    dsimp only at hback
    rw [hback]
    exact Int.natCast_nonneg _
  rw [validateRun_eq (hreads.directory hall) (hreads'.directory hall) hnonneg hinput hw] at hpass
  refine h.complete hnew hclean hd hall hfits ?_ htag i
  rcases hv : ValkeyRdb.validate source.bytes (parquetDirOf d fun name => footerOf (after name)) with e | ⟨⟩
  · rw [hv] at hpass
    cases hpass
  · rfl

/-- Exports that share the rows of a file are stopped at any point, or read the first bytes
of the file only. If they split the geo keys that the default limit splits, `validate` exits
with status 0 exactly when every file is that of an export of the whole file. Otherwise this
status still means that no other file than those of geo keys misses anything. -/
theorem validated_exports_complete {ω F ε C : Type} [DecidableEq ι] [Fintype ι] {tryNew : TryNew ε}
    (ht : TryNewAccepts tryNew) (source : RdbInput) (hnew : RdbReader.new source.bytes = .ok r)
    (hclean : r.Clean) (shards : Shards ι globMatch r heuristics limit)
    (run : List (ι × WriterEvent (ArrowConvertError ε) C))
    (hrun : ∀ i, StoppedExport tryNew globMatch (shards.args i) source.bytes (stepsOf i run))
    (hok : ∀ e ∈ run, e.2.Succeeded) (before : Files)
    (hbefore : ∀ name tag, HasForm tag name → before name = none)
    (hfits : ∀ tag, keyCount heuristics limit tag r.keys < 2 ^ 64)
    (after : Files) (hafter : after = replay (changesOf (fun i => (shards.exporters i).change) run) before)
    (sys : ValidateSystem ω F ε) (args : ValidateArgs) (d : Directory) (I I' : ω → Prop)
    (hreads : ReadsFinished sys args.output after d I) (hreads' : ReadsFinished sys args.output after d I')
    (hinput : ∀ w, I w → ∃ w', openRdbInput sys.toSystem args.file w = (.ok source, w') ∧ I' w')
    (hd : ∀ name, name ∈ d.names ↔ after name ≠ none) (w : ω) (hw : I w) :
    (SplitAlike heuristics limit r → (exitStatus (validateRun sys args w).1 = some 0 ↔
      ∀ i tag, Complete shards (fun i => handed tryNew globMatch (shards.args i) r) after i tag)) ∧
    (exitStatus (validateRun sys args w).1 = some 0 → ∀ i tag, tag ≠ .geo →
      Complete shards (fun i => handed tryNew globMatch (shards.args i) r) after i tag) := by
  subst hafter
  have h := partly_of_run ht hnew shards hrun hok hbefore
  have hstatus := h.status hnew hclean hfits hreads hreads' hinput hd hw
  refine ⟨fun halike => ⟨fun hzero i tag => hstatus hzero i tag (.inr halike), fun hcomplete => ?_⟩,
    fun hzero i tag hgeo => hstatus hzero i tag (.inl hgeo)⟩
  have hwritten := h.written hnew hclean hcomplete
  have hall := hwritten.finished hd
  have hfinds : Finds sys args source
      (replay (changesOf (fun i => (shards.exporters i).change) run) before) d
      (fun name => footerOf (replay (changesOf (fun i => (shards.exporters i).change) run) before name))
      I I' :=
    ⟨hreads.directory hall, hreads'.directory hall, hinput, hd, footerOf_readsBack _⟩
  exact (hwritten.exit_status hnew hclean hfits hfinds hw).1.mpr halike

end Partly

/-- The machine of `shardSystem`, which reads no footer of a file that was not closed. -/
def closedSystem (files : Files) (d : Directory) : ValidateSystem Unit Bytes String :=
  { shardSystem files d with
    serializedFileReader path w :=
      match files (path.drop 4) with
      | some (.written calls) =>
        if (calls.any fun | .closed => true | _ => false) = true then
          (.ok (footerOf (files (path.drop 4))), w)
        else (.error "Invalid Parquet file. Corrupt footer", w)
      | _ => (.error "Invalid Parquet file. Corrupt footer", w) }

theorem closedSystem_reads (files : Files) (d : Directory)
    (htext : ∀ name ∈ d.names, Utf8 (joinPath shardArgs.output name)) :
    ReadsFinished (closedSystem files d) shardArgs.output files d fun _ => True where
  readDir {w} hi := (shardSystem_reads files d htext).readDir (w := w) hi
  fileExists {_ w} hi := (shardSystem_reads files d htext).fileExists (w := w) hi
  text := (shardSystem_reads files d htext).text
  finished := by
    intro name tag metadata w batches _ hfile
    have hdrop : (joinPath shardArgs.output name).drop 4 = name := rfl
    refine ⟨_, (), (), rfl, ?_, trivial⟩
    have hback := footerOf_readsBack files _ _ _ _ hfile
    dsimp only at hback
    unfold closedSystem
    simp only [hdrop]
    rw [← hback]
    simp [hfile]
  unfinished := by
    intro name w file w₁ _ hno hopen
    have hdrop : (joinPath shardArgs.output name).drop 4 = name := rfl
    have hpath : file = joinPath shardArgs.output name := by
      cases hopen
      rfl
    subst hpath
    refine ⟨"Invalid Parquet file. Corrupt footer", (), ?_⟩
    unfold closedSystem
    simp only [hdrop]
    rcases hno with hnone | ⟨calls, hcalls, hclosed⟩
    · rw [hnone]
    · rw [hcalls]
      dsimp only
      rw [if_neg]
      rw [List.any_eq_true]
      rintro ⟨call, hmem, hcall⟩
      cases call with
      | closed => exact hclosed hmem
      | _ => cases hcall

/-- The first shard is done, and the second was stopped before it closed its writer. -/
def stoppedRun : List (Bool × WriterEvent (ArrowConvertError String) (ArrowConvertError String)) :=
  (dbTrace false).map (false, ·) ++ (dbTrace true).dropLast.map (true, ·)

theorem stoppedRun_stopped (i : Bool) : StoppedExport checkedTryNew (fun _ _ => true) (dbShards.args i)
    dbFile (stepsOf i stoppedRun) := by
  refine ⟨⟨dbFile, none⟩, dbReader, .ok (), dbTrace i, List.prefix_rfl, dbReader_clean.1,
    dbTrace_traced i, ?_⟩
  rw [stoppedRun, stepsOf_pair]
  cases i with
  | false => exact List.prefix_rfl
  | true => exact List.dropLast_prefix _

theorem stoppedRun_succeeded : ∀ e ∈ stoppedRun, e.2.Succeeded := by
  unfold WriterEvent.Succeeded
  decide +kernel

/-- The shard that is done has the files of a run in which both are. -/
theorem stoppedRun_first (tag : TypeTag) :
    Complete dbShards (fun i => handed checkedTryNew (fun _ _ => true) (dbShards.args i) dbReader)
      (dbFiles stoppedRun) false tag := by
  obtain ⟨hnew, hclean, -⟩ := dbReader_clean
  have hid : ∀ i j, (dbShards.exporters i).shardId = (dbShards.exporters j).shardId →
      (dbShards.exporters i).format = (dbShards.exporters j).format → i = j :=
    fun i j h _ => dbShards.ids i j h
  have hwritten : Written dbShards (fun i => handed checkedTryNew (fun _ _ => true) (dbShards.args i)
      dbReader) (dbFiles dbRun) :=
    written_of_run checkedTryNew_accepts hnew hclean dbShards dbRun dbRun_traced fun _ _ _ => rfl
  have hread := (readsThrough_iff hnew (dbShards.args false)).mp ⟨dbReader, hnew, hclean⟩
  have hsteps : stepsOf false stoppedRun = stepsOf false dbRun := by
    rw [stoppedRun, dbRun, stepsOf_pair, stepsOf_pair, if_neg Bool.false_ne_true, if_neg Bool.false_ne_true]
  refine ⟨?_, handed_share_whole checkedTryNew_accepts (Reachable.new hnew) rfl (dbShards_fit false)
    hread tag⟩
  rw [← hwritten.files false tag, dbFiles, dbFiles, replay_own hid, replay_own hid, hsteps]

/-- The writer of a file was closed. -/
def closedFile : Option StoredFile → Bool
  | some (.written calls) => calls.any fun | .closed => true | _ => false
  | _ => false

theorem closedFile_finished (x : Exporter) (tag : TypeTag) (batches : List RecordBatch) :
    closedFile (some (x.finished tag batches)) = true := by
  simp [closedFile, Exporter.finished]

theorem stoppedRun_file : dbFiles stoppedRun ((dbShards.exporters true).filename .string) ≠ none := by
  decide +kernel

/-- The other one has a file that was not closed. -/
theorem stoppedRun_second : ¬Complete dbShards
      (fun i => handed checkedTryNew (fun _ _ => true) (dbShards.args i) dbReader)
      (dbFiles stoppedRun) true .string := by
  have hopen : closedFile (dbFiles stoppedRun ((dbShards.exporters true).filename .string)) = false := by
    decide +kernel
  intro h
  have hcomplete := h.file
  split at hcomplete
  · rw [hcomplete, closedFile_finished] at hopen
    cases hopen
  · exact stoppedRun_file hcomplete

theorem validated_exports_complete_dbs :
    dbFiles stoppedRun ((dbShards.exporters true).filename .string) ≠ none ∧
    Complete dbShards (fun i => handed checkedTryNew (fun _ _ => true) (dbShards.args i) dbReader)
      (dbFiles stoppedRun) false .string ∧
    ¬Complete dbShards (fun i => handed checkedTryNew (fun _ _ => true) (dbShards.args i) dbReader)
      (dbFiles stoppedRun) true .string ∧
    exitStatus (validateRun (closedSystem (dbFiles stoppedRun) (dbDirectory stoppedRun)) shardArgs ()).1 ≠
      some 0 := by
  obtain ⟨hnew, hclean, -⟩ := dbReader_clean
  have hreads := closedSystem_reads (dbFiles stoppedRun) (dbDirectory stoppedRun)
    (dbDirectory_text stoppedRun)
  have halike : SplitAlike Heuristic.all (some defaultMaxKeyElements) dbReader := fun _ _ _ _ => Iff.rfl
  have hstatus := (validated_exports_complete checkedTryNew_accepts ⟨dbFile, none⟩ hnew hclean dbShards
    stoppedRun stoppedRun_stopped stoppedRun_succeeded (fun _ => none) (fun _ _ _ => rfl) dbShards_rows
    (dbFiles stoppedRun) rfl (closedSystem (dbFiles stoppedRun) (dbDirectory stoppedRun)) shardArgs
    (dbDirectory stoppedRun) (fun _ => True) (fun _ => True) hreads hreads (fun w _ => ⟨w, rfl, trivial⟩)
    (mem_dbDirectory stoppedRun) () trivial).1 halike
  refine ⟨stoppedRun_file, stoppedRun_first .string, stoppedRun_second, fun hzero => ?_⟩
  exact stoppedRun_second (hstatus.mp hzero true .string)

end Cli

end ValkeyRdb
