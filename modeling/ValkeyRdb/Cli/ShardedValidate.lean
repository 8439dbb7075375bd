import Mathlib.Algebra.Order.BigOperators.Group.Finset
import ValkeyRdb.Arrow.WriterInvariant
import ValkeyRdb.Cli.Sharded
import ValkeyRdb.Cli.Shares
import ValkeyRdb.Cli.ValidateRun

/-!
# Validating exports that ran in parallel (validate.rs, args.rs:87)

Exports that share the rows of a file write into one directory in any order. What
`validate` then counts, over the files of all shards, is what one export would have
written.
-/

namespace ValkeyRdb.Cli

/-- Exports of one file to Parquet with different shard ids, each row taken by one. -/
structure Shards (ι : Type) (globMatch : Bytes → Bytes → Bool) (r : RdbReader)
    (heuristics : Finset Heuristic) (limit : Option ℕ+) where
  args : ι → ValkeyRdb.ExportArgs
  exporters : ι → Exporter
  heuristics_eq : ∀ i, (args i).heuristics = heuristics
  limit_eq : ∀ i, (args i).limit = limit
  unlimited : ∀ i, (args i).maxEntryBytes = none
  parquet : ∀ i, (exporters i).format = .parquet
  metadata_eq : ∀ i, (exporters i).metadata = metadataFromRdb r.metadata heuristics
  ids : ∀ i j, (exporters i).shardId = (exporters j).shardId → i = j
  share : ∀ e ∈ r.keys, ∀ tag, rowsUnder heuristics tag e ≠ [] →
    ∃! i, (args i).takes globMatch tag e = true

/-- A finished Parquet file reads back with the rows of its batches and the metadata it was
opened with. -/
def ReadsBack (footers : Bytes → ParquetFooter) (files : Files) : Prop :=
  ∀ name tag metadata (batches : List RecordBatch),
    files name = some (.written (.opened .parquet tag metadata :: batches.map .wrote ++ [.closed])) →
    footers name = ⟨((batches.map RecordBatch.numRows).sum : Nat), some metadata⟩

/-- A machine on which `validate` finds these files and the input. -/
structure Finds {ω F ε : Type} (sys : ValidateSystem ω F ε) (args : ValidateArgs) (source : RdbInput)
    (files : Files) (d : Directory) (footers : Bytes → ParquetFooter) (I I' : ω → Prop) : Prop where
  before : ReadsDirectory sys args.output d footers I
  behind : ReadsDirectory sys args.output d footers I'
  input : ∀ w, I w → ∃ w', openRdbInput sys.toSystem args.file w = (.ok source, w') ∧ I' w'
  names : ∀ name, name ∈ d.names ↔ files name ≠ none
  readBack : ReadsBack footers files

section Validate

variable {ι : Type} {globMatch : Bytes → Bytes → Bool} {r : RdbReader}
  {heuristics : Finset Heuristic} {limit : Option ℕ+}

theorem Shards.filename_form (shards : Shards ι globMatch r heuristics limit) (i : ι) (tag : TypeTag) :
    (shards.exporters i).filename tag = exportFilename tag (shards.exporters i).shardId :=
  filename_parquet (shards.parquet i) tag

/-- A finished file of a shard. -/
theorem Shards.finished_eq (shards : Shards ι globMatch r heuristics limit) (i : ι) (tag : TypeTag)
    (batches : List RecordBatch) : (shards.exporters i).finished tag batches =
      .written (.opened .parquet tag (metadataFromRdb r.metadata heuristics) ::
        batches.map .wrote ++ [.closed]) := by
  have hopened : (shards.exporters i).opened tag =
      .opened .parquet tag (metadataFromRdb r.metadata heuristics) := by
    unfold Exporter.opened
    rw [if_pos (shards.parquet i), shards.parquet, shards.metadata_eq]
  unfold Exporter.finished
  rw [hopened]

/-- The batches of each shard, all written. -/
structure Written (shards : Shards ι globMatch r heuristics limit) (ts : ι → List TypedBatch)
    (after : Files) : Prop where
  wellFormed : ∀ i, ∀ t ∈ ts i, t.WellFormed
  rows : ∀ i tag, (tagRows tag (ts i)).length =
    keyCount heuristics limit tag (r.keys.filter ((shards.args i).takes globMatch tag))
  files : ∀ i tag, after ((shards.exporters i).filename tag) =
    if ∃ t ∈ ts i, t.tag = tag then
      some ((shards.exporters i).finished tag (tagBatches tag (ts i)))
    else none
  others : ∀ name tag, HasForm tag name → (∀ i t, name ≠ (shards.exporters i).filename t) →
    after name = none

variable {shards : Shards ι globMatch r heuristics limit} {after : Files} {ts : ι → List TypedBatch}
  {d : Directory}

/-- The files that are found for a tag are those the shards write for it. -/
theorem Shards.mem_found (shards : Shards ι globMatch r heuristics limit)
    (hd : ∀ name, name ∈ d.names ↔ after name ≠ none)
    (hothers : ∀ name tag, HasForm tag name → (∀ i t, name ≠ (shards.exporters i).filename t) →
      after name = none) {tag : TypeTag} {name : Bytes} : name ∈ findParquetFiles d tag ↔
      ∃ i, after ((shards.exporters i).filename tag) ≠ none ∧ name = (shards.exporters i).filename tag := by
  rw [mem_findParquetFiles, hd]
  constructor
  · rintro ⟨hsome, hform⟩
    by_cases hex : ∃ i t, name = (shards.exporters i).filename t
    · obtain ⟨i, t, rfl⟩ := hex
      rw [shards.filename_form] at hform
      obtain rfl := tag_of_hasForm hform
      exact ⟨i, hsome, rfl⟩
    · simp only [not_exists] at hex
      exact absurd (hothers name tag hform hex) hsome
  · rintro ⟨i, hex, rfl⟩
    refine ⟨hex, ?_⟩
    rw [shards.filename_form]
    exact exportFilename_hasForm tag _

theorem Written.mem_find (h : Written shards ts after) (hd : ∀ name, name ∈ d.names ↔ after name ≠ none)
    {tag : TypeTag} {name : Bytes} : name ∈ findParquetFiles d tag ↔
      ∃ i, (∃ t ∈ ts i, t.tag = tag) ∧ name = (shards.exporters i).filename tag := by
  have hsome : ∀ i, after ((shards.exporters i).filename tag) ≠ none ↔ ∃ t ∈ ts i, t.tag = tag := by
    intro i
    rw [h.files]
    by_cases hex : ∃ t ∈ ts i, t.tag = tag <;> simp [hex]
  rw [shards.mem_found hd h.others]
  simp only [hsome]

theorem Written.present (h : Written shards ts after) (i : ι) (tag : TypeTag) :
    (∃ t ∈ ts i, t.tag = tag) ↔ (tagRows tag (ts i)).length ≠ 0 := by
  have hnil := not_congr (@tagRows_eq_nil_iff tag (ts i) (h.wellFormed i))
  rw [Ne, List.length_eq_zero_iff, hnil]
  simp

theorem pieces_rows_nil {tag : TypeTag} {e : RdbEntry} (hw : e.Whole)
    (h : rowsUnder heuristics tag e = []) :
    ((e.pieces limit).flatMap (rowsUnder heuristics tag)).length = 0 := by
  by_cases hgeo : tag = .geo
  · subst hgeo
    rw [pieces_geo_length, h]
    simp
  · rw [pieces_rows heuristics hgeo hw, h]
    rfl

/-- The rows under a tag, over all shards. -/
theorem Shards.total [Fintype ι] (shards : Shards ι globMatch r heuristics limit)
    (hwhole : ∀ e ∈ r.keys, e.Whole) (tag : TypeTag) :
    ∑ i, keyCount heuristics limit tag (r.keys.filter ((shards.args i).takes globMatch tag)) =
      keyCount heuristics limit tag r.keys := by
  apply sum_taken
  intro e he hne
  apply shards.share e he tag
  intro hnil
  exact hne (pieces_rows_nil (hwhole e he) hnil)

theorem Written.total [Fintype ι] (h : Written shards ts after) (hwhole : ∀ e ∈ r.keys, e.Whole)
    (tag : TypeTag) :
    ∑ i, (tagRows tag (ts i)).length = keyCount heuristics limit tag r.keys := by
  simp only [h.rows]
  exact shards.total hwhole tag

variable {footers : Bytes → ParquetFooter}

/-- The footer of a file that a shard wrote. -/
theorem Written.footer (h : Written shards ts after) (hread : ReadsBack footers after)
    {i : ι} {tag : TypeTag} (hex : ∃ t ∈ ts i, t.tag = tag) :
    footers ((shards.exporters i).filename tag) =
      ⟨((tagRows tag (ts i)).length : Nat), some (metadataFromRdb r.metadata heuristics)⟩ := by
  have hfile := h.files i tag
  rw [if_pos hex] at hfile
  rw [shards.finished_eq] at hfile
  rw [hread _ _ _ _ hfile, tagRows_length]
  unfold tagBatches
  rw [List.map_map]
  rfl

/-- A sum over the files that are found for a tag is one over the shards. -/
theorem Shards.found_sum [Fintype ι] (shards : Shards ι globMatch r heuristics limit)
    (hd : ∀ name, name ∈ d.names ↔ after name ≠ none)
    (hothers : ∀ name tag, HasForm tag name → (∀ i t, name ≠ (shards.exporters i).filename t) →
      after name = none) (tag : TypeTag) (f : Bytes → Nat) :
    ((findParquetFiles d tag).map f).sum =
      ∑ i, if after ((shards.exporters i).filename tag) ≠ none then f ((shards.exporters i).filename tag)
        else 0 := by
  have hfiles : (findParquetFiles d tag).toFinset =
      (Finset.univ.filter fun i => after ((shards.exporters i).filename tag) ≠ none).image
        fun i => (shards.exporters i).filename tag := by
    ext name
    rw [List.mem_toFinset, shards.mem_found hd hothers, Finset.mem_image]
    constructor
    · rintro ⟨i, hex, rfl⟩
      exact ⟨i, Finset.mem_filter.mpr ⟨Finset.mem_univ i, hex⟩, rfl⟩
    · rintro ⟨i, hi, rfl⟩
      exact ⟨i, (Finset.mem_filter.mp hi).2, rfl⟩
  have hinj : Set.InjOn (fun i => (shards.exporters i).filename tag)
      (Finset.univ.filter fun i => after ((shards.exporters i).filename tag) ≠ none : Finset ι) :=
    fun i _ j _ hname => shards.ids i j (filename_inj hname).2.1
  rw [← List.sum_toFinset _ (findParquetFiles_nodup d tag), hfiles, Finset.sum_image hinj,
    Finset.sum_filter]

/-- The rows in the files of a tag, over all shards. -/
theorem Written.directoryRows_eq [Fintype ι] (h : Written shards ts after) (hwhole : ∀ e ∈ r.keys, e.Whole)
    (hd : ∀ name, name ∈ d.names ↔ after name ≠ none) (hread : ReadsBack footers after)
    {tag : TypeTag} (hfits : keyCount heuristics limit tag r.keys < 2 ^ 64) :
    directoryRows d footers tag =
      if 0 < keyCount heuristics limit tag r.keys then some (keyCount heuristics limit tag r.keys)
      else none := by
  have htotal := h.total hwhole tag
  have hsum : ((findParquetFiles d tag).map fun name => (footers name).numRows.toNat).sum =
      keyCount heuristics limit tag r.keys := by
    rw [shards.found_sum hd h.others, ← htotal]
    apply Finset.sum_congr rfl
    intro i _
    by_cases hex : ∃ t ∈ ts i, t.tag = tag
    · have hsome : after ((shards.exporters i).filename tag) ≠ none := by
        rw [h.files, if_pos hex]
        exact nofun
      rw [if_pos hsome, h.footer hread hex]
      rfl
    · have hnone : after ((shards.exporters i).filename tag) = none := by
        rw [h.files, if_neg hex]
      have hzero := (not_congr (h.present i tag)).mp hex
      rw [if_neg (not_not.mpr hnone)]
      omega
  unfold directoryRows
  rw [hsum, Nat.mod_eq_of_lt hfits]
  by_cases hpos : 0 < keyCount heuristics limit tag r.keys
  · rw [if_pos hpos, if_neg]
    intro hnil
    rw [hnil] at hsum
    rw [← hsum] at hpos
    exact absurd hpos (lt_irrefl 0)
  · rw [if_neg hpos, if_pos]
    apply List.eq_nil_iff_forall_not_mem.mpr
    intro name hm
    obtain ⟨i, hex, -⟩ := (h.mem_find hd).mp hm
    have hle : (tagRows tag (ts i)).length ≤ ∑ j, (tagRows tag (ts j)).length :=
      Finset.single_le_sum (f := fun j => (tagRows tag (ts j)).length) (fun _ _ => Nat.zero_le _)
        (Finset.mem_univ i)
    have hne := (h.present i tag).mp hex
    omega

/-- Files that all have the metadata of one export: `validate` finds its heuristics, unless
there are no files. -/
theorem metadata_found {m : RdbMetadata} (h : ∀ tag, ∀ name ∈ findParquetFiles d tag,
      (footers name).schemaMetadata = some (metadataFromRdb m heuristics)) :
    ((∀ tag, findParquetFiles d tag = []) ∧
      ValkeyRdb.readParquetMetadata (parquetDirOf d footers) = .ok ⟨false, Heuristic.all⟩) ∨
    ∃ found, ValkeyRdb.readParquetMetadata (parquetDirOf d footers) = .ok ⟨found, heuristics⟩ := by
  cases hfirst : (TypeTag.all.flatMap (findParquetFiles d)).head? with
  | none =>
    have hnil := List.flatMap_eq_nil_iff.mp (List.head?_eq_none_iff.mp hfirst)
    refine .inl ⟨fun tag => hnil tag (TypeTag.mem_all tag), ?_⟩
    simp [ValkeyRdb.readParquetMetadata, parquetDirOf, hfirst]
  | some name =>
    obtain ⟨tag, -, hm⟩ := List.mem_flatMap.mp (List.mem_of_head? hfirst)
    have hdir : (parquetDirOf d footers).firstFile = some (some (metadataFromRdb m heuristics)) := by
      unfold parquetDirOf
      rw [hfirst]
      simp only [Option.map_some, h tag name hm]
    refine .inr ⟨(metadataFromRdb m heuristics).contains rdbExportedByKey, ?_⟩
    unfold ValkeyRdb.readParquetMetadata
    rw [hdir]
    simp only [metadataFromRdb_heuristics, Heuristic.parseSet_formatSet]

/-- The metadata that `validate` finds: that of every shard, unless there are no files. -/
theorem Written.metadata [Fintype ι] (h : Written shards ts after) (hwhole : ∀ e ∈ r.keys, e.Whole)
    (hd : ∀ name, name ∈ d.names ↔ after name ≠ none) (hread : ReadsBack footers after) :
    (r.keys = [] ∧ ValkeyRdb.readParquetMetadata (parquetDirOf d footers) =
      .ok ⟨false, Heuristic.all⟩) ∨
    ∃ found, ValkeyRdb.readParquetMetadata (parquetDirOf d footers) = .ok ⟨found, heuristics⟩ := by
  have hfooters : ∀ tag, ∀ name ∈ findParquetFiles d tag,
      (footers name).schemaMetadata = some (metadataFromRdb r.metadata heuristics) := by
    intro tag name hm
    obtain ⟨i, hex, rfl⟩ := (h.mem_find hd).mp hm
    rw [h.footer hread hex]
  rcases metadata_found hfooters with ⟨hnil, hm⟩ | hfound
  · refine .inl ⟨?_, hm⟩
    apply keys_nil_of_no_rows hwhole
    intro tag
    rw [← h.total hwhole tag]
    apply Finset.sum_eq_zero
    intro i _
    by_contra hne
    have hin := (h.mem_find hd).mpr ⟨i, (h.present i tag).mpr hne, rfl⟩
    rw [hnil tag] at hin
    cases hin
  · exact .inr hfound

/-- The shards and a reader with the default limit split the same geo keys of the file. -/
def SplitAlike (heuristics : Finset Heuristic) (limit : Option ℕ+) (r : RdbReader) : Prop :=
  .geo ∈ heuristics → ∀ e ∈ r.keys, isGeoEntry e = true →
    (e.SplitUnder limit ↔ e.SplitUnder (some defaultMaxKeyElements))

theorem validate_verdict {input : Bytes} (hnew : RdbReader.new input = .ok r) {dir : ParquetDir}
    {m : ParquetMeta} (hm : ValkeyRdb.readParquetMetadata dir = .ok m) {summary : EntrySummary}
    (hs : summarizeEntries r m.heuristics = .ok summary) :
    validate input dir = .ok () ∨ ∃ message, validate input dir = .error (.validationFailed message) := by
  have hcount : ValkeyRdb.countRdb input m.heuristics = .ok summary := by
    unfold ValkeyRdb.countRdb
    rw [hnew]
    simp only [hs]
  unfold validate
  rw [hm]
  simp only [hcount]
  split
  · exact .inl rfl
  · exact .inr ⟨_, rfl⟩

/-- `validate` on what the shards wrote. -/
theorem Written.validate [Fintype ι] (h : Written shards ts after) {input : Bytes}
    (hnew : RdbReader.new input = .ok r) (hclean : r.Clean)
    (hd : ∀ name, name ∈ d.names ↔ after name ≠ none) (hread : ReadsBack footers after)
    (hfits : ∀ tag, keyCount heuristics limit tag r.keys < 2 ^ 64) :
    (ValkeyRdb.validate input (parquetDirOf d footers) = .ok () ∧ SplitAlike heuristics limit r) ∨
    (∃ message, ValkeyRdb.validate input (parquetDirOf d footers) =
      .error (.validationFailed message)) ∧ ¬SplitAlike heuristics limit r := by
  have hwhole := keys_whole hnew hclean
  have hrows : ∀ tag, (parquetDirOf d footers).rows tag =
      if 0 < keyCount heuristics limit tag r.keys then some (keyCount heuristics limit tag r.keys)
      else none := fun tag => h.directoryRows_eq hwhole hd hread (hfits tag)
  rcases h.metadata hwhole hd hread with ⟨hkeys, hm⟩ | ⟨found, hm⟩
  · obtain ⟨t, ⟨summary, hsummary, htotals⟩, hcounts⟩ := default_summary hnew hclean Heuristic.all
    refine .inl ⟨?_, ?_⟩
    · rw [validate_ok_iff hnew hm hsummary, htotals]
      intro tag
      rw [summaryRows_eq hcounts, hrows, hkeys]
      rfl
    · intro _ e he
      rw [hkeys] at he
      cases he
  · obtain ⟨t, ⟨summary, hsummary, htotals⟩, hcounts⟩ := default_summary hnew hclean heuristics
    have hiff : ValkeyRdb.validate input (parquetDirOf d footers) = .ok () ↔
        SplitAlike heuristics limit r := by
      have hsplits := keyCount_eq_iff heuristics limit (some defaultMaxKeyElements) hwhole
      unfold SplitAlike
      rw [validate_ok_iff hnew hm hsummary, htotals, ← hsplits]
      apply forall_congr'
      intro tag
      rw [summaryRows_eq hcounts, hrows, presence_eq_iff, eq_comm]
    rcases validate_verdict hnew hm hsummary with hok | hfail
    · exact .inl ⟨hok, hiff.mp hok⟩
    · refine .inr ⟨hfail, fun hs => ?_⟩
      obtain ⟨message, hfail⟩ := hfail
      rw [hiff.mpr hs] at hfail
      cases hfail

/-- The share of a shard, by the keys it takes. -/
theorem Shards.share_length (shards : Shards ι globMatch r heuristics limit) {input : Bytes}
    (hnew : RdbReader.new input = .ok r) (hclean : r.Clean) (i : ι) (tag : TypeTag) :
    ((shards.args i).share globMatch r tag).length =
      keyCount heuristics limit tag (r.keys.filter ((shards.args i).takes globMatch tag)) := by
  rw [ValkeyRdb.share_length globMatch hnew hclean, shards.heuristics_eq, shards.limit_eq]

/-- What all the shards write, in whatever order their steps are taken. -/
theorem written_of_run {ε C : Type} [DecidableEq ι] {tryNew : TryNew ε} (ht : TryNewAccepts tryNew)
    {source : RdbInput} (hnew : RdbReader.new source.bytes = .ok r) (hclean : r.Clean)
    (shards : Shards ι globMatch r heuristics limit) (run : List (ι × WriterEvent (ArrowConvertError ε) C))
    (hrun : ∀ i, Traced (pulled tryNew globMatch (shards.args i) source r) (.ok ()) (stepsOf i run))
    {before : Files} (hbefore : ∀ name tag, HasForm tag name → before name = none) :
    Written shards (fun i => handed tryNew globMatch (shards.args i) r)
      (replay (changesOf (fun i => (shards.exporters i).change) run) before) := by
  have hid : ∀ i j, (shards.exporters i).shardId = (shards.exporters j).shardId →
      (shards.exporters i).format = (shards.exporters j).format → i = j :=
    fun i j h _ => shards.ids i j h
  have hr := Reachable.new hnew
  refine ⟨fun i => (handed_leading ht globMatch hr (shards.args i)).1, fun i tag => ?_, fun i tag => ?_,
    fun name tag hform hno => ?_⟩
  · obtain ⟨us, hus, -⟩ := replay_finished hid (hrun i) before
    obtain ⟨-, hfits, hread⟩ := handed_ok ht hr hus
    rw [handed_share_whole ht hr (shards.unlimited i) hfits hread, shards.share_length hnew hclean]
  · obtain ⟨us, hus, hfiles⟩ := replay_finished hid (hrun i) before
    obtain ⟨rfl, -, -⟩ := handed_ok ht hr hus
    rw [hfiles tag, hbefore _ tag]
    rw [shards.filename_form]
    exact exportFilename_hasForm tag _
  · rw [replay_others hno, hbefore name tag hform]

/-- The exit status of `validate` behind what the shards wrote. -/
theorem Written.exit_status {ω F ε : Type} [Fintype ι] (h : Written shards ts after) {source : RdbInput}
    (hnew : RdbReader.new source.bytes = .ok r) (hclean : r.Clean)
    (hfits : ∀ tag, keyCount heuristics limit tag r.keys < 2 ^ 64) {sys : ValidateSystem ω F ε}
    {args : ValidateArgs} {I I' : ω → Prop} (hfinds : Finds sys args source after d footers I I')
    {w : ω} (hw : I w) :
    (exitStatus (validateRun sys args w).1 = some 0 ↔ SplitAlike heuristics limit r) ∧
    (exitStatus (validateRun sys args w).1 = some 5 ↔ ¬SplitAlike heuristics limit r) := by
  have hnonneg : ∀ tag, ∀ name ∈ findParquetFiles d tag, 0 ≤ (footers name).numRows := by
    intro tag name hm
    obtain ⟨i, hex, rfl⟩ := (h.mem_find hfinds.names).mp hm
    rw [h.footer hfinds.readBack hex]
    exact Int.natCast_nonneg _
  rw [validateRun_eq hfinds.before hfinds.behind hnonneg hfinds.input hw]
  rcases h.validate hnew hclean hfinds.names hfinds.readBack hfits with
    ⟨hok, hsplit⟩ | ⟨⟨message, hfail⟩, hsplit⟩
  · rw [hok]
    exact ⟨iff_of_true rfl hsplit, iff_of_false nofun (not_not_intro hsplit)⟩
  · rw [hfail]
    exact ⟨iff_of_false nofun hsplit, iff_of_true rfl hsplit⟩

/-- Exports that share the rows of a file and have all succeeded, in any order of their
steps, pass validation exactly when their chunk setting splits the geo keys that the
default limit splits; otherwise the exit status is that of a mismatch. -/
theorem parallel_exports_validate {ω F ε C : Type} [DecidableEq ι] [Fintype ι] {tryNew : TryNew ε}
    (ht : TryNewAccepts tryNew) (source : RdbInput) (hnew : RdbReader.new source.bytes = .ok r)
    (hclean : r.Clean) (shards : Shards ι globMatch r heuristics limit)
    (run : List (ι × WriterEvent (ArrowConvertError ε) C))
    (hrun : ∀ i, Traced (pulled tryNew globMatch (shards.args i) source r) (.ok ()) (stepsOf i run))
    (before : Files) (hbefore : ∀ name tag, HasForm tag name → before name = none)
    (hfits : ∀ tag, keyCount heuristics limit tag r.keys < 2 ^ 64)
    (sys : ValidateSystem ω F ε) (args : ValidateArgs) (d : Directory) (footers : Bytes → ParquetFooter)
    (I I' : ω → Prop) (hfinds : Finds sys args source
      (replay (changesOf (fun i => (shards.exporters i).change) run) before) d footers I I')
    (w : ω) (hw : I w) :
    (exitStatus (validateRun sys args w).1 = some 0 ↔ SplitAlike heuristics limit r) ∧
    (exitStatus (validateRun sys args w).1 = some 5 ↔ ¬SplitAlike heuristics limit r) :=
  (written_of_run ht hnew hclean shards run hrun hbefore).exit_status hnew hclean hfits hfinds hw

end Validate

/-! ### Two shards of one file -/

/-- A string in the database 0 and one in the database 1. -/
def dbFile : Bytes := magicRedis ++
  [48, 49, 49, 0, 1, 107, 1, 118, 254, 1, 0, 1, 108, 1, 119, 255, 0, 0, 0, 0, 0, 0, 0, 0]

def dbReader : RdbReader :=
  { RdbReader.afterHeader ⟨dbFile.drop 10, crc64 0 (dbFile.take 10)⟩ ⟨.redis, 11⟩ with
    preambleByte := some rdbTypeString }

def dbEntry (second : Bool) : RdbEntry :=
  if second = true then keyEntry 1 rdbTypeString (none, none, none) [108] (.string [119]) none none
  else keyEntry 0 rdbTypeString (none, none, none) [107] (.string [118]) none none

theorem dbReader_clean : RdbReader.new dbFile = .ok dbReader ∧ dbReader.Clean ∧
    dbReader.keys = [dbEntry false, dbEntry true] := by
  have hitems : dbReader.withoutChunking.items.1 = [dbEntry false, dbEntry true].map .ok := by
    decide +kernel
  exact ⟨by decide +kernel, clean_of_items hitems⟩

/-- `export --db` with the defaults of the other arguments, for the databases 0 and 1. -/
def dbShards : Shards Bool (fun _ _ => true) dbReader Heuristic.all (some defaultMaxKeyElements) where
  args second := ⟨some (if second = true then 1 else 0), none, none, Heuristic.all, false, none, 65536,
    none, none⟩
  exporters second := { twoShards second with
    metadata := metadataFromRdb dbReader.metadata Heuristic.all }
  heuristics_eq _ := rfl
  limit_eq _ := rfl
  unlimited _ := rfl
  parquet _ := rfl
  metadata_eq _ := rfl
  ids := by
    intro i j h
    cases i <;> cases j <;> first | rfl | exact absurd (Option.some.inj h) (by decide)
  share := by
    intro e he tag _
    obtain ⟨-, -, hkeys⟩ := dbReader_clean
    rw [hkeys, List.mem_pair] at he
    rcases he with rfl | rfl
    · refine ⟨false, rfl, fun i hi => ?_⟩
      cases i with
      | false => rfl
      | true => cases hi
    · refine ⟨true, rfl, fun i hi => ?_⟩
      cases i with
      | false => cases hi
      | true => rfl

/-- The footer of a file that an export wrote. -/
def footerOf : Option StoredFile → ParquetFooter
  | some (.written (.opened _ _ metadata :: calls)) =>
    ⟨(((calls.filterMap FileCall.batch).map RecordBatch.numRows).sum : Nat), some metadata⟩
  | _ => ⟨0, none⟩

/-- A machine with these files in the directory "out"; every input is `dbFile`. -/
def shardSystem (files : Files) (d : Directory) : ValidateSystem Unit Bytes String where
  stdin w := (⟨dbFile, none⟩, w)
  openInput _ w := (.ok ⟨dbFile, none⟩, w)
  fileExists path _ := d.names.elem (path.drop 4)
  readDir _ _ := some d.names
  openFile path w := (.ok path, w)
  serializedFileReader path w := (.ok (footerOf (files (path.drop 4))), w)

def shardArgs : ValidateArgs := ⟨asciiBytes "dump.rdb", asciiBytes "out"⟩

theorem shardSystem_reads (files : Files) (d : Directory)
    (htext : ∀ name ∈ d.names, Utf8 (joinPath shardArgs.output name)) :
    ReadsDirectory (shardSystem files d) shardArgs.output d (fun name => footerOf (files name))
      fun _ => True where
  readDir _ := rfl
  fileExists := by
    intro name w _ _
    have hdrop : (joinPath shardArgs.output name).drop 4 = name := rfl
    change d.names.elem ((joinPath shardArgs.output name).drop 4) = _
    rw [hdrop, List.elem_eq_mem]
  text hm _ := htext _ hm
  footer _ _ _ := ⟨_, (), (), rfl, rfl, trivial⟩

theorem footerOf_readsBack (files : Files) : ReadsBack (fun name => footerOf (files name)) files := by
  intro name tag metadata batches h
  have hwrote : ∀ bs : List RecordBatch,
      (bs.map FileCall.wrote ++ [FileCall.closed]).filterMap FileCall.batch = bs := by
    intro bs
    induction bs with
    | nil => rfl
    | cons b bs ih => exact congrArg (b :: ·) ih
  dsimp only
  rw [h]
  change (⟨(((batches.map FileCall.wrote ++ [FileCall.closed]).filterMap FileCall.batch).map
    RecordBatch.numRows).sum, some metadata⟩ : ParquetFooter) = _
  rw [hwrote]

/-- The files behind a run of the two shards. -/
def dbFiles (run : List (Bool × WriterEvent (ArrowConvertError String) (ArrowConvertError String))) :
    Files := replay (changesOf (fun i => (dbShards.exporters i).change) run) fun _ => none

theorem dbShards_fit (i : Bool) :
    (dbShards.args i).config.Fits (keptEntries (fun _ _ => true) (dbShards.args i) dbReader) := by
  rw [← eachFits_iff_fits checkedTryNew_accepts]
  cases i <;> decide +kernel

/-- The batches of a shard. -/
def dbItems (i : Bool) : List (Except (ArrowConvertError String) TypedBatch) :=
  pulled checkedTryNew (fun _ _ => true) (dbShards.args i) ⟨dbFile, none⟩ dbReader

/-- The calls of a shard on a machine where none fails. -/
def dbTrace (i : Bool) : List (WriterEvent (ArrowConvertError String) (ArrowConvertError String)) :=
  (runWriterPipeline (quietCallbacks (ArrowConvertError String)).traced id (dbItems i) ((), [])).2.2

theorem dbTrace_traced (i : Bool) : Traced (dbItems i) (.ok ()) (dbTrace i) := by
  obtain ⟨hnew, hclean, -⟩ := dbReader_clean
  have hquiet : (quietCallbacks (ArrowConvertError String)).Succeeds :=
    ⟨fun _ w => ⟨(), w, rfl⟩, fun _ _ w => ⟨(), w, rfl⟩, fun _ _ w => ⟨(), w, rfl⟩,
      fun _ w => ⟨w, rfl⟩⟩
  obtain ⟨result, w', trace, attempts, last, closed, hrun, -⟩ := pipeline_calls
    (quietCallbacks (ArrowConvertError String)) id (dbItems i) ()
  have hresult := pipeline_succeeds hquiet id (dbItems i) ()
  have hitems := (handed_whole checkedTryNew_accepts (dbShards_fit i)
    ((readsThrough_iff hnew (dbShards.args i)).mp ⟨dbReader, hnew, hclean⟩)).1 ⟨dbFile, none⟩
  have hfirst : firstError (dbItems i) = .ok () := by
    rw [firstError_eq, dbItems, hitems, failures_ok]
    rfl
  rw [pipeline_untraced hrun, hfirst] at hresult
  have hok : result = .ok () := hresult
  subst hok
  refine ⟨Unit, Unit, Unit, quietCallbacks _, id, (), w', ?_⟩
  rw [dbTrace, hrun]

/-- Both shards, one after the other. -/
def dbRun : List (Bool × WriterEvent (ArrowConvertError String) (ArrowConvertError String)) :=
  (dbTrace false).map (false, ·) ++ (dbTrace true).map (true, ·)

theorem stepsOf_pair (xs ys : List (WriterEvent (ArrowConvertError String) (ArrowConvertError String)))
    (i : Bool) : stepsOf i (xs.map (false, ·) ++ ys.map (true, ·)) = if i = true then ys else xs := by
  cases i <;> simp [stepsOf, List.filterMap_map]

theorem dbRun_traced (i : Bool) : Traced (dbItems i) (.ok ()) (stepsOf i dbRun) := by
  rw [dbRun, stepsOf_pair]
  cases i with
  | false => exact dbTrace_traced false
  | true => exact dbTrace_traced true

/-- The names that a run of the shards made. -/
def dbDirectory (run : List (Bool × WriterEvent (ArrowConvertError String) (ArrowConvertError String))) :
    Directory where
  names := (([false, true].flatMap fun i => TypeTag.all.map (dbShards.exporters i).filename).filter
    fun name => (dbFiles run name).isSome).dedup
  nodup := List.nodup_dedup _

theorem mem_dbDirectory
    (run : List (Bool × WriterEvent (ArrowConvertError String) (ArrowConvertError String)))
    (name : Bytes) : name ∈ (dbDirectory run).names ↔ dbFiles run name ≠ none := by
  unfold dbDirectory
  rw [List.mem_dedup, List.mem_filter, Option.isSome_iff_ne_none]
  refine ⟨fun h => h.2, fun h => ⟨?_, h⟩⟩
  by_contra hno
  refine h (replay_others (fun i tag heq => hno ?_) run _)
  rw [heq]
  exact List.mem_flatMap.mpr ⟨i, by cases i <;> simp, List.mem_map.mpr ⟨tag, TypeTag.mem_all tag, rfl⟩⟩

theorem dbDirectory_text
    (run : List (Bool × WriterEvent (ArrowConvertError String) (ArrowConvertError String))) :
    ∀ name ∈ (dbDirectory run).names, Utf8 (joinPath shardArgs.output name) := by
  have hall : ∀ name ∈ ([false, true].flatMap fun i => TypeTag.all.map (dbShards.exporters i).filename),
      IsAscii (joinPath shardArgs.output name) := by
    unfold IsAscii
    decide +kernel
  exact fun name hm => .of_ascii (hall name (List.mem_filter.mp (List.mem_dedup.mp hm)).1)

theorem dbShards_rows (tag : TypeTag) :
    keyCount Heuristic.all (some defaultMaxKeyElements) tag dbReader.keys < 2 ^ 64 := by
  obtain ⟨-, -, hkeys⟩ := dbReader_clean
  rw [hkeys]
  cases tag <;> decide +kernel

theorem parallel_exports_validate_dbs :
    (∀ i, dbFiles dbRun ((dbShards.exporters i).filename .string) ≠ none) ∧
    exitStatus (validateRun (shardSystem (replay (changesOf (fun i => (dbShards.exporters i).change) dbRun)
      fun _ => none) (dbDirectory dbRun)) shardArgs ()).1 = some 0 := by
  obtain ⟨hnew, hclean, hkeys⟩ := dbReader_clean
  have hreads := shardSystem_reads (dbFiles dbRun) (dbDirectory dbRun) (dbDirectory_text dbRun)
  refine ⟨by decide +kernel, (parallel_exports_validate checkedTryNew_accepts ⟨dbFile, none⟩ hnew hclean
    dbShards dbRun dbRun_traced (fun _ => none) (fun _ _ _ => rfl) dbShards_rows
    (shardSystem (dbFiles dbRun) (dbDirectory dbRun)) shardArgs (dbDirectory dbRun)
    (fun name => footerOf (dbFiles dbRun name)) (fun _ => True) (fun _ => True)
    ⟨hreads, hreads, fun w _ => ⟨w, rfl, trivial⟩, mem_dbDirectory dbRun, footerOf_readsBack (dbFiles dbRun)⟩
    () trivial).1.mpr fun _ _ _ _ => Iff.rfl⟩

end ValkeyRdb.Cli
