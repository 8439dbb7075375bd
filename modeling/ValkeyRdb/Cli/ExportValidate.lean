import Mathlib.Algebra.Order.BigOperators.Group.List
import ValkeyRdb.Cli.Validate

/-!
# Validating an export

An export and the validation of it read the same file under two chunk settings. Their
counts differ exactly by the geo rows of the sorted sets that one of the two splits.
-/

namespace ValkeyRdb

/-! ### The counts of a file under a chunk setting -/

/-- Whether a key is split under a chunk setting. -/
def RdbEntry.SplitUnder (e : RdbEntry) (limit : Option ℕ+) : Prop :=
  ∃ max, limit = some max ∧ e.Splits max

instance (e : RdbEntry) (limit : Option ℕ+) : Decidable (e.SplitUnder limit) :=
  match limit with
  | none => .isFalse (by rintro ⟨_, h, -⟩; cases h)
  | some max => decidable_of_iff (e.Splits max) ⟨fun h => ⟨max, rfl, h⟩, by rintro ⟨_, ⟨⟩, h⟩; exact h⟩

/-- The number of rows that the keys contribute to a tag. -/
def keyCount (heuristics : Finset Heuristic) (limit : Option ℕ+) (tag : TypeTag)
    (keys : List RdbEntry) : Nat :=
  (keys.map fun e => ((e.pieces limit).flatMap (rowsUnder heuristics tag)).length).sum

theorem pieces_geo_length (heuristics : Finset Heuristic) (limit : Option ℕ+) (e : RdbEntry) :
    ((e.pieces limit).flatMap (rowsUnder heuristics .geo)).length =
      if e.SplitUnder limit then 0 else (rowsUnder heuristics .geo e).length := by
  cases limit with
  | none =>
    have hno : ¬e.SplitUnder none := by rintro ⟨_, h, -⟩; cases h
    simp [RdbEntry.pieces, hno]
  | some max =>
    by_cases hs : e.Splits max
    · have hyes : e.SplitUnder (some max) := ⟨max, rfl, hs⟩
      simp [RdbEntry.pieces, hs, hyes, List.flatMap_map, rowsUnder_geo_chunk]
    · have hno : ¬e.SplitUnder (some max) := by rintro ⟨_, ⟨⟩, h⟩; exact hs h
      simp [RdbEntry.pieces, hs, hno]

theorem rowsUnder_geo_pos {heuristics : Finset Heuristic} {e : RdbEntry} :
    0 < (rowsUnder heuristics .geo e).length ↔ .geo ∈ heuristics ∧ isGeoEntry e = true := by
  obtain ⟨primary, hp⟩ := typeTagFor_isSome e
  have hne : TypeTag.geo ≠ primary := fun h => typeTagFor_ne_geo _ (h ▸ hp)
  by_cases hg : isGeoEntry e = true
  · obtain ⟨members, hv, -⟩ := isGeoEntry_sortedSet hg
    have hprimary : primary = .sortedSet := by simpa [typeTagFor, hv] using hp.symm
    have hrows := entryRows_geo_length hg
    have hpos := expectedRowCount_pos e
    by_cases hh : .geo ∈ heuristics <;>
      simp [rowsUnder, hp, hprimary, shouldEmitGeo, hg, hh, hrows]
    omega
  · simp [rowsUnder, hp, hne, shouldEmitGeo, hg]

/-- Under one limit all the keys are split that are split under a larger one. -/
theorem splitUnder_total (limit limit' : Option ℕ+) :
    (∀ e : RdbEntry, e.SplitUnder limit → e.SplitUnder limit') ∨
      (∀ e : RdbEntry, e.SplitUnder limit' → e.SplitUnder limit) := by
  cases limit with
  | none => exact .inl (by rintro e ⟨_, h, -⟩; cases h)
  | some max =>
    cases limit' with
    | none => exact .inr (by rintro e ⟨_, h, -⟩; cases h)
    | some max' =>
      have hmono : ∀ {a b : ℕ+}, a ≤ b → ∀ e : RdbEntry, e.SplitUnder (some b) → e.SplitUnder (some a) := by
        rintro a b hab e ⟨_, ⟨⟩, hp, hlt⟩
        exact ⟨a, rfl, hp, lt_of_le_of_lt hab hlt⟩
      rcases le_total max max' with hle | hle
      · exact .inr (hmono hle)
      · exact .inl (hmono hle)

theorem sum_left_out_eq_iff {α : Type} {p q : α → Prop} [DecidablePred p] [DecidablePred q]
    (hpq : ∀ x, p x → q x) (f : α → Nat) (xs : List α) :
    (xs.map fun x => if p x then 0 else f x).sum = (xs.map fun x => if q x then 0 else f x).sum ↔
      ∀ x ∈ xs, 0 < f x → (p x ↔ q x) := by
  have hle : ∀ ys : List α, (ys.map fun x => if q x then 0 else f x).sum ≤
      (ys.map fun x => if p x then 0 else f x).sum := by
    intro ys
    apply List.sum_le_sum
    intro x _
    by_cases hp : p x
    · simp [hp, hpq x hp]
    · by_cases hq : q x <;> simp [hp, hq]
  induction xs with
  | nil => simp
  | cons x xs ih =>
    have hrest := hle xs
    simp only [List.map_cons, List.sum_cons, List.forall_mem_cons, ← ih]
    by_cases hp : p x
    · simp [hp, hpq x hp]
    · by_cases hq : q x
      · simp only [hp, hq, if_true, if_false]
        constructor
        · intro heq
          exact ⟨fun hpos => by omega, by omega⟩
        · rintro ⟨hzero, heq⟩
          have hf : f x = 0 := by
            by_contra hne
            exact absurd (hzero (Nat.pos_of_ne_zero hne)) (by simp)
          omega
      · simp [hp, hq]

/-- The chunk setting matters to the geo rows only. -/
theorem keyCount_of_ne_geo (heuristics : Finset Heuristic) (limit limit' : Option ℕ+)
    {keys : List RdbEntry} (hw : ∀ e ∈ keys, e.Whole) {tag : TypeTag} (hgeo : tag ≠ .geo) :
    keyCount heuristics limit tag keys = keyCount heuristics limit' tag keys := by
  unfold keyCount
  congr 1
  apply List.map_congr_left
  intro e he
  rw [pieces_rows heuristics hgeo (hw e he), pieces_rows heuristics hgeo (hw e he)]

/-- The counts under two chunk settings agree, tag by tag, exactly when the two split the
same geo keys. -/
theorem keyCount_eq_iff (heuristics : Finset Heuristic) (limit limit' : Option ℕ+)
    {keys : List RdbEntry} (hw : ∀ e ∈ keys, e.Whole) :
    (∀ tag, keyCount heuristics limit tag keys = keyCount heuristics limit' tag keys) ↔
      (.geo ∈ heuristics → ∀ e ∈ keys, isGeoEntry e = true →
        (e.SplitUnder limit ↔ e.SplitUnder limit')) := by
  have hother : ∀ tag, tag ≠ .geo →
      keyCount heuristics limit tag keys = keyCount heuristics limit' tag keys :=
    fun tag hgeo => keyCount_of_ne_geo heuristics limit limit' hw hgeo
  have hgeo : keyCount heuristics limit .geo keys = keyCount heuristics limit' .geo keys ↔
      ∀ e ∈ keys, 0 < (rowsUnder heuristics .geo e).length →
        (e.SplitUnder limit ↔ e.SplitUnder limit') := by
    unfold keyCount
    simp only [pieces_geo_length]
    rcases splitUnder_total limit limit' with hle | hle
    · exact sum_left_out_eq_iff hle _ keys
    · rw [eq_comm, sum_left_out_eq_iff hle _ keys]
      simp only [iff_comm]
  constructor
  · intro h hh e he hg
    exact hgeo.mp (h .geo) e he (rowsUnder_geo_pos.mpr ⟨hh, hg⟩)
  · intro h tag
    by_cases htag : tag = .geo
    · subst htag
      apply hgeo.mpr
      intro e he hpos
      obtain ⟨hh, hg⟩ := rowsUnder_geo_pos.mp hpos
      exact h hh e he hg
    · exact hother tag htag

/-! ### The two runs -/

namespace ExportArgs

/-- The chunk setting of an export. -/
def limit (args : ExportArgs) : Option ℕ+ :=
  if args.noChunking = true then none else some (args.maxKeyElements.getD defaultMaxKeyElements)

/-- No filter, and no limit on the size of an entry. -/
structure Unfiltered (args : ExportArgs) : Prop where
  db : args.db = none
  typeTags : args.typeTags = none
  keyPattern : args.keyPattern = none
  maxEntryBytes : args.maxEntryBytes = none

/-- The export and a reader with the default limit split the same geo keys of the file. -/
def SplitsLikeDefault (args : ExportArgs) (r : RdbReader) : Prop :=
  .geo ∈ args.heuristics → ∀ e ∈ r.keys, isGeoEntry e = true →
    (e.SplitUnder args.limit ↔ e.SplitUnder (some defaultMaxKeyElements))

end ExportArgs

section Runs

variable {ε : Type} {tryNew : TryNew ε} {input : Bytes} {r : RdbReader}

theorem new_limit (hnew : RdbReader.new input = .ok r) :
    r.configure (some defaultMaxKeyElements) = r := by
  have hmax : r.maxKeyElements = some defaultMaxKeyElements := by rw [new_eq hnew]; rfl
  unfold RdbReader.configure RdbReader.withMaxKeyElements
  cases r
  simp_all

theorem args_reader (hnew : RdbReader.new input = .ok r) (args : ExportArgs) :
    args.reader r = r.configure args.limit := by
  unfold ExportArgs.reader ExportArgs.limit
  split
  · rfl
  · cases args.maxKeyElements with
    | none => exact (new_limit hnew).symm
    | some max => rfl

theorem keyRows_length (heuristics : Finset Heuristic) (limit : Option ℕ+) (tag : TypeTag)
    (keys : List RdbEntry) :
    ((keys.flatMap (·.pieces limit)).flatMap (rowsUnder heuristics tag)).length =
      keyCount heuristics limit tag keys := by
  rw [List.flatMap_assoc, List.length_flatMap]
  rfl

/-- What an export without filters pulls. -/
theorem unfiltered_exported (tryNew : TryNew ε) (globMatch : Bytes → Bytes → Bool) {args : ExportArgs}
    (hargs : args.Unfiltered) (items : List (Res RdbEntry)) :
    exported tryNew globMatch args.filter args.config items =
      (feed tryNew items (ArrowBatcher.new args.config)).1 := by
  have hkeep : items.filter (args.filter.keeps globMatch) = items := by
    apply List.filter_eq_self.mpr
    rintro (f | e) -
    · rfl
    · simp [EntryFilter.keeps, EntryFilter.matchesEntry, ExportArgs.filter, hargs.db,
        hargs.typeTags, hargs.keyPattern]
  unfold exported
  rw [hkeep]
  simp [ExportArgs.filter, hargs.typeTags]

theorem unfiltered_batches (ht : TryNewAccepts tryNew) (globMatch : Bytes → Bytes → Bool)
    (hnew : RdbReader.new input = .ok r) (hclean : r.Clean) {args : ExportArgs}
    (hargs : args.Unfiltered) (hfits : args.config.Fits (r.keyPieces args.limit)) :
    ∃ rounds batches last, (∀ n, rounds ≤ n →
        Yields (exportBatches tryNew globMatch args.filter RdbReader.next n)
          ((ArrowBatcher.new args.config).process (args.reader r)) (batches.map .ok) last) ∧
      (∀ t ∈ batches, t.WellFormed) ∧
      ∀ tag, (tagRows tag batches).length = keyCount args.heuristics args.limit tag r.keys := by
  obtain ⟨r', hy⟩ := configured_yields hnew hclean args.limit
  rw [← args_reader hnew args] at hy
  have hentries : entriesOf (r.withoutChunking.items.1.flatMap (pieceItems args.limit)) =
      r.keyPieces args.limit := entriesOf_pieceItems args.limit _
  generalize hitems : r.withoutChunking.items.1.flatMap (pieceItems args.limit) = items at hy hentries
  have hread : Readable items := by
    rw [← hitems, Readable, faultsOf_pieceItems]
    exact readable_of_not_terminal hclean
  obtain ⟨batches, hfeed, hbatches, hrows⟩ := feed_readable ht hread (hentries ▸ hfits)
  obtain ⟨rounds, last, -, hrun⟩ := exportBatches_yields tryNew globMatch args.filter args.config hy
  rw [unfiltered_exported tryNew globMatch hargs, hfeed] at hrun
  refine ⟨rounds, batches, last, hrun, hbatches, fun tag => ?_⟩
  have hmax : args.config.maxEntryBytes = none := hargs.maxEntryBytes
  rw [hrows, taken_unlimited hmax, hentries]
  exact keyRows_length args.heuristics args.limit tag r.keys

/-- An export without filters that yields batches only has had room for the pieces of the
keys. -/
theorem fits_of_unfiltered (ht : TryNewAccepts tryNew) (globMatch : Bytes → Bytes → Bool)
    (hnew : RdbReader.new input = .ok r) (hclean : r.Clean) {args : ExportArgs}
    (hargs : args.Unfiltered) {rounds : Nat} {batches : List TypedBatch}
    {last : BatchIterator RdbReader} (hy : ∀ n, rounds ≤ n →
      Yields (exportBatches tryNew globMatch args.filter RdbReader.next n)
        ((ArrowBatcher.new args.config).process (args.reader r)) (batches.map .ok) last) :
    args.config.Fits (r.keyPieces args.limit) := by
  obtain ⟨r', hitems⟩ := configured_yields hnew hclean args.limit
  rw [← args_reader hnew args] at hitems
  have hentries : entriesOf (r.withoutChunking.items.1.flatMap (pieceItems args.limit)) =
      r.keyPieces args.limit := entriesOf_pieceItems args.limit _
  obtain ⟨rounds', last', -, hrun⟩ :=
    exportBatches_yields tryNew globMatch args.filter args.config hitems
  have hsame := ((hy _ (le_max_left rounds rounds')).unique (hrun _ (le_max_right rounds rounds'))).1
  rw [unfiltered_exported tryNew globMatch hargs] at hsame
  by_contra hover
  rw [← hentries] at hover
  have hpanic := panic_mem_feed ht hover
  rw [← hsame] at hpanic
  obtain ⟨t, -, ht⟩ := List.mem_map.mp hpanic
  cases ht

theorem default_summary (hnew : RdbReader.new input = .ok r) (hclean : r.Clean)
    (heuristics : Finset Heuristic) :
    ∃ t : Totals, (∃ summary, summarizeEntries r heuristics = .ok summary ∧ summary.totals = t.totals) ∧
      Totals.new.Counts
        (fun tag => keyCount heuristics (some defaultMaxKeyElements) tag r.keys) t := by
  obtain ⟨r', hy⟩ := configured_yields hnew hclean (some defaultMaxKeyElements)
  rw [new_limit hnew] at hy
  have hitems := ((Reachable.new hnew).yields.unique hy).1
  have hread : Readable r.items.1 := by
    rw [hitems, Readable, faultsOf_pieceItems]
    exact readable_of_not_terminal hclean
  obtain ⟨t, hrun, hcounts⟩ := summarizeItems_counts heuristics r.items.1 hread .new
  refine ⟨t, ?_, hcounts.congr fun tag => ?_⟩
  · unfold summarizeEntries
    rw [hrun]
    exact ⟨_, rfl, rfl⟩
  · rw [hitems, entriesOf_pieceItems]
    exact keyRows_length heuristics _ tag r.keys

end Runs

/-! ### The verdict -/

theorem parquetRows_eq {batches : List TypedBatch} {n : TypeTag → Nat}
    (hb : ∀ b ∈ batches, b.WellFormed) (hrows : ∀ tag, (tagRows tag batches).length = n tag)
    (tag : TypeTag) : parquetRows batches tag = if 0 < n tag then some (n tag) else none := by
  have hcount : batchRows tag batches = n tag := by
    rw [← hrows, tagRows_length]
    rfl
  have hpresent : (∃ b ∈ batches, b.tag = tag) ↔ 0 < n tag := by
    have hnil := not_congr (@tagRows_eq_nil_iff tag batches hb)
    rw [← hrows, List.length_pos_iff, Ne, hnil]
    simp
  unfold parquetRows
  simp [hpresent, hcount]

theorem summaryRows_eq {t : Totals} {n : TypeTag → Nat} (h : Totals.new.Counts n t) (tag : TypeTag) :
    (t.totals.get? tag).map TypeCount.rows = if 0 < n tag then some (n tag) else none := by
  have hrows := h.rows tag
  have hpresent := h.present tag
  have hzero : Totals.new.rows tag = 0 := rfl
  have hnone : ¬Totals.new.totals.contains tag = true := by simp [Totals.new, SortedMap.contains]
  rw [hzero, Nat.zero_add, Totals.rows] at hrows
  rw [SortedMap.contains] at hpresent
  cases ht : t.totals.get? tag with
  | none =>
    rw [ht] at hrows
    simp [← hrows]
  | some tc =>
    rw [ht] at hrows hpresent
    have hpos : 0 < n tag := by simpa [hnone] using hpresent
    simpa [hpos] using hrows

theorem presence_eq_iff (a b : Nat) :
    (if 0 < a then some a else none) = (if 0 < b then some b else none) ↔ a = b := by
  by_cases ha : 0 < a <;> by_cases hb : 0 < b <;> simp [ha, hb] <;> omega

theorem validate_ok_iff {input : Bytes} {r : RdbReader} (hnew : RdbReader.new input = .ok r)
    {dir : ParquetDir} {m : ParquetMeta} (hm : readParquetMetadata dir = .ok m)
    {summary : EntrySummary} (hs : summarizeEntries r m.heuristics = .ok summary) :
    validate input dir = .ok () ↔
      ∀ tag, (summary.totals.get? tag).map TypeCount.rows = dir.rows tag := by
  have hcount : countRdb input m.heuristics = .ok summary := by
    unfold countRdb
    rw [hnew]
    simp only [hs]
  unfold validate
  rw [hm]
  simp only [hcount]
  rw [← statuses_ok_iff]
  split <;> simp [*]

theorem keys_nil_of_no_rows {heuristics : Finset Heuristic} {limit : Option ℕ+}
    {keys : List RdbEntry} (hw : ∀ e ∈ keys, e.Whole)
    (h : ∀ tag, keyCount heuristics limit tag keys = 0) : keys = [] := by
  apply List.eq_nil_iff_forall_not_mem.mpr
  intro e he
  obtain ⟨primary, hp⟩ := typeTagFor_isSome e
  have hgeo : primary ≠ .geo := fun hg => typeTagFor_ne_geo e (hg ▸ hp)
  have hzero := List.sum_eq_zero_iff.mp (h primary) _ (List.mem_map_of_mem he)
  rw [pieces_rows heuristics hgeo (hw e he), rowsUnder_of_ne_geo hgeo hp, if_pos rfl] at hzero
  exact entryRows_ne_nil hp (List.length_eq_zero_iff.mp hzero)

/-- The counts of the file agree with the batches of an export exactly when its chunk setting
splits the same geo keys as the default limit, and so `validate` decides. -/
theorem batches_validate {input : Bytes} {r : RdbReader} (hnew : RdbReader.new input = .ok r)
    (hclean : r.Clean) {args : ExportArgs} {batches : List TypedBatch}
    (hbatches : ∀ t ∈ batches, t.WellFormed)
    (hrows : ∀ tag, (tagRows tag batches).length = keyCount args.heuristics args.limit tag r.keys) :
    ∃ summary, summarizeEntries r args.heuristics = .ok summary ∧
      ((∀ tag, (summary.totals.get? tag).map TypeCount.rows = parquetRows batches tag) ↔
        args.SplitsLikeDefault r) ∧
      (validate input (exportedDir (metadataFromRdb r.metadata args.heuristics) batches) = .ok () ↔
        args.SplitsLikeDefault r) := by
  have hwhole := keys_whole hnew hclean
  obtain ⟨t, ⟨summary, hsummary, htotals⟩, hcounts⟩ := default_summary hnew hclean args.heuristics
  have hagree : (∀ tag, (summary.totals.get? tag).map TypeCount.rows = parquetRows batches tag) ↔
      args.SplitsLikeDefault r := by
    have hsplits := keyCount_eq_iff args.heuristics args.limit (some defaultMaxKeyElements) hwhole
    unfold ExportArgs.SplitsLikeDefault
    rw [← hsplits, htotals]
    apply forall_congr'
    intro tag
    rw [summaryRows_eq hcounts, parquetRows_eq hbatches hrows, presence_eq_iff, eq_comm]
  refine ⟨summary, hsummary, hagree, ?_⟩
  by_cases hempty : batches = []
  · -- without files the heuristics are not known, but then the file has no keys
    have hkeys : r.keys = [] := by
      apply keys_nil_of_no_rows hwhole
      intro tag
      rw [← hrows, hempty]
      rfl
    have hmeta : readParquetMetadata (exportedDir (metadataFromRdb r.metadata args.heuristics) batches) =
        .ok ⟨false, Heuristic.all⟩ := by
      simp [readParquetMetadata, exportedDir, hempty]
    obtain ⟨t', ⟨summary', hsummary', htotals'⟩, hcounts'⟩ := default_summary hnew hclean Heuristic.all
    rw [validate_ok_iff hnew hmeta hsummary', htotals']
    have hsplits : args.SplitsLikeDefault r := by
      intro _ e he
      rw [hkeys] at he
      cases he
    refine iff_of_true (fun tag => ?_) hsplits
    rw [summaryRows_eq hcounts', hkeys, hempty]
    rfl
  · have hmeta : readParquetMetadata (exportedDir (metadataFromRdb r.metadata args.heuristics) batches) =
        .ok ⟨(metadataFromRdb r.metadata args.heuristics).contains rdbExportedByKey,
          args.heuristics⟩ := by
      simp [readParquetMetadata, exportedDir, hempty, metadataFromRdb_heuristics,
        Heuristic.parseSet_formatSet]
    rw [validate_ok_iff hnew hmeta hsummary]
    exact hagree

/-- An export without filters comes to its end and agrees with the counts of `validate`, tag
by tag, exactly when the builders have room for the pieces of the keys and the chunk setting
of the export splits the same geo keys as the default limit. In the same case, and in no
other, the export comes to its end and `validate` passes. -/
theorem validate_agrees_iff {ε : Type} (tryNew : TryNew ε) (ht : TryNewAccepts tryNew)
    (globMatch : Bytes → Bytes → Bool) (input : Bytes) (r : RdbReader)
    (hnew : RdbReader.new input = .ok r) (hclean : r.Clean) (args : ExportArgs)
    (hargs : args.Unfiltered) :
    ((∃ rounds batches last summary, (∀ n, rounds ≤ n →
          Yields (exportBatches tryNew globMatch args.filter RdbReader.next n)
            ((ArrowBatcher.new args.config).process (args.reader r)) (batches.map .ok) last) ∧
        summarizeEntries r args.heuristics = .ok summary ∧
        ∀ tag, (summary.totals.get? tag).map TypeCount.rows = parquetRows batches tag) ↔
      args.config.Fits (r.keyPieces args.limit) ∧ args.SplitsLikeDefault r) ∧
    ((∃ rounds batches last, (∀ n, rounds ≤ n →
          Yields (exportBatches tryNew globMatch args.filter RdbReader.next n)
            ((ArrowBatcher.new args.config).process (args.reader r)) (batches.map .ok) last) ∧
        validate input (exportedDir (metadataFromRdb r.metadata args.heuristics) batches) = .ok ()) ↔
      args.config.Fits (r.keyPieces args.limit) ∧ args.SplitsLikeDefault r) := by
  -- the batches of a run that comes to its end
  have hrun : ∀ {rounds batches last}, (∀ n, rounds ≤ n →
      Yields (exportBatches tryNew globMatch args.filter RdbReader.next n)
        ((ArrowBatcher.new args.config).process (args.reader r)) (batches.map .ok) last) →
      args.config.Fits (r.keyPieces args.limit) ∧ (∀ t ∈ batches, t.WellFormed) ∧
        ∀ tag, (tagRows tag batches).length = keyCount args.heuristics args.limit tag r.keys := by
    intro rounds batches last hy
    have hfits := fits_of_unfiltered ht globMatch hnew hclean hargs hy
    obtain ⟨rounds', batches', last', hy', hwell, hrows⟩ :=
      unfiltered_batches ht globMatch hnew hclean hargs hfits
    have hsame := ((hy _ (le_max_left rounds rounds')).unique (hy' _ (le_max_right rounds rounds'))).1
    obtain rfl : batches = batches' := List.map_injective_iff.mpr (fun _ _ h => Except.ok.inj h) hsame
    exact ⟨hfits, hwell, hrows⟩
  constructor
  · constructor
    · rintro ⟨rounds, batches, last, summary, hy, hs, hagree⟩
      obtain ⟨hfits, hwell, hrows⟩ := hrun hy
      obtain ⟨summary', hs', hiff, -⟩ := batches_validate hnew hclean hwell hrows
      cases hs.symm.trans hs'
      exact ⟨hfits, hiff.mp hagree⟩
    · rintro ⟨hfits, hsplits⟩
      obtain ⟨rounds, batches, last, hy, hwell, hrows⟩ :=
        unfiltered_batches ht globMatch hnew hclean hargs hfits
      obtain ⟨summary, hs, hiff, -⟩ := batches_validate hnew hclean hwell hrows
      exact ⟨rounds, batches, last, summary, hy, hs, hiff.mpr hsplits⟩
  · constructor
    · rintro ⟨rounds, batches, last, hy, hok⟩
      obtain ⟨hfits, hwell, hrows⟩ := hrun hy
      obtain ⟨-, -, -, hiff⟩ := batches_validate hnew hclean hwell hrows
      exact ⟨hfits, hiff.mp hok⟩
    · rintro ⟨hfits, hsplits⟩
      obtain ⟨rounds, batches, last, hy, hwell, hrows⟩ :=
        unfiltered_batches ht globMatch hnew hclean hargs hfits
      obtain ⟨-, -, -, hiff⟩ := batches_validate hnew hclean hwell hrows
      exact ⟨rounds, batches, last, hy, hiff.mpr hsplits⟩

/-- "REDIS0011", the sorted set "k" with the members "a" and "b" of score zero, and the end. -/
def geoFile : Bytes := magicRedis ++
  [48, 49, 49, 5, 1, 107, 2, 1, 97, 0, 0, 0, 0, 0, 0, 0, 0, 1, 98, 0, 0, 0, 0, 0, 0, 0, 0,
    255, 0, 0, 0, 0, 0, 0, 0, 0]

def geoReader : RdbReader :=
  { RdbReader.afterHeader ⟨geoFile.drop 10, crc64 0 (geoFile.take 10)⟩ ⟨.redis, 11⟩ with
    preambleByte := some rdbTypeZset2 }

def geoEntry : RdbEntry :=
  keyEntry 0 rdbTypeZset2 (none, none, none) [107]
    (.sortedSet [([97], ⟨0#64⟩), ([98], ⟨0#64⟩)]) none none

/-- `export --max-key-elements 1` with the defaults of the other arguments. -/
def geoArgs : ExportArgs :=
  ⟨none, none, none, Heuristic.all, false, some 1, 65536, none, none⟩

theorem geoReader_items : geoReader.withoutChunking.items.1 = [geoEntry].map .ok := by
  decide +kernel

/-- The export has no geo rows, the validation counts two, and so it fails. -/
theorem validate_rejects_export : RdbReader.new geoFile = .ok geoReader ∧ geoReader.Clean ∧
    geoArgs.Unfiltered ∧
    ∃ rounds batches last summary, (∀ n, rounds ≤ n →
        Yields (exportBatches checkedTryNew (fun _ _ => true) geoArgs.filter RdbReader.next n)
          ((ArrowBatcher.new geoArgs.config).process (geoArgs.reader geoReader)) (batches.map .ok)
          last) ∧
      summarizeEntries geoReader geoArgs.heuristics = .ok summary ∧
      (summary.totals.get? .geo).map TypeCount.rows = some 2 ∧
      parquetRows batches .geo = none ∧
      validate geoFile (exportedDir (metadataFromRdb geoReader.metadata geoArgs.heuristics) batches) ≠
        .ok () := by
  have hnew : RdbReader.new geoFile = .ok geoReader := by decide +kernel
  obtain ⟨hclean, hkeys⟩ := clean_of_items geoReader_items
  have hargs : geoArgs.Unfiltered := ⟨rfl, rfl, rfl, rfl⟩
  have hfits : geoArgs.config.Fits (geoReader.keyPieces geoArgs.limit) := by
    rw [← eachFits_iff_fits checkedTryNew_accepts, RdbReader.keyPieces, hkeys]
    decide +kernel
  obtain ⟨rounds, batches, last, hy, hbatches, hrows⟩ :=
    unfiltered_batches checkedTryNew_accepts (fun _ _ => true) hnew hclean hargs hfits
  obtain ⟨t, ⟨summary, hsummary, htotals⟩, hcounts⟩ := default_summary hnew hclean geoArgs.heuristics
  have hexport : keyCount geoArgs.heuristics geoArgs.limit .geo [geoEntry] = 0 := by decide +kernel
  have hzset : keyCount geoArgs.heuristics geoArgs.limit .sortedSet [geoEntry] = 2 := by
    decide +kernel
  have hdefault : keyCount geoArgs.heuristics (some defaultMaxKeyElements) .geo [geoEntry] = 2 := by
    decide +kernel
  have hgeo : (summary.totals.get? .geo).map TypeCount.rows = some 2 := by
    rw [htotals, summaryRows_eq hcounts, hkeys, hdefault]
    rfl
  have hnone : parquetRows batches .geo = none := by
    rw [parquetRows_eq hbatches hrows, hkeys, hexport]
    rfl
  have hne : batches ≠ [] := by
    rintro rfl
    have hlen := hrows .sortedSet
    rw [hkeys, hzset] at hlen
    cases hlen
  have hmeta : readParquetMetadata
      (exportedDir (metadataFromRdb geoReader.metadata geoArgs.heuristics) batches) =
      .ok ⟨(metadataFromRdb geoReader.metadata geoArgs.heuristics).contains rdbExportedByKey,
        geoArgs.heuristics⟩ := by
    simp [readParquetMetadata, exportedDir, hne, metadataFromRdb_heuristics,
      Heuristic.parseSet_formatSet]
  refine ⟨hnew, hclean, hargs, rounds, batches, last, summary, hy, hsummary, hgeo, hnone, ?_⟩
  rw [Ne, validate_ok_iff hnew hmeta hsummary]
  intro hall
  have hbad := hall .geo
  rw [hgeo] at hbad
  simp [exportedDir, hnone] at hbad

theorem validate_agrees_iff_list : ∃ rounds batches last, (∀ n, rounds ≤ n →
      Yields (exportBatches checkedTryNew (fun _ _ => true) geoArgs.filter RdbReader.next n)
        ((ArrowBatcher.new geoArgs.config).process (geoArgs.reader listReader)) (batches.map .ok)
        last) ∧
    validate listFile (exportedDir (metadataFromRdb listReader.metadata geoArgs.heuristics) batches) =
      .ok () := by
  obtain ⟨hnew, hclean, hkeys⟩ := listReader_clean
  have hfits : geoArgs.config.Fits (listReader.keyPieces geoArgs.limit) := by
    rw [← eachFits_iff_fits checkedTryNew_accepts, RdbReader.keyPieces, hkeys]
    decide +kernel
  refine (validate_agrees_iff checkedTryNew checkedTryNew_accepts (fun _ _ => true) listFile listReader
    hnew hclean geoArgs ⟨rfl, rfl, rfl, rfl⟩).2.mpr ⟨hfits, ?_⟩
  intro _ e he hg
  rw [hkeys] at he
  obtain rfl : e = listEntry := by simpa using he
  simp [isGeoEntry, listEntry, keyEntry] at hg

end ValkeyRdb
