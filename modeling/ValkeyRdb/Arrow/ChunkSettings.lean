import ValkeyRdb.Arrow.Offsets
import ValkeyRdb.Arrow.PieceRows

/-!
# Exports under a chunk setting

The batches of a file under any chunk setting hold, key by key, the rows of the pieces of
its keys, where the builders have room for them.
-/

namespace ValkeyRdb

/-- The entries of a file without chunking, one for each key. -/
def RdbReader.keys (r : RdbReader) : List RdbEntry := entriesOf r.withoutChunking.items.1

/-- The file is read to its end: no error ends the iteration. -/
def RdbReader.Clean (r : RdbReader) : Prop := ∀ x ∈ r.withoutChunking.items.1, ¬Terminal x

/-- The entries of a file under a chunk setting. -/
def RdbReader.keyPieces (r : RdbReader) (limit : Option ℕ+) : List RdbEntry :=
  r.keys.flatMap (·.pieces limit)

theorem clean_of_items {r : RdbReader} {es : List RdbEntry}
    (h : r.withoutChunking.items.1 = es.map .ok) : r.Clean ∧ r.keys = es := by
  unfold RdbReader.Clean RdbReader.keys entriesOf
  rw [h]
  constructor
  · intro x hx
    obtain ⟨e, -, rfl⟩ := List.mem_map.mp hx
    exact id
  · simp [List.filterMap_map, Function.comp_def, Except.toOption]

theorem readable_of_not_terminal {items : List (Res RdbEntry)} (h : ∀ x ∈ items, ¬Terminal x) :
    Readable items := by
  unfold Readable faultsOf
  rw [List.filterMap_eq_nil_iff]
  intro x hx
  have hterm := h x hx
  rcases x with f | e
  · rcases unknownType_cases f with ⟨t, rfl⟩ | hu
    · rfl
    · exfalso
      apply hterm
      cases f with
      | error err =>
        cases err with
        | unknownType t => cases hu
        | _ => trivial
      | _ => trivial
  · rfl

section Pieces

variable (limit : Option ℕ+)

theorem entriesOf_pieceItems (items : List (Res RdbEntry)) :
    entriesOf (items.flatMap (pieceItems limit)) = (entriesOf items).flatMap (·.pieces limit) := by
  induction items with
  | nil => rfl
  | cons x xs ih =>
    unfold entriesOf at ih ⊢
    rw [List.flatMap_cons, List.filterMap_append, ih]
    cases x with
    | error f => rfl
    | ok e => simp [pieceItems, List.filterMap_map, Function.comp_def, Except.toOption]

theorem faultsOf_pieceItems (items : List (Res RdbEntry)) :
    faultsOf (items.flatMap (pieceItems limit)) = faultsOf items := by
  induction items with
  | nil => rfl
  | cons x xs ih =>
    unfold faultsOf at ih ⊢
    rw [List.flatMap_cons, List.filterMap_append, ih]
    cases x with
    | error f => simp [pieceItems, List.filterMap_cons]; split <;> rfl
    | ok e => simp [pieceItems, List.filterMap_map]

end Pieces

/-- The rows that a key contributes to a tag: those of its pieces that are not dropped. -/
def BatcherConfig.keyRows (config : BatcherConfig) (limit : Option ℕ+) (tag : TypeTag)
    (e : RdbEntry) : List Row :=
  (e.pieces limit).flatMap (config.taken tag)

section Export

variable {ε : Type} {tryNew : TryNew ε} {input : Bytes} {r : RdbReader}

theorem keys_whole (hnew : RdbReader.new input = .ok r) (hclean : r.Clean) :
    ∀ e ∈ r.keys, e.Whole := by
  have hy := (Reachable.new hnew).withoutChunking.yields
  have hunchunked : r.withoutChunking.Unchunked := ⟨rfl, by rw [new_eq hnew]; rfl⟩
  intro e he
  unfold RdbReader.keys entriesOf at he
  obtain ⟨x, hx, hxe⟩ := List.mem_filterMap.mp he
  rcases x with f | e'
  · cases hxe
  · cases hxe
    exact whole_of_yields hunchunked hy hclean _ hx

theorem configured_batches (ht : TryNewAccepts tryNew) (hnew : RdbReader.new input = .ok r)
    (hclean : r.Clean) (limit : Option ℕ+) {config : BatcherConfig}
    (hfits : config.Fits (r.keyPieces limit)) :
    ∃ rounds batches last, (∀ n, rounds ≤ n → Yields (BatchIterator.next tryNew RdbReader.next n)
        ((ArrowBatcher.new config).process (r.configure limit)) (batches.map .ok) last) ∧
      (∀ t ∈ batches, t.WellFormed) ∧
      ∀ tag, tagRows tag batches = r.keys.flatMap (config.keyRows limit tag) := by
  obtain ⟨r', hy⟩ := configured_yields hnew hclean limit
  have hread : Readable (r.withoutChunking.items.1.flatMap (pieceItems limit)) := by
    rw [Readable, faultsOf_pieceItems]
    exact readable_of_not_terminal hclean
  have hentries : entriesOf (r.withoutChunking.items.1.flatMap (pieceItems limit)) =
      r.keyPieces limit := entriesOf_pieceItems limit _
  obtain ⟨batches, last, hys, hbatches, hrows⟩ :=
    batches_of_readable ht hy hread (hentries ▸ hfits)
  refine ⟨_, batches, last, hys, hbatches, fun tag => ?_⟩
  rw [hrows, hentries, RdbReader.keyPieces, List.flatMap_assoc]
  rfl

/-- An export that yields batches only has had room for the pieces of the keys. -/
theorem fits_of_configured (ht : TryNewAccepts tryNew) (hnew : RdbReader.new input = .ok r)
    (hclean : r.Clean) (limit : Option ℕ+) {config : BatcherConfig} {rounds : Nat}
    {batches : List TypedBatch} {last : BatchIterator RdbReader}
    (hy : ∀ n, rounds ≤ n → Yields (BatchIterator.next tryNew RdbReader.next n)
      ((ArrowBatcher.new config).process (r.configure limit)) (batches.map .ok) last) :
    config.Fits (r.keyPieces limit) := by
  obtain ⟨r', hitems⟩ := configured_yields hnew hclean limit
  have hentries : entriesOf (r.withoutChunking.items.1.flatMap (pieceItems limit)) =
      r.keyPieces limit := entriesOf_pieceItems limit _
  rw [← hentries]
  exact fits_of_yields ht hitems (le_max_right rounds _) (hy _ (le_max_left _ _))

theorem keyRows_unlimited {config : BatcherConfig} (hmax : config.maxEntryBytes = none)
    (limit : Option ℕ+) {tag : TypeTag} (hgeo : tag ≠ .geo) {e : RdbEntry} (hw : e.Whole) :
    config.keyRows limit tag e = rowsUnder config.heuristics tag e := by
  unfold BatcherConfig.keyRows
  rw [taken_unlimited hmax]
  exact pieces_rows config.heuristics hgeo hw limit

/-- A list key has one row for each element, with its index and the size of the list; an
empty list has a row without an index. -/
theorem rowsUnder_list (heuristics : Finset Heuristic) {e : RdbEntry} (hw : e.Whole)
    {elements : List Bytes} (hv : e.value = .list elements)
    (hlen : elements.length ≤ maxSliceLen) :
    rowsUnder heuristics .list e =
      if elements = [] then [commonCells e 0 e.typeName ++ [.null, .null]]
      else elements.zipIdx.map fun x =>
        commonCells e elements.length e.typeName ++ [.uint64 x.2, .binary x.1] := by
  have hp : typeTagFor e = some .list := by simp [typeTagFor, hv]
  have hcells : listCells 0 elements = elements.zipIdx.map fun x => [.uint64 x.2, .binary x.1] := by
    unfold listCells
    apply List.map_congr_left
    rintro ⟨x, i⟩ hx
    have hi : i < 2 ^ 64 := by
      have hlt := List.snd_lt_of_mem_zipIdx hx
      unfold maxSliceLen at hlen
      omega
    simp [satAdd64]
    omega
  rw [rowsUnder_of_ne_geo (by decide) hp, if_pos rfl]
  unfold TypeTag.entryRows
  simp only [hv, hw.1, hw.2, Option.getD_none, hcells, collectionRows]
  cases elements with
  | nil => rfl
  | cons x xs => simp

end Export

/-- Two exports of a file under different chunk settings and thresholds have the same rows
under every tag but `Geo`, those of its keys, exactly when both have room for the pieces
of the keys: otherwise one of them panics. -/
theorem chunk_setting_invisible {ε : Type} (tryNew : TryNew ε) (ht : TryNewAccepts tryNew)
    (input : Bytes) (r : RdbReader) (hnew : RdbReader.new input = .ok r) (hclean : r.Clean)
    (heuristics : Finset Heuristic) (limit limit' : Option ℕ+) (config config' : BatcherConfig)
    (hmax : config.maxEntryBytes = none) (hmax' : config'.maxEntryBytes = none)
    (hh : config.heuristics = heuristics) (hh' : config'.heuristics = heuristics) :
    (∃ rounds batches batches' last last', (∀ n, rounds ≤ n →
        Yields (BatchIterator.next tryNew RdbReader.next n)
          ((ArrowBatcher.new config).process (r.configure limit)) (batches.map .ok) last ∧
        Yields (BatchIterator.next tryNew RdbReader.next n)
          ((ArrowBatcher.new config').process (r.configure limit')) (batches'.map .ok) last') ∧
      (∀ tag, tag ≠ .geo → tagRows tag batches = tagRows tag batches' ∧
        tagRows tag batches = r.keys.flatMap (rowsUnder heuristics tag)) ∧
      ∀ e ∈ r.keys, ∀ elements, e.value = .list elements → elements.length ≤ maxSliceLen →
        rowsUnder heuristics .list e =
          if elements = [] then [commonCells e 0 e.typeName ++ [.null, .null]]
          else elements.zipIdx.map fun x =>
            commonCells e elements.length e.typeName ++ [.uint64 x.2, .binary x.1]) ↔
      config.Fits (r.keyPieces limit) ∧ config'.Fits (r.keyPieces limit') := by
  constructor
  · rintro ⟨rounds, batches, batches', last, last', hy, -⟩
    exact ⟨fits_of_configured ht hnew hclean limit fun n hn => (hy n hn).1,
      fits_of_configured ht hnew hclean limit' fun n hn => (hy n hn).2⟩
  rintro ⟨hfits, hfits'⟩
  have hwhole := keys_whole hnew hclean
  obtain ⟨n₁, batches, last, hy, -, hrows⟩ := configured_batches ht hnew hclean limit hfits
  obtain ⟨n₂, batches', last', hy', -, hrows'⟩ := configured_batches ht hnew hclean limit' hfits'
  have hkeys : ∀ (c : BatcherConfig) l tag, c.maxEntryBytes = none → c.heuristics = heuristics →
      tag ≠ .geo → r.keys.flatMap (c.keyRows l tag) = r.keys.flatMap (rowsUnder heuristics tag) := by
    intro c l tag hc hch hgeo
    rw [List.flatMap_def, List.flatMap_def]
    congr 1
    apply List.map_congr_left
    intro e he
    rw [keyRows_unlimited hc l hgeo (hwhole e he), hch]
  refine ⟨max n₁ n₂, batches, batches', last, last', fun n hn => ⟨hy n ?_, hy' n ?_⟩,
    fun tag hgeo => ⟨?_, ?_⟩, ?_⟩
  · exact le_trans (le_max_left _ _) hn
  · exact le_trans (le_max_right _ _) hn
  · rw [hrows, hrows', hkeys config limit tag hmax hh hgeo, hkeys config' limit' tag hmax' hh' hgeo]
  · rw [hrows, hkeys config limit tag hmax hh hgeo]
  · intro e he elements hv hlen
    exact rowsUnder_list heuristics (hwhole e he) hv hlen

/-! ### A chunk setting that matters -/

/-- The chunk with the element at place `i` of the list. -/
def fourPiece (key : Bytes) (i : Nat) : RdbEntry :=
  ⟨0, key, .list [[]], rdbTypeList, none, none, none, some 4, some i⟩

theorem fourEntry_pieces (key : Bytes) :
    (fourEntry key).pieces (some 1) =
      [fourPiece key 0, fourPiece key 1, fourPiece key 2, fourPiece key 3] := by
  have hcount : (fourEntry key).value.elementCount = 4 := rfl
  have hmany : (fourEntry key).Splits 1 := ⟨rfl, show 1 < 4 by decide⟩
  unfold RdbEntry.pieces
  refine (if_pos hmany).trans ?_
  rw [hcount]
  rfl

theorem fourPiece_accounted (key : Bytes) (i : Nat) :
    TypeTag.list.groupAccounted [fourPiece key i] = key.length := rfl

theorem fourPiece_addedBytes (key : Bytes) (i : Nat) :
    TypeTag.list.addedBytes (fourPiece key i) = [0, 1 * key.length, 4, 0, 0, 0, 10, 0, 0, 0] := rfl

/-- With the default thresholds each chunk is a batch of its own, which has room for one row
with the longest key. -/
theorem widePieces_fit : BatcherConfig.default.Fits ((fourEntry wideKey).pieces (some 1)) := by
  have hlen : wideKey.length = maxAllocBytes := List.length_replicate
  have hpieces : ∀ entry ∈ (fourEntry wideKey).pieces (some 1), ∃ i, entry = fourPiece wideKey i := by
    simp [fourEntry_pieces]
  refine fits_of_reached fun entry he tag htag => ?_
  obtain ⟨i, rfl⟩ := hpieces entry he
  have htags : tag ∈ [TypeTag.list] := htag
  obtain rfl := List.mem_singleton.mp htags
  constructor
  · right
    rw [fourPiece_accounted, hlen]
    decide
  · rw [fourPiece_addedBytes, hlen]
    decide

/-- The list of four empty elements under the longest key: four rows with one element a
chunk, and a panic under the default limit. -/
theorem chunk_setting_visible : ∃ r,
    RdbReader.new (wideFile.body ++ List.replicate 8 0) = .ok r ∧ r.Clean ∧
    (∃ rounds batches last, (∀ n, rounds ≤ n →
      Yields (BatchIterator.next checkedTryNew RdbReader.next n)
        ((ArrowBatcher.new BatcherConfig.default).process (r.configure (some 1)))
        (batches.map .ok) last) ∧ (tagRows .list batches).length = 4) ∧
    ¬ ∃ (rounds : Nat) (batches : List TypedBatch) (last : BatchIterator RdbReader),
      ∀ n, rounds ≤ n → Yields (BatchIterator.next checkedTryNew RdbReader.next n)
        ((ArrowBatcher.new BatcherConfig.default).process
          (r.configure (some defaultMaxKeyElements))) (batches.map .ok) last := by
  obtain ⟨r, hr, -, hitems⟩ := wideFile_reads
  obtain ⟨hclean, hkeys⟩ := clean_of_items hitems
  have hone : r.keyPieces (some 1) = (fourEntry wideKey).pieces (some 1) := by
    rw [RdbReader.keyPieces, hkeys, List.flatMap_singleton]
  have hdefault : r.keyPieces (some defaultMaxKeyElements) = [fourEntry wideKey] := by
    rw [RdbReader.keyPieces, hkeys, List.flatMap_singleton, fourEntry_whole]
  refine ⟨r, hr, hclean, ?_, ?_⟩
  · obtain ⟨rounds, batches, last, hy, -, hrows⟩ := configured_batches checkedTryNew_accepts hr hclean
      (some 1) (hone ▸ widePieces_fit)
    refine ⟨rounds, batches, last, hy, ?_⟩
    rw [hrows, hkeys, List.flatMap_singleton, BatcherConfig.keyRows, fourEntry_pieces]
    rfl
  · rintro ⟨rounds, batches, last, hy⟩
    have hfits := fits_of_configured checkedTryNew_accepts hr hclean _ hy
    rw [hdefault] at hfits
    exact wideEntry_overflows rfl [] hfits

theorem listReader_clean : RdbReader.new listFile = .ok listReader ∧ listReader.Clean ∧
    listReader.keys = [listEntry] := by
  have hitems : listReader.withoutChunking.items.1 = [listEntry].map .ok := by decide +kernel
  exact ⟨by decide +kernel, clean_of_items hitems⟩

theorem chunk_setting_invisible_list : ∃ rounds batches batches' last last',
    (∀ n, rounds ≤ n →
      Yields (BatchIterator.next checkedTryNew RdbReader.next n)
        ((ArrowBatcher.new BatcherConfig.default).process (listReader.configure (some 2)))
        (batches.map .ok) last ∧
      Yields (BatchIterator.next checkedTryNew RdbReader.next n)
        ((ArrowBatcher.new BatcherConfig.default).process (listReader.configure none))
        (batches'.map .ok) last') ∧
    tagRows .list batches = tagRows .list batches' := by
  obtain ⟨hnew, hclean, hkeys⟩ := listReader_clean
  have hfits : ∀ limit ∈ [some 2, none], BatcherConfig.default.Fits (listReader.keyPieces limit) := by
    intro limit hlimit
    rw [← eachFits_iff_fits checkedTryNew_accepts, RdbReader.keyPieces, hkeys]
    revert limit
    decide +kernel
  obtain ⟨rounds, batches, batches', last, last', hy, hrows, -⟩ := (chunk_setting_invisible
    checkedTryNew checkedTryNew_accepts listFile listReader hnew hclean Heuristic.all (some 2) none
    BatcherConfig.default BatcherConfig.default rfl rfl rfl rfl).mpr
    ⟨hfits (some 2) (by simp), hfits none (by simp)⟩
  exact ⟨rounds, batches, batches', last, last', hy, (hrows .list (by decide)).1⟩

end ValkeyRdb
