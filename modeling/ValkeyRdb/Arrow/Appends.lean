import ValkeyRdb.Arrow.Builders

/-!
# The appends of a push

A push is a sequence of appends, one for each row of its entry. Without the offsets it
would come to `pushed`, which always has a result and whose effect is the sum of what the
appends do; the push has this result, or panics.
-/

namespace ValkeyRdb

open StateAction (Guarded zoom modify forM_flatMap forM_singleton)

/-! ### One append -/

/-- One call of `append`, with the cells of the type-specific columns. -/
structure RowAppend where
  numElements : Nat
  typeStr : String
  bytes : Nat
  cells : List Cell

def commonCells (entry : RdbEntry) (numElements : Nat) (typeStr : String) : Row :=
  [.uint32 entry.db, .binary entry.key, .utf8 typeStr, Cell.ofOption .int64 entry.expiryMs,
    Cell.ofOption .uint64 entry.lruIdleSecs, Cell.ofOption .uint8 entry.lfuFrequency,
    .utf8 entry.encodingName, .uint64 numElements]

def RowAppend.row (entry : RdbEntry) (a : RowAppend) : Row :=
  commonCells entry a.numElements a.typeStr ++ a.cells

/-- The common columns after the append, whatever their offsets can say. -/
def CommonColumnsBuilder.appended (b : CommonColumnsBuilder) (entry : RdbEntry) (numElements : Nat)
    (typeStr : String) (typeSpecificBytes : Nat) : CommonColumnsBuilder where
  db := b.db ++ [.uint32 entry.db]
  key := b.key ++ [.binary entry.key]
  typeCol := b.typeCol ++ [.utf8 typeStr]
  expiryMs := b.expiryMs ++ [Cell.ofOption .int64 entry.expiryMs]
  lruIdleSecs := b.lruIdleSecs ++ [Cell.ofOption .uint64 entry.lruIdleSecs]
  lfuFrequency := b.lfuFrequency ++ [Cell.ofOption .uint8 entry.lfuFrequency]
  encoding := b.encoding ++ [.utf8 entry.encodingName]
  numElements := b.numElements ++ [.uint64 numElements]
  len := b.len + 1
  dataBytes := b.dataBytes + (entry.key.length + typeSpecificBytes)

namespace BatchBuilder

/-- The builder after the append, whatever its offsets can say. -/
def appended (b : BatchBuilder) (entry : RdbEntry) (a : RowAppend) : BatchBuilder where
  common := b.common.appended entry a.numElements a.typeStr a.bytes
  columns := addRow b.columns a.cells

/-- No column holds more than its offsets can say. -/
def OffsetsFit (b : BatchBuilder) : Prop := ∀ column ∈ b.allColumns, columnBytes column ≤ maxOffset

instance (b : BatchBuilder) : Decidable b.OffsetsFit :=
  inferInstanceAs (Decidable (∀ column ∈ b.allColumns, columnBytes column ≤ maxOffset))

def appendRow (entry : RdbEntry) (a : RowAppend) : StateAction BatchBuilder Fault Unit :=
  append entry a.numElements a.typeStr a.bytes a.cells

end BatchBuilder

theorem appendCell_guarded (cell : Cell) :
    Guarded (fun _ => True) Fault.panic (fun column => columnBytes (column ++ [cell]) ≤ maxOffset)
      (· ++ [cell]) (appendCell cell) := by
  intro column _
  have hbytes : columnBytes (column ++ [cell]) = columnBytes column + cell.varBytes := by
    simp [columnBytes]
  dsimp only
  rw [hbytes]
  unfold appendCell
  refine ⟨trivial, fun hfits => ?_, fun hover => ?_⟩
  · rw [if_pos hfits]
  · rw [if_neg hover]
    exact ⟨column, rfl⟩

theorem appendCells_guarded (cells : List Cell) :
    Guarded (fun columns => columns.length = cells.length) Fault.panic
      (fun columns => ∀ column ∈ addRow columns cells, columnBytes column ≤ maxOffset)
      (addRow · cells) (appendCells cells) := by
  induction cells with
  | nil =>
    intro columns hw
    obtain rfl := List.eq_nil_of_length_eq_zero hw
    exact ⟨rfl, fun _ => rfl, fun hover => absurd (fun column hc => by cases hc) hover⟩
  | cons cell cells ih =>
    intro columns hw
    cases columns with
    | nil => cases hw
    | cons column columns =>
      obtain ⟨hw', hrest, hrestError⟩ := ih columns (Nat.succ.inj hw)
      obtain ⟨-, hone, honeError⟩ := appendCell_guarded cell column trivial
      have hfits : (∀ c ∈ addRow (column :: columns) (cell :: cells), columnBytes c ≤ maxOffset) ↔
          columnBytes (column ++ [cell]) ≤ maxOffset ∧
            ∀ c ∈ addRow columns cells, columnBytes c ≤ maxOffset := by
        rw [addRow_cons]
        exact List.forall_mem_cons
      refine ⟨congrArg Nat.succ hw', fun h => ?_, fun h => ?_⟩
      · obtain ⟨hfirst, hothers⟩ := hfits.mp h
        unfold appendCells
        rw [hone hfirst, hrest hothers]
        rfl
      · unfold appendCells
        by_cases hfirst : columnBytes (column ++ [cell]) ≤ maxOffset
        · obtain ⟨columns', herror⟩ := hrestError fun hothers => h (hfits.mpr ⟨hfirst, hothers⟩)
          rw [hone hfirst, herror]
          exact ⟨_, rfl⟩
        · obtain ⟨column', herror⟩ := honeError hfirst
          rw [herror]
          exact ⟨_, rfl⟩

theorem common_append_guarded (entry : RdbEntry) (n : Nat) (typeStr : String) (bytes : Nat) :
    Guarded (fun _ => True) Fault.panic
      (fun b => ∀ column ∈ (b.appended entry n typeStr bytes).columns, columnBytes column ≤ maxOffset)
      (·.appended entry n typeStr bytes) (CommonColumnsBuilder.append entry n typeStr bytes) := by
  have hcell : ∀ (view : CommonColumnsBuilder → List Cell)
      (put : List Cell → CommonColumnsBuilder → CommonColumnsBuilder) (cell : Cell),
      Guarded (fun _ => True) Fault.panic (fun b => columnBytes (view b ++ [cell]) ≤ maxOffset)
        (fun b => put (view b ++ [cell]) b) (zoom view put (appendCell cell)) :=
    fun view put cell => (appendCell_guarded cell).zoom (fun _ _ => trivial) fun _ _ _ _ => trivial
  have hcounters := Guarded.modify (I := fun _ : CommonColumnsBuilder => True) (e := Fault.panic)
    (f := fun b => { b with
      len := b.len + 1
      dataBytes := b.dataBytes + (entry.key.length + bytes) }) fun _ _ => trivial
  refine ((hcell _ _ _).bind ((hcell _ _ _).bind ((hcell _ _ _).bind ((hcell _ _ _).bind
    ((hcell _ _ _).bind ((hcell _ _ _).bind ((hcell _ _ _).bind ((hcell _ _ _).bind
      hcounters)))))))).congr ?_ (fun _ _ => rfl)
  intro b _
  simp [CommonColumnsBuilder.columns, CommonColumnsBuilder.appended]

theorem appendRow_guarded (entry : RdbEntry) {width : Nat} {a : RowAppend}
    (hw : a.cells.length = width) :
    Guarded (fun b => b.columns.length = width) Fault.panic (fun b => (b.appended entry a).OffsetsFit)
      (·.appended entry a) (BatchBuilder.appendRow entry a) := by
  subst hw
  have hcommon : Guarded (fun b : BatchBuilder => b.columns.length = a.cells.length) Fault.panic _ _
      (zoom BatchBuilder.common (fun c b => { b with common := c }) _) :=
    (common_append_guarded entry a.numElements a.typeStr a.bytes).zoom (fun _ _ => trivial)
      fun _ _ hb _ => hb
  have hcells : Guarded (fun b : BatchBuilder => b.columns.length = a.cells.length) Fault.panic _ _
      (zoom BatchBuilder.columns (fun c b => { b with columns := c }) _) :=
    (appendCells_guarded a.cells).zoom (fun _ hb => hb) fun _ _ _ hcolumns => hcolumns
  refine (hcommon.bind hcells).congr (fun b _ => ?_) fun _ _ => rfl
  unfold BatchBuilder.OffsetsFit BatchBuilder.allColumns
  exact List.forall_mem_append.symm

/-! ### The appends of each builder -/

/-- One append for each element, or that of the sentinel row. -/
def collectionAppends {α : Type} (typeStr : String) (numElements width : Nat) (bytes : α → Nat)
    (cells : α → List Cell) (xs : List α) : List RowAppend :=
  if xs.isEmpty then [⟨0, typeStr, 0, List.replicate width .null⟩]
  else xs.map fun x => ⟨numElements, typeStr, bytes x, cells x⟩

def streamEntryAppends (numElements : Nat) (e : StreamEntry) : List RowAppend :=
  if e.fields.isEmpty then [⟨numElements, "stream", e.id.utf8ByteSize, [.utf8 e.id, .null, .null]⟩]
  else e.fields.map fun fv =>
    ⟨numElements, "stream", e.id.utf8ByteSize + fv.1.length + fv.2.length,
      [.utf8 e.id, .binary fv.1, .binary fv.2]⟩

def streamAppends (data : StreamData) : List RowAppend :=
  let numElements := if 0 < data.length then data.length else data.entries.length
  if data.entries.isEmpty then [⟨numElements, "stream", 0, [.null, .null, .null]⟩]
  else data.entries.flatMap (streamEntryAppends numElements)

def moduleCells (data : ModuleData) (index : Nat) (opcode : String) (value : List Cell) :
    List Cell :=
  [.utf8 (utf8Text data.moduleName), .uint32 data.moduleVersion, .uint32 index, .utf8 opcode] ++
    value

def moduleAppends (entry : RdbEntry) (data : ModuleData) : List RowAppend :=
  if data.values.isEmpty then
    [⟨0, "module", ModuleBatchBuilder.emptyModuleRowBytes data,
      moduleCells data 0 ModuleBatchBuilder.emptyModuleOpcode [.null, .null, .null]⟩]
  else data.values.zipIdx.map fun v =>
    ⟨entry.totalElements.getD data.values.length, "module",
      ModuleBatchBuilder.moduleRowBytes data v.1,
      moduleCells data (v.2 % 2 ^ 32) (ModuleBatchBuilder.moduleOpcode v.1)
        (ModuleBatchBuilder.valueCells v.1)⟩

/-- The appends of the push of `entry` to the builder of a tag, in order. -/
def TypeTag.appends (tag : TypeTag) (entry : RdbEntry) : List RowAppend :=
  let n (length : Nat) := entry.totalElements.getD length
  match tag, entry.value with
  | .string, .string v => [⟨1, entry.typeName, v.length, [.binary v]⟩]
  | .list, .list elements =>
    collectionAppends entry.typeName (n elements.length) 2 (fun e => e.1.length)
      (fun e => [.uint64 (satAdd64 (entry.elementOffset.getD 0) e.2), .binary e.1]) elements.zipIdx
  | .set, .set members =>
    collectionAppends entry.typeName (n members.length) 1 List.length (fun m => [.binary m]) members
  | .sortedSet, .sortedSet pairs =>
    collectionAppends entry.typeName (n pairs.length) 2 (fun p => p.1.length + 8)
      (fun p => [.binary p.1, .float64 p.2]) pairs
  | .hash, .hash fields =>
    collectionAppends entry.typeName (n fields.length) 3 (fun f => f.field.length + f.value.length)
      (fun f => [.binary f.field, .binary f.value, Cell.ofOption .int64 f.expiryMs]) fields
  | .geo, .sortedSet pairs =>
    collectionAppends "geo" (n pairs.length) 4 (fun p => p.1.length + 24)
      (fun p => [.binary p.1, Cell.ofOption (fun d => .float64 d.1) (geohashDecode p.2),
        Cell.ofOption (fun d => .float64 d.2) (geohashDecode p.2), .float64 p.2]) pairs
  | .hyperLogLog, .string v =>
    [⟨1, "hyperloglog", v.length,
      [.utf8 (hllEncoding v), .int64 (hllCachedCardinality v), .binary v]⟩]
  | .module, .module data => moduleAppends entry data
  | .stream, .stream data => streamAppends data
  | _, _ => []

/-! ### A push is its appends -/

section Push

variable (entry : RdbEntry)

theorem appends_collection {α : Type} (typeStr : String) (n width : Nat) (bytes : α → Nat)
    (cells : α → List Cell) (xs : List α) :
    forM (collectionAppends typeStr n width bytes cells xs) (BatchBuilder.appendRow entry) =
      if xs.isEmpty then BatchBuilder.append entry 0 typeStr 0 (List.replicate width .null)
      else forM xs fun x => BatchBuilder.append entry n typeStr (bytes x) (cells x) := by
  unfold collectionAppends
  split
  · exact forM_singleton _ _
  · exact List.forM_map

theorem appends_streamEntry (n : Nat) (e : StreamEntry) :
    forM (streamEntryAppends n e) (BatchBuilder.appendRow entry) =
      StreamBatchBuilder.pushEntry entry n e := by
  unfold streamEntryAppends StreamBatchBuilder.pushEntry
  split
  · exact forM_singleton _ _
  · exact List.forM_map

theorem push_string_eq : StringBatchBuilder.push entry =
    forM (TypeTag.string.appends entry) (BatchBuilder.appendRow entry) := by
  unfold StringBatchBuilder.push TypeTag.appends
  cases entry.value with
  | string v => exact (forM_singleton _ _).symm
  | _ => rfl

theorem push_list_eq : ListBatchBuilder.push entry =
    forM (TypeTag.list.appends entry) (BatchBuilder.appendRow entry) := by
  unfold ListBatchBuilder.push TypeTag.appends
  cases entry.value with
  | list elements =>
    have hempty : elements.zipIdx.isEmpty = elements.isEmpty := by cases elements <;> rfl
    dsimp only
    rw [appends_collection, hempty]
    rfl
  | _ => rfl

theorem push_set_eq : SetBatchBuilder.push entry =
    forM (TypeTag.set.appends entry) (BatchBuilder.appendRow entry) := by
  unfold SetBatchBuilder.push TypeTag.appends
  cases entry.value with
  | set members =>
    dsimp only
    rw [appends_collection]
    rfl
  | _ => rfl

theorem push_sortedSet_eq : SortedSetBatchBuilder.push entry =
    forM (TypeTag.sortedSet.appends entry) (BatchBuilder.appendRow entry) := by
  unfold SortedSetBatchBuilder.push TypeTag.appends
  cases entry.value with
  | sortedSet pairs =>
    dsimp only
    rw [appends_collection]
    rfl
  | _ => rfl

theorem push_hash_eq : HashBatchBuilder.push entry =
    forM (TypeTag.hash.appends entry) (BatchBuilder.appendRow entry) := by
  unfold HashBatchBuilder.push TypeTag.appends
  cases entry.value with
  | hash fields =>
    dsimp only
    rw [appends_collection]
    rfl
  | _ => rfl

theorem push_geo_eq : GeoBatchBuilder.push entry =
    forM (TypeTag.geo.appends entry) (BatchBuilder.appendRow entry) := by
  unfold GeoBatchBuilder.push TypeTag.appends
  cases entry.value with
  | sortedSet pairs =>
    dsimp only
    rw [appends_collection]
    rfl
  | _ => rfl

theorem push_hll_eq : HllBatchBuilder.push entry =
    forM (TypeTag.hyperLogLog.appends entry) (BatchBuilder.appendRow entry) := by
  unfold HllBatchBuilder.push TypeTag.appends
  cases entry.value with
  | string v => exact (forM_singleton _ _).symm
  | _ => rfl

theorem push_stream_eq : StreamBatchBuilder.push entry =
    forM (TypeTag.stream.appends entry) (BatchBuilder.appendRow entry) := by
  unfold StreamBatchBuilder.push TypeTag.appends
  cases entry.value with
  | stream data =>
    simp only [streamAppends]
    split
    · exact (forM_singleton _ _).symm
    · rw [forM_flatMap]
      simp only [appends_streamEntry]
  | _ => rfl

theorem push_module_eq : ModuleBatchBuilder.push entry =
    forM (TypeTag.module.appends entry) (BatchBuilder.appendRow entry) := by
  unfold ModuleBatchBuilder.push TypeTag.appends
  cases entry.value with
  | module data =>
    simp only [moduleAppends]
    split
    · exact (forM_singleton _ _).symm
    · rw [List.forM_map]
      rfl
  | _ => rfl

theorem push_eq_appends (tag : TypeTag) :
    tag.push entry = forM (tag.appends entry) (BatchBuilder.appendRow entry) := by
  cases tag with
  | string => exact push_string_eq entry
  | list => exact push_list_eq entry
  | set => exact push_set_eq entry
  | sortedSet => exact push_sortedSet_eq entry
  | hash => exact push_hash_eq entry
  | geo => exact push_geo_eq entry
  | hyperLogLog => exact push_hll_eq entry
  | module => exact push_module_eq entry
  | stream => exact push_stream_eq entry

end Push

/-! ### What the appends come to -/

/-- The builder after some appends, whatever its offsets can say. -/
def BatchBuilder.appendRows (b : BatchBuilder) (entry : RdbEntry) (appends : List RowAppend) :
    BatchBuilder :=
  appends.foldl (fun b a => b.appended entry a) b

/-- The builder after the push of `entry`, whatever its offsets can say. -/
def TypeTag.pushed (tag : TypeTag) (b : BatchBuilder) (entry : RdbEntry) : BatchBuilder :=
  b.appendRows entry (tag.appends entry)

section AppendRows

variable (b : BatchBuilder) (entry : RdbEntry) (appends : List RowAppend)

theorem appendRows_dataBytes : (b.appendRows entry appends).dataBytes =
    b.dataBytes + (appends.map fun a => entry.key.length + a.bytes).sum := by
  induction appends generalizing b with
  | nil => rfl
  | cons a as ih =>
    have hstep : (b.appended entry a).dataBytes = b.dataBytes + (entry.key.length + a.bytes) := rfl
    have hrest := ih (b.appended entry a)
    rw [hstep] at hrest
    rw [List.map_cons, List.sum_cons]
    exact hrest.trans (by omega)

end AppendRows

/-- The bytes that a push counts for the flush thresholds. -/
def TypeTag.accounted (tag : TypeTag) (entry : RdbEntry) : Nat :=
  ((tag.appends entry).map fun a => entry.key.length + a.bytes).sum

theorem pushed_dataBytes (tag : TypeTag) (b : BatchBuilder) (entry : RdbEntry) :
    (tag.pushed b entry).dataBytes = b.dataBytes + tag.accounted entry :=
  appendRows_dataBytes b entry (tag.appends entry)

end ValkeyRdb
