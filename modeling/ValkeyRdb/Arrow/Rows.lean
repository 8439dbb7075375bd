import ValkeyRdb.Arrow.Appends

/-!
# The rows of an entry

What a builder stands for is the list of its rows. A push adds the rows of its entry,
which `entryRows` gives without any builder, and the row count agrees with
`expectedRowCount`.
-/

namespace ValkeyRdb

/-! ### The rows that an entry contributes to a tag -/

/-- One row for each element; one sentinel row of nulls for an empty collection. -/
def collectionRows (entry : RdbEntry) (typeStr : String) (numElements width : Nat)
    (cells : List (List Cell)) : List Row :=
  if cells.isEmpty then [commonCells entry 0 typeStr ++ List.replicate width .null]
  else cells.map (commonCells entry numElements typeStr ++ ·)

def listCells (offset : Nat) (elements : List Bytes) : List (List Cell) :=
  elements.zipIdx.map fun e => [.uint64 (satAdd64 offset e.2), .binary e.1]

def setCells (members : List Bytes) : List (List Cell) := members.map fun m => [.binary m]

def sortedSetCells (pairs : List (Bytes × F64)) : List (List Cell) :=
  pairs.map fun p => [.binary p.1, .float64 p.2]

def hashCells (fields : List HashField) : List (List Cell) :=
  fields.map fun f => [.binary f.field, .binary f.value, Cell.ofOption .int64 f.expiryMs]

def geoCells (pairs : List (Bytes × F64)) : List (List Cell) :=
  pairs.map fun p =>
    [.binary p.1, Cell.ofOption (fun d => .float64 d.1) (geohashDecode p.2),
      Cell.ofOption (fun d => .float64 d.2) (geohashDecode p.2), .float64 p.2]

def streamEntryCells (e : StreamEntry) : List (List Cell) :=
  if e.fields.isEmpty then [[.utf8 e.id, .null, .null]]
  else e.fields.map fun fv => [.utf8 e.id, .binary fv.1, .binary fv.2]

def streamCells (data : StreamData) : List (List Cell) :=
  if data.entries.isEmpty then [[.null, .null, .null]]
  else data.entries.flatMap streamEntryCells

def moduleRows (entry : RdbEntry) (data : ModuleData) : List Row :=
  if data.values.isEmpty then
    [commonCells entry 0 "module" ++
      moduleCells data 0 ModuleBatchBuilder.emptyModuleOpcode [.null, .null, .null]]
  else data.values.zipIdx.map fun v =>
    commonCells entry (entry.totalElements.getD data.values.length) "module" ++
      moduleCells data (v.2 % 2 ^ 32) (ModuleBatchBuilder.moduleOpcode v.1)
        (ModuleBatchBuilder.valueCells v.1)

/-- The rows that a push of `entry` adds to the builder of a tag. -/
def TypeTag.entryRows (tag : TypeTag) (entry : RdbEntry) : List Row :=
  let n (length : Nat) := entry.totalElements.getD length
  match tag, entry.value with
  | .string, .string v => [commonCells entry 1 entry.typeName ++ [.binary v]]
  | .list, .list elements =>
    collectionRows entry entry.typeName (n elements.length) 2
      (listCells (entry.elementOffset.getD 0) elements)
  | .set, .set members =>
    collectionRows entry entry.typeName (n members.length) 1 (setCells members)
  | .sortedSet, .sortedSet pairs =>
    collectionRows entry entry.typeName (n pairs.length) 2 (sortedSetCells pairs)
  | .hash, .hash fields =>
    collectionRows entry entry.typeName (n fields.length) 3 (hashCells fields)
  | .geo, .sortedSet pairs => collectionRows entry "geo" (n pairs.length) 4 (geoCells pairs)
  | .hyperLogLog, .string v =>
    [commonCells entry 1 "hyperloglog" ++
      [.utf8 (hllEncoding v), .int64 (hllCachedCardinality v), .binary v]]
  | .module, .module data => moduleRows entry data
  | .stream, .stream data =>
    (streamCells data).map
      (commonCells entry (if 0 < data.length then data.length else data.entries.length) "stream" ++ ·)
  | _, _ => []

/-- The rows of an entry under a tag: those of its primary tag, and those of `Geo` when
the heuristic applies. -/
def rowsUnder (heuristics : Finset Heuristic) (tag : TypeTag) (entry : RdbEntry) : List Row :=
  match typeTagFor entry with
  | none => []
  | some primary =>
    if tag = primary then primary.entryRows entry
    else if tag = .geo ∧ shouldEmitGeo heuristics primary entry = true then TypeTag.geo.entryRows entry
    else []

/-! ### Counting -/

theorem collectionRows_length (entry : RdbEntry) (typeStr : String) (n width : Nat)
    (cells : List (List Cell)) :
    (collectionRows entry typeStr n width cells).length = max cells.length 1 := by
  unfold collectionRows
  cases cells with
  | nil => rfl
  | cons c cs => simp

theorem streamEntryCells_length (e : StreamEntry) :
    (streamEntryCells e).length = max e.fields.length 1 := by
  unfold streamEntryCells
  cases e.fields with
  | nil => rfl
  | cons f fs => simp

theorem streamCells_length (data : StreamData) :
    (streamCells data).length = max (data.entries.map fun e => max e.fields.length 1).sum 1 := by
  unfold streamCells
  cases hd : data.entries with
  | nil => rfl
  | cons e es =>
    have hpos : 1 ≤ max e.fields.length 1 := le_max_right _ _
    have hsum : ((e :: es).flatMap streamEntryCells).length =
        ((e :: es).map fun e => max e.fields.length 1).sum := by
      simp [List.length_flatMap, streamEntryCells_length]
    simp only [List.isEmpty_cons, Bool.false_eq_true, if_false, hsum]
    simp only [List.map_cons, List.sum_cons]
    omega

/-- A builder adds as many rows as `expectedRowCount` says for the tag of the entry. -/
theorem entryRows_length {tag : TypeTag} {entry : RdbEntry} (h : typeTagFor entry = some tag) :
    (tag.entryRows entry).length = expectedRowCount entry := by
  unfold typeTagFor at h
  unfold expectedRowCount
  cases hv : entry.value with
  | string data =>
    rw [hv] at h
    dsimp only at h
    split at h <;> cases h <;> simp [TypeTag.entryRows, hv]
  | list elements =>
    rw [hv] at h
    cases h
    simp [TypeTag.entryRows, hv, collectionRows_length, listCells]
  | set members =>
    rw [hv] at h
    cases h
    simp [TypeTag.entryRows, hv, collectionRows_length, setCells]
  | sortedSet pairs =>
    rw [hv] at h
    cases h
    simp [TypeTag.entryRows, hv, collectionRows_length, sortedSetCells]
  | hash fields =>
    rw [hv] at h
    cases h
    simp [TypeTag.entryRows, hv, collectionRows_length, hashCells]
  | module data =>
    rw [hv] at h
    cases h
    simp only [TypeTag.entryRows, hv, moduleRows]
    cases data.values with
    | nil => rfl
    | cons v vs => simp
  | stream data =>
    rw [hv] at h
    cases h
    simp [TypeTag.entryRows, hv, streamCells_length]

theorem entryRows_geo_length {entry : RdbEntry} (h : isGeoEntry entry = true) :
    (TypeTag.geo.entryRows entry).length = expectedRowCount entry := by
  obtain ⟨members, hv, -⟩ := isGeoEntry_sortedSet h
  simp [TypeTag.entryRows, expectedRowCount, hv, collectionRows_length, geoCells]

theorem entryRows_ne_nil {tag : TypeTag} {entry : RdbEntry} (h : typeTagFor entry = some tag) :
    tag.entryRows entry ≠ [] := by
  have hpos := expectedRowCount_pos entry
  rw [← entryRows_length h] at hpos
  exact List.ne_nil_of_length_pos hpos

/-! ### What a builder holds -/

/-- Whether a column of this field takes the cell. -/
def Field.Admits (field : Field) : Cell → Prop
  | .null => field.nullable = true
  | .uint8 _ => field.dataType = .uint8
  | .uint32 _ => field.dataType = .uint32
  | .uint64 _ => field.dataType = .uint64
  | .int64 _ => field.dataType = .int64
  | .float64 _ => field.dataType = .float64
  | .utf8 _ => field.dataType = .utf8
  | .binary _ => field.dataType = .binary

instance (field : Field) (cell : Cell) : Decidable (field.Admits cell) :=
  match cell with
  | .null => inferInstanceAs (Decidable (field.nullable = true))
  | .uint8 _ => inferInstanceAs (Decidable (field.dataType = .uint8))
  | .uint32 _ => inferInstanceAs (Decidable (field.dataType = .uint32))
  | .uint64 _ => inferInstanceAs (Decidable (field.dataType = .uint64))
  | .int64 _ => inferInstanceAs (Decidable (field.dataType = .int64))
  | .float64 _ => inferInstanceAs (Decidable (field.dataType = .float64))
  | .utf8 _ => inferInstanceAs (Decidable (field.dataType = .utf8))
  | .binary _ => inferInstanceAs (Decidable (field.dataType = .binary))

/-- The builder of a tag stands for these rows. -/
structure BatchBuilder.Holds (b : BatchBuilder) (tag : TypeTag) (rows : List Row) : Prop where
  typed : Typed Field.Admits (schemaFor tag) (b.common.columns ++ b.columns)
  rect : Rectangular rows.length (b.common.columns ++ b.columns)
  rows_eq : rowsOf rows.length (b.common.columns ++ b.columns) = rows
  len : b.common.len = rows.length

namespace BatchBuilder.Holds

variable {tag : TypeTag} {b : BatchBuilder} {rows : List Row}

theorem appended (h : b.Holds tag rows) {entry : RdbEntry} {a : RowAppend}
    (hr : List.Forall₂ Field.Admits (schemaFor tag) (a.row entry)) :
    (b.appended entry a).Holds tag (rows ++ [a.row entry]) := by
  have hcols : (b.appended entry a).common.columns ++ (b.appended entry a).columns =
      addRow (b.common.columns ++ b.columns) (a.row entry) :=
    @addRow_append Cell b.common.columns b.columns (commonCells entry a.numElements a.typeStr)
      a.cells rfl
  have hwidth : (b.common.columns ++ b.columns).length = (a.row entry).length := by
    rw [← h.typed.length_eq, hr.length_eq]
  have hlen : (rows ++ [a.row entry]).length = rows.length + 1 := by simp
  constructor
  · rw [hcols]
    exact h.typed.addRow hr
  · rw [hcols, hlen]
    exact h.rect.addRow _
  · rw [hcols, hlen, rowsOf_addRow h.rect hwidth, h.rows_eq]
  · rw [hlen, ← h.len]
    rfl

theorem appendRows {entry : RdbEntry} {appends : List RowAppend}
    (ha : ∀ a ∈ appends, List.Forall₂ Field.Admits (schemaFor tag) (a.row entry))
    (h : b.Holds tag rows) :
    (b.appendRows entry appends).Holds tag (rows ++ appends.map (RowAppend.row entry)) := by
  induction appends generalizing b rows with
  | nil =>
    rw [List.map_nil, List.append_nil]
    exact h
  | cons a as ih =>
    have hrest := ih (fun x hx => ha x (List.mem_cons_of_mem _ hx))
      (h.appended (ha a List.mem_cons_self))
    rw [List.append_assoc] at hrest
    exact hrest

end BatchBuilder.Holds

theorem newBuilder_holds (tag : TypeTag) : tag.newBuilder.Holds tag [] := by
  have hcols : tag.newBuilder.common.columns ++ tag.newBuilder.columns =
      List.replicate (schemaFor tag).length [] := by
    cases tag <;> rfl
  constructor
  · rw [hcols]
    exact Typed.empty _ _
  · rw [hcols]
    intro column hc
    rw [List.eq_of_mem_replicate hc]
    rfl
  · rfl
  · cases tag <;> rfl

/-! ### Pushes -/

/-- The fields of the type-specific columns. -/
def TypeTag.valueFields (tag : TypeTag) : List Field := (schemaFor tag).drop commonFields.length

theorem schemaFor_eq (tag : TypeTag) : schemaFor tag = commonFields ++ tag.valueFields := by
  cases tag <;> rfl

theorem commonCells_admitted (entry : RdbEntry) (n : Nat) (typeStr : String) :
    List.Forall₂ Field.Admits commonFields (commonCells entry n typeStr) := by
  unfold commonFields commonCells
  cases entry.expiryMs <;> cases entry.lruIdleSecs <;> cases entry.lfuFrequency <;>
    simp [Cell.ofOption, Field.Admits]

theorem row_admitted {tag : TypeTag} (entry : RdbEntry) {a : RowAppend}
    (h : List.Forall₂ Field.Admits tag.valueFields a.cells) :
    List.Forall₂ Field.Admits (schemaFor tag) (a.row entry) := by
  rw [schemaFor_eq]
  exact List.rel_append (commonCells_admitted entry a.numElements a.typeStr) h

/-- Some appends to the builder of a tag: their rows, and cells that its schema admits. -/
structure RowsOfAppends (tag : TypeTag) (entry : RdbEntry) (rows : List Row)
    (appends : List RowAppend) : Prop where
  rows_eq : rows = appends.map (RowAppend.row entry)
  admitted : ∀ a ∈ appends, List.Forall₂ Field.Admits tag.valueFields a.cells

theorem RowsOfAppends.nil (tag : TypeTag) (entry : RdbEntry) : RowsOfAppends tag entry [] [] :=
  ⟨rfl, by simp⟩

theorem RowsOfAppends.singleton {tag : TypeTag} (entry : RdbEntry) (a : RowAppend)
    (h : List.Forall₂ Field.Admits tag.valueFields a.cells) :
    RowsOfAppends tag entry [a.row entry] [a] :=
  ⟨rfl, by simpa using h⟩

theorem RowsOfAppends.map {tag : TypeTag} {α : Type} (entry : RdbEntry) {f : α → RowAppend}
    (hf : ∀ x, List.Forall₂ Field.Admits tag.valueFields (f x).cells) (xs : List α) :
    RowsOfAppends tag entry (xs.map fun x => (f x).row entry) (xs.map f) :=
  ⟨by rw [List.map_map]; rfl, by simpa using fun x _ => hf x⟩

theorem RowsOfAppends.flatMap {tag : TypeTag} {α : Type} {entry : RdbEntry} {g : α → List Row}
    {f : α → List RowAppend} (h : ∀ x, RowsOfAppends tag entry (g x) (f x)) (xs : List α) :
    RowsOfAppends tag entry (xs.flatMap g) (xs.flatMap f) where
  rows_eq := by
    rw [List.map_flatMap]
    exact congrArg (xs.flatMap ·) (funext fun x => (h x).rows_eq)
  admitted := by
    intro a ha
    obtain ⟨x, -, hx⟩ := List.mem_flatMap.mp ha
    exact (h x).admitted a hx

theorem RowsOfAppends.collection {tag : TypeTag} {α : Type} {width : Nat}
    (hw : tag.valueFields.length = width) (hnull : ∀ field ∈ tag.valueFields, field.nullable = true)
    {f : α → List Cell} (hf : ∀ x, List.Forall₂ Field.Admits tag.valueFields (f x))
    (entry : RdbEntry) (typeStr : String) (n : Nat) (bytes : α → Nat) (xs : List α) :
    RowsOfAppends tag entry (collectionRows entry typeStr n width (xs.map f))
      (collectionAppends typeStr n width bytes f xs) := by
  have hsentinel : ∀ fields : List Field, (∀ field ∈ fields, field.nullable = true) →
      List.Forall₂ Field.Admits fields (List.replicate fields.length .null) := by
    intro fields
    induction fields with
    | nil => exact fun _ => .nil
    | cons field fields ih =>
      intro h
      exact .cons (h field List.mem_cons_self) (ih fun g hg => h g (List.mem_cons_of_mem _ hg))
  unfold collectionRows collectionAppends
  cases xs with
  | nil => exact .singleton entry ⟨0, typeStr, 0, List.replicate width .null⟩ (hw ▸ hsentinel _ hnull)
  | cons x xs =>
    have hall := RowsOfAppends.map entry (f := fun x => ⟨n, typeStr, bytes x, f x⟩) hf (x :: xs)
    simp only [List.map_cons, List.isEmpty_cons, Bool.false_eq_true, if_false, List.map_map] at hall ⊢
    exact hall

section Push

variable (entry : RdbEntry)

theorem string_rows : RowsOfAppends .string entry (TypeTag.string.entryRows entry)
    (TypeTag.string.appends entry) := by
  unfold TypeTag.entryRows TypeTag.appends
  cases entry.value with
  | string v =>
    exact .singleton entry ⟨1, entry.typeName, v.length, [.binary v]⟩ (.cons rfl .nil)
  | _ => exact .nil _ _

theorem list_rows : RowsOfAppends .list entry (TypeTag.list.entryRows entry)
    (TypeTag.list.appends entry) := by
  unfold TypeTag.entryRows TypeTag.appends
  cases entry.value with
  | list elements =>
    refine .collection rfl (by decide) (fun _ => ?_) _ _ _ _ _
    exact .cons rfl (.cons rfl .nil)
  | _ => exact .nil _ _

theorem set_rows : RowsOfAppends .set entry (TypeTag.set.entryRows entry)
    (TypeTag.set.appends entry) := by
  unfold TypeTag.entryRows TypeTag.appends
  cases entry.value with
  | set members =>
    refine .collection rfl (by decide) (fun _ => ?_) _ _ _ _ _
    exact .cons rfl .nil
  | _ => exact .nil _ _

theorem sortedSet_rows : RowsOfAppends .sortedSet entry (TypeTag.sortedSet.entryRows entry)
    (TypeTag.sortedSet.appends entry) := by
  unfold TypeTag.entryRows TypeTag.appends
  cases entry.value with
  | sortedSet pairs =>
    refine .collection rfl (by decide) (fun _ => ?_) _ _ _ _ _
    exact .cons rfl (.cons rfl .nil)
  | _ => exact .nil _ _

theorem hash_rows : RowsOfAppends .hash entry (TypeTag.hash.entryRows entry)
    (TypeTag.hash.appends entry) := by
  unfold TypeTag.entryRows TypeTag.appends
  cases entry.value with
  | hash fields =>
    refine .collection rfl (by decide) (fun hf => ?_) _ _ _ _ _
    cases hf.expiryMs <;> exact .cons rfl (.cons rfl (.cons rfl .nil))
  | _ => exact .nil _ _

theorem geo_rows : RowsOfAppends .geo entry (TypeTag.geo.entryRows entry)
    (TypeTag.geo.appends entry) := by
  unfold TypeTag.entryRows TypeTag.appends
  cases entry.value with
  | sortedSet pairs =>
    refine .collection rfl (by decide) (fun p => ?_) _ _ _ _ _
    cases geohashDecode p.2 <;> exact .cons rfl (.cons rfl (.cons rfl (.cons rfl .nil)))
  | _ => exact .nil _ _

theorem hll_rows : RowsOfAppends .hyperLogLog entry (TypeTag.hyperLogLog.entryRows entry)
    (TypeTag.hyperLogLog.appends entry) := by
  unfold TypeTag.entryRows TypeTag.appends
  cases entry.value with
  | string v =>
    exact .singleton entry ⟨1, "hyperloglog", v.length,
      [.utf8 (hllEncoding v), .int64 (hllCachedCardinality v), .binary v]⟩
      (.cons rfl (.cons rfl (.cons rfl .nil)))
  | _ => exact .nil _ _

theorem streamEntry_rows (n : Nat) (e : StreamEntry) :
    RowsOfAppends .stream entry ((streamEntryCells e).map (commonCells entry n "stream" ++ ·))
      (streamEntryAppends n e) := by
  unfold streamEntryCells streamEntryAppends
  split
  · exact .singleton entry ⟨n, "stream", e.id.utf8ByteSize, [.utf8 e.id, .null, .null]⟩
      (.cons rfl (.cons rfl (.cons rfl .nil)))
  · have hrow : ∀ fv : Bytes × Bytes, List.Forall₂ Field.Admits TypeTag.stream.valueFields
        [.utf8 e.id, .binary fv.1, .binary fv.2] := fun _ => .cons rfl (.cons rfl (.cons rfl .nil))
    rw [List.map_map]
    exact .map entry (f := fun fv => ⟨n, "stream", e.id.utf8ByteSize + fv.1.length + fv.2.length,
      [.utf8 e.id, .binary fv.1, .binary fv.2]⟩) hrow e.fields

theorem stream_rows : RowsOfAppends .stream entry (TypeTag.stream.entryRows entry)
    (TypeTag.stream.appends entry) := by
  unfold TypeTag.entryRows TypeTag.appends
  cases entry.value with
  | stream data =>
    simp only [streamCells, streamAppends]
    generalize (if 0 < data.length then data.length else data.entries.length) = n
    cases data.entries with
    | nil =>
      refine .singleton entry ⟨n, "stream", 0, [.null, .null, .null]⟩ ?_
      exact .cons rfl (.cons rfl (.cons rfl .nil))
    | cons e es =>
      simp only [List.isEmpty_cons, Bool.false_eq_true, if_false]
      rw [List.map_flatMap]
      exact .flatMap (streamEntry_rows entry n) (e :: es)
  | _ => exact .nil _ _

theorem valueCells_admitted (v : ModuleValue) :
    List.Forall₂ Field.Admits
      [⟨"int_value", .uint64, true⟩, ⟨"double_value", .float64, true⟩,
        ⟨"string_value", .binary, true⟩] (ModuleBatchBuilder.valueCells v) := by
  cases v <;> simp [ModuleBatchBuilder.valueCells, Field.Admits]

theorem moduleCells_admitted (data : ModuleData) (index : Nat) (opcode : String) {value : List Cell}
    (h : List.Forall₂ Field.Admits
      [⟨"int_value", .uint64, true⟩, ⟨"double_value", .float64, true⟩,
        ⟨"string_value", .binary, true⟩] value) :
    List.Forall₂ Field.Admits TypeTag.module.valueFields (moduleCells data index opcode value) :=
  .cons rfl (.cons rfl (.cons rfl (.cons rfl h)))

theorem module_rows : RowsOfAppends .module entry (TypeTag.module.entryRows entry)
    (TypeTag.module.appends entry) := by
  unfold TypeTag.entryRows TypeTag.appends
  cases entry.value with
  | module data =>
    simp only [moduleRows, moduleAppends]
    split
    · exact .singleton entry ⟨0, "module", _, _⟩ (moduleCells_admitted data 0 _ (by simp [Field.Admits]))
    · have hrow : ∀ v : ModuleValue × Nat, List.Forall₂ Field.Admits TypeTag.module.valueFields
          (moduleCells data (v.2 % 2 ^ 32) (ModuleBatchBuilder.moduleOpcode v.1)
            (ModuleBatchBuilder.valueCells v.1)) :=
        fun v => moduleCells_admitted data _ _ (valueCells_admitted v.1)
      exact .map entry (f := fun v => ⟨_, "module", ModuleBatchBuilder.moduleRowBytes data v.1, _⟩)
        hrow data.values.zipIdx
  | _ => exact .nil _ _

/-- The rows of an entry are those of its appends, and the schema of the tag admits them. -/
theorem rows_of_appends (tag : TypeTag) :
    RowsOfAppends tag entry (tag.entryRows entry) (tag.appends entry) := by
  cases tag with
  | string => exact string_rows entry
  | list => exact list_rows entry
  | set => exact set_rows entry
  | sortedSet => exact sortedSet_rows entry
  | hash => exact hash_rows entry
  | geo => exact geo_rows entry
  | hyperLogLog => exact hll_rows entry
  | module => exact module_rows entry
  | stream => exact stream_rows entry

theorem appends_length (tag : TypeTag) :
    (tag.appends entry).length = (tag.entryRows entry).length := by
  rw [(rows_of_appends entry tag).rows_eq, List.length_map]

/-- The cells of an append have the columns of the builder to go to. -/
theorem appends_width {tag : TypeTag} {a : RowAppend} (ha : a ∈ tag.appends entry) :
    a.cells.length = tag.valueFields.length :=
  ((rows_of_appends entry tag).admitted a ha).length_eq.symm

end Push

theorem pushed_holds {tag : TypeTag} {b : BatchBuilder} {rows : List Row} (h : b.Holds tag rows)
    (entry : RdbEntry) : (tag.pushed b entry).Holds tag (rows ++ tag.entryRows entry) := by
  have hspec := rows_of_appends entry tag
  rw [hspec.rows_eq]
  exact h.appendRows fun a ha => row_admitted entry (hspec.admitted a ha)

/-! ### Finishing -/

/-- `RecordBatch::try_new` accepts some columns of one length that match the schema: as
many as it has fields, of their types, and without nulls where a field forbids them. -/
def TryNewAccepts {ε : Type} (tryNew : TryNew ε) : Prop :=
  ∀ schema columns n, columns ≠ [] → Rectangular n columns → Typed Field.Admits schema columns →
    tryNew schema columns = .ok ⟨schema, columns⟩

/-- The checks of `try_new` and nothing else. -/
def checkedTryNew : TryNew String := fun schema columns =>
  if columns.isEmpty then .error "must either specify a row count or at least one column"
  else if columns.length ≠ schema.length then
    .error "number of columns must match number of fields in schema"
  else if columns.any fun column => column.length != (columns.headD []).length then
    .error "all columns in a record batch must have the same length"
  else if (schema.zip columns).all fun fc => fc.2.all fun cell => decide (fc.1.Admits cell) then
    .ok ⟨schema, columns⟩
  else .error "column types must match schema types"

theorem checkedTryNew_accepts : TryNewAccepts checkedTryNew := by
  intro schema columns n hne hrect htyped
  have hempty : columns.isEmpty = false := by simpa using hne
  have hwidth : columns.length = schema.length := htyped.length_eq.symm
  have hlen : (columns.any fun column => column.length != (columns.headD []).length) = false := by
    have hhead : (columns.headD []).length = n := by
      cases columns with
      | nil => exact absurd rfl hne
      | cons c cs => exact hrect c List.mem_cons_self
    rw [hhead, List.any_eq_false]
    intro column hc
    simp [hrect column hc]
  have hcells : ((schema.zip columns).all fun fc => fc.2.all fun cell =>
      decide (fc.1.Admits cell)) = true := by
    rw [List.all_eq_true]
    clear hne hrect hempty hwidth hlen
    induction htyped with
    | nil => simp
    | cons hc _ ih =>
      intro fc hfc
      rcases List.mem_cons.mp hfc with rfl | hfc
      · simpa using hc
      · exact ih fc hfc
  unfold checkedTryNew
  rw [hempty, hlen, hcells]
  simp [hwidth]

theorem finish_holds {ε : Type} {tryNew : TryNew ε} (ht : TryNewAccepts tryNew) {tag : TypeTag}
    {b : BatchBuilder} {rows : List Row} (h : b.Holds tag rows) :
    ∃ batch empty, b.finish tryNew tag = (.ok batch, empty) ∧ batch.schema = schemaFor tag ∧
      batch.rows = rows ∧ empty.Holds tag [] := by
  have hfinish : b.finish tryNew tag =
      (.ok ⟨schemaFor tag, b.common.columns ++ b.columns⟩, ⟨.new, b.columns.map fun _ => []⟩) := by
    have hne : b.common.columns ++ b.columns ≠ [] := List.cons_ne_nil _ _
    unfold BatchBuilder.finish
    rw [ht _ _ _ hne h.rect h.typed]
  have hrows : RecordBatch.rows ⟨schemaFor tag, b.common.columns ++ b.columns⟩ = rows := by
    have hnum : RecordBatch.numRows ⟨schemaFor tag, b.common.columns ++ b.columns⟩ = rows.length :=
      h.rect b.common.db List.mem_cons_self
    unfold RecordBatch.rows
    rw [hnum]
    exact h.rows_eq
  refine ⟨_, _, hfinish, rfl, hrows, ?_⟩
  have hnil : ∀ column ∈ CommonColumnsBuilder.new.columns ++ b.columns.map (fun _ => ([] : List Cell)),
      column = [] := by
    intro column hc
    rcases List.mem_append.mp hc with hc | hc
    · simpa [CommonColumnsBuilder.columns, CommonColumnsBuilder.new] using hc
    · obtain ⟨_, -, rfl⟩ := List.mem_map.mp hc
      rfl
  have hlen : (schemaFor tag).length =
      (CommonColumnsBuilder.new.columns ++ b.columns.map (fun _ => ([] : List Cell))).length := by
    have hwidth := h.typed.length_eq
    simpa [CommonColumnsBuilder.columns] using hwidth
  have hcols : CommonColumnsBuilder.new.columns ++ b.columns.map (fun _ => ([] : List Cell)) =
      List.replicate (schemaFor tag).length [] :=
    List.eq_replicate_iff.mpr ⟨hlen.symm, hnil⟩
  constructor
  · change Typed Field.Admits (schemaFor tag) (CommonColumnsBuilder.new.columns ++ _)
    rw [hcols]
    exact Typed.empty _ _
  · intro column hc
    rw [hnil column hc]
    rfl
  · rfl
  · rfl

end ValkeyRdb
