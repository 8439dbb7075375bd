import Mathlib.Data.List.GetD
import ValkeyRdb.Arrow.Rows

/-!
# The bytes of a column

What a push adds to a column is known before it: for the key, the rows of the entry times
the length of the key. The push panics exactly when that is more than the offsets of some
column can still say.
-/

namespace ValkeyRdb

open StateAction (Guarded Along along_iff)

namespace BatchBuilder

/-- The bytes in the column at place `i`, in the order of `finish`. -/
def bytesAt (b : BatchBuilder) (i : Nat) : Nat := columnBytes (b.allColumns.getD i [])

theorem offsetsFit_iff (b : BatchBuilder) : b.OffsetsFit ↔ ∀ i, b.bytesAt i ≤ maxOffset := by
  constructor
  · intro h i
    unfold bytesAt
    rcases Nat.lt_or_ge i b.allColumns.length with hi | hi
    · rw [List.getD_eq_getElem _ _ hi]
      exact h _ (List.getElem_mem hi)
    · rw [List.getD_eq_default _ _ hi]
      exact Nat.zero_le _
  · intro h column hc
    obtain ⟨i, hi, rfl⟩ := List.mem_iff_getElem.mp hc
    have hle := h i
    rwa [bytesAt, List.getD_eq_getElem _ _ hi] at hle

end BatchBuilder

/-! ### What a row adds -/

/-- The bytes of a row in the column at place `i`. -/
def rowBytesAt (row : Row) (i : Nat) : Nat := (row.map Cell.varBytes).getD i 0

theorem bytesAt_addRow {columns : List (List Cell)} {row : Row} (hw : columns.length = row.length)
    (i : Nat) : columnBytes ((addRow columns row).getD i []) =
      columnBytes (columns.getD i []) + rowBytesAt row i := by
  induction columns generalizing row i with
  | nil =>
    obtain rfl := List.eq_nil_of_length_eq_zero hw.symm
    rfl
  | cons column columns ih =>
    cases row with
    | nil => cases hw
    | cons cell row =>
      rw [addRow_cons]
      cases i with
      | zero => simp [columnBytes, rowBytesAt]
      | succ i => exact ih (Nat.succ.inj hw) i

section Appends

variable (entry : RdbEntry)

theorem appended_bytesAt {b : BatchBuilder} {a : RowAppend} (hw : b.columns.length = a.cells.length)
    (i : Nat) : (b.appended entry a).bytesAt i = b.bytesAt i + rowBytesAt (a.row entry) i := by
  have hcols : (b.appended entry a).allColumns = addRow b.allColumns (a.row entry) :=
    @addRow_append Cell b.common.columns b.columns (commonCells entry a.numElements a.typeStr)
      a.cells rfl
  have hrow : b.allColumns.length = (a.row entry).length := by
    rw [BatchBuilder.allColumns, RowAppend.row, List.length_append, List.length_append, hw]
    rfl
  unfold BatchBuilder.bytesAt
  rw [hcols, bytesAt_addRow hrow]

theorem appended_width {b : BatchBuilder} {a : RowAppend} (hw : b.columns.length = a.cells.length) :
    (b.appended entry a).columns.length = b.columns.length := by
  rw [BatchBuilder.appended, addRow, List.length_zipWith, ← hw, Nat.min_self]

theorem appendRows_bytesAt {width : Nat} {b : BatchBuilder} (hw : b.columns.length = width)
    {appends : List RowAppend} (ha : ∀ a ∈ appends, a.cells.length = width) (i : Nat) :
    (b.appendRows entry appends).bytesAt i =
      b.bytesAt i + (appends.map fun a => rowBytesAt (a.row entry) i).sum := by
  induction appends generalizing b with
  | nil => rfl
  | cons a as ih =>
    have hcells : b.columns.length = a.cells.length := hw.trans (ha a List.mem_cons_self).symm
    have hstep := appended_bytesAt entry hcells i
    have hrest := ih ((appended_width entry hcells).trans hw) fun x hx =>
      ha x (List.mem_cons_of_mem _ hx)
    rw [List.map_cons, List.sum_cons, ← Nat.add_assoc, ← hstep]
    exact hrest

end Appends

/-! ### What an entry adds -/

def streamIdBytes (e : StreamEntry) : Nat := max e.fields.length 1 * e.id.utf8ByteSize

def commonBytes (entry : RdbEntry) (typeStr : String) : List Nat :=
  [0, entry.key.length, typeStr.utf8ByteSize, 0, 0, 0, entry.encodingName.utf8ByteSize, 0]

def TypeTag.typeText (tag : TypeTag) (entry : RdbEntry) : String :=
  match tag with
  | .geo => "geo"
  | .hyperLogLog => "hyperloglog"
  | .module => "module"
  | .stream => "stream"
  | _ => entry.typeName

/-- The bytes of the values of an entry in the type-specific columns of a tag. -/
def TypeTag.valueBytes (tag : TypeTag) (entry : RdbEntry) : List Nat :=
  match tag, entry.value with
  | .string, .string v => [v.length]
  | .list, .list elements => [0, (elements.map List.length).sum]
  | .set, .set members => [(members.map List.length).sum]
  | .sortedSet, .sortedSet pairs => [(pairs.map fun p => p.1.length).sum, 0]
  | .hash, .hash fields =>
    [(fields.map fun f => f.field.length).sum, (fields.map fun f => f.value.length).sum, 0]
  | .geo, .sortedSet pairs => [(pairs.map fun p => p.1.length).sum, 0, 0, 0]
  | .hyperLogLog, .string v => [(hllEncoding v).utf8ByteSize, 0, v.length]
  | .module, .module data =>
    [max data.values.length 1 * (utf8Text data.moduleName).utf8ByteSize, 0, 0,
      if data.values.isEmpty then ModuleBatchBuilder.emptyModuleOpcode.utf8ByteSize
      else (data.values.map ModuleBatchBuilder.moduleOpcodeBytes).sum,
      0, 0, (data.values.map fun v => match v with | .string s => s.length | _ => 0).sum]
  | .stream, .stream data =>
    [(data.entries.map streamIdBytes).sum,
      (data.entries.map fun e => (e.fields.map fun fv => fv.1.length).sum).sum,
      (data.entries.map fun e => (e.fields.map fun fv => fv.2.length).sum).sum]
  | _, _ => []

/-- The bytes that an entry adds to each column of a tag: the common columns once a row,
and its values. -/
def TypeTag.addedBytes (tag : TypeTag) (entry : RdbEntry) : List Nat :=
  (commonBytes entry (tag.typeText entry)).map (expectedRowCount entry * ·) ++ tag.valueBytes entry

def cellBytesAt (cells : List Cell) (i : Nat) : Nat := (cells.map Cell.varBytes).getD i 0

theorem rowBytesAt_row (entry : RdbEntry) (a : RowAppend) :
    (a.row entry).map Cell.varBytes = commonBytes entry a.typeStr ++ a.cells.map Cell.varBytes := by
  rw [RowAppend.row, List.map_append]
  unfold commonCells
  cases entry.expiryMs <;> cases entry.lruIdleSecs <;> cases entry.lfuFrequency <;> rfl

theorem sum_append_getD (cs : List Nat) (f : RowAppend → List Nat) (values : List Nat)
    (as : List RowAppend) (h : ∀ i, (as.map fun a => (f a).getD i 0).sum = values.getD i 0) (i : Nat) :
    (as.map fun a => (cs ++ f a).getD i 0).sum = (cs.map (as.length * ·) ++ values).getD i 0 := by
  rcases Nat.lt_or_ge i cs.length with hi | hi
  · have hleft : ∀ ys : List Nat, (cs ++ ys).getD i 0 = cs[i] := by
      intro ys
      rw [List.getD_append _ _ _ _ hi, List.getD_eq_getElem _ _ hi]
    have hmap : i < (cs.map (as.length * ·)).length := by rwa [List.length_map]
    rw [List.getD_append _ _ _ _ hmap, List.getD_eq_getElem _ _ hmap, List.getElem_map]
    simp only [hleft]
    rw [List.map_const', List.sum_replicate_nat]
  · have hright : ∀ ys : List Nat, (cs ++ ys).getD i 0 = ys.getD (i - cs.length) 0 :=
      fun ys => List.getD_append_right _ _ _ _ hi
    have hmap : (cs.map (as.length * ·)).length ≤ i := by rwa [List.length_map]
    rw [List.getD_append_right _ _ _ _ hmap, List.length_map]
    simp only [hright]
    exact h _

/-- Some appends: the text of the type column, and the bytes of their cells by columns. -/
structure AppendsOf (typeStr : String) (values : List Nat) (appends : List RowAppend) : Prop where
  typeStr : ∀ a ∈ appends, a.typeStr = typeStr
  values : ∀ i, (appends.map fun a => cellBytesAt a.cells i).sum = values.getD i 0

theorem AppendsOf.nil (typeStr : String) : AppendsOf typeStr [] [] :=
  ⟨by simp, fun i => by simp⟩

theorem AppendsOf.singleton (a : RowAppend) :
    AppendsOf a.typeStr (a.cells.map Cell.varBytes) [a] :=
  ⟨by simp, fun i => by simp [cellBytesAt]⟩

theorem AppendsOf.map {α : Type} {typeStr : String} {values : List Nat} (f : α → RowAppend)
    (xs : List α) (ht : ∀ x, (f x).typeStr = typeStr)
    (hv : ∀ i, (xs.map fun x => cellBytesAt (f x).cells i).sum = values.getD i 0) :
    AppendsOf typeStr values (xs.map f) where
  typeStr := by simpa using fun x _ => ht x
  values := by
    intro i
    rw [List.map_map]
    exact hv i

theorem AppendsOf.flatMap {α : Type} {typeStr : String} {values : List Nat}
    {f : α → List RowAppend} {g : α → List Nat} {xs : List α}
    (h : ∀ x, AppendsOf typeStr (g x) (f x))
    (hv : ∀ i, (xs.map fun x => (g x).getD i 0).sum = values.getD i 0) :
    AppendsOf typeStr values (xs.flatMap f) where
  typeStr := by
    intro a ha
    obtain ⟨x, -, hx⟩ := List.mem_flatMap.mp ha
    exact (h x).typeStr a hx
  values := by
    intro i
    rw [← hv i]
    clear hv
    induction xs with
    | nil => rfl
    | cons x xs ih =>
      rw [List.flatMap_cons, List.map_append, List.sum_append, (h x).values i, ih, List.map_cons,
        List.sum_cons]

theorem AppendsOf.collection {α : Type} {width : Nat} {typeStr : String} {values : List Nat}
    (n : Nat) (bytes : α → Nat) (cells : α → List Cell) (xs : List α)
    (hv : ∀ i, (xs.map fun x => cellBytesAt (cells x) i).sum = values.getD i 0) :
    AppendsOf typeStr values (collectionAppends typeStr n width bytes cells xs) := by
  unfold collectionAppends
  cases xs with
  | nil =>
    refine ⟨by simp, fun i => ?_⟩
    rw [← hv i]
    simp [cellBytesAt, Cell.varBytes, List.getD_eq_getElem?_getD, List.getElem?_replicate]
    split <;> rfl
  | cons x xs => exact .map _ _ (fun _ => rfl) hv

/-- The lists `f x` over all `x`, summed place by place. -/
def ColumnSums {α : Type} (xs : List α) (f : α → List Nat) (values : List Nat) : Prop :=
  ∀ i, (xs.map fun x => (f x).getD i 0).sum = values.getD i 0

theorem ColumnSums.nil {α : Type} (xs : List α) : ColumnSums xs (fun _ => []) [] := by
  intro i
  simp

theorem ColumnSums.cons {α : Type} {xs : List α} {g : α → Nat} {v : Nat} (hg : (xs.map g).sum = v)
    {f : α → List Nat} {values : List Nat} (h : ColumnSums xs f values) :
    ColumnSums xs (fun x => g x :: f x) (v :: values) := by
  intro i
  cases i with
  | zero => exact hg
  | succ i => exact h i

theorem ColumnSums.zero {α : Type} {xs : List α} {f : α → List Nat} {values : List Nat}
    (h : ColumnSums xs f values) : ColumnSums xs (fun x => 0 :: f x) (0 :: values) :=
  h.cons (by simp)

theorem map_zipIdx_fst {α β : Type} (g : α → β) (xs : List α) :
    (xs.zipIdx.map fun x => g x.1) = xs.map g := by
  have hfst := List.zipIdx_map_fst 0 xs
  calc (xs.zipIdx.map fun x => g x.1) = (xs.zipIdx.map Prod.fst).map g := by
        rw [List.map_map]
        rfl
    _ = xs.map g := by rw [hfst]

section Tags

variable (entry : RdbEntry)

theorem list_appendsOf : AppendsOf entry.typeName (TypeTag.list.valueBytes entry)
    (TypeTag.list.appends entry) := by
  unfold TypeTag.valueBytes TypeTag.appends
  cases entry.value with
  | list elements =>
    refine .collection _ _ _ _ ?_
    have hsize : (elements.zipIdx.map fun e => e.1.length).sum = (elements.map List.length).sum := by
      rw [map_zipIdx_fst]
    exact ((ColumnSums.nil _).cons hsize).zero
  | _ => exact .nil _

theorem set_appendsOf : AppendsOf entry.typeName (TypeTag.set.valueBytes entry)
    (TypeTag.set.appends entry) := by
  unfold TypeTag.valueBytes TypeTag.appends
  cases entry.value with
  | set members => exact .collection _ _ _ _ ((ColumnSums.nil _).cons rfl)
  | _ => exact .nil _

theorem sortedSet_appendsOf : AppendsOf entry.typeName (TypeTag.sortedSet.valueBytes entry)
    (TypeTag.sortedSet.appends entry) := by
  unfold TypeTag.valueBytes TypeTag.appends
  cases entry.value with
  | sortedSet pairs =>
    exact .collection _ _ _ _ ((ColumnSums.nil _).zero.cons rfl)
  | _ => exact .nil _

theorem hash_appendsOf : AppendsOf entry.typeName (TypeTag.hash.valueBytes entry)
    (TypeTag.hash.appends entry) := by
  unfold TypeTag.valueBytes TypeTag.appends
  cases entry.value with
  | hash fields =>
    refine .collection _ _ _ _ ?_
    have hcells : ∀ f : HashField, [Cell.binary f.field, .binary f.value,
        Cell.ofOption .int64 f.expiryMs].map Cell.varBytes = [f.field.length, f.value.length, 0] := by
      intro f
      cases f.expiryMs <;> rfl
    simp only [cellBytesAt, hcells]
    exact ((ColumnSums.nil _).zero.cons rfl).cons rfl
  | _ => exact .nil _

theorem geo_appendsOf : AppendsOf "geo" (TypeTag.geo.valueBytes entry)
    (TypeTag.geo.appends entry) := by
  unfold TypeTag.valueBytes TypeTag.appends
  cases entry.value with
  | sortedSet pairs =>
    refine .collection _ _ _ _ ?_
    have hcells : ∀ p : Bytes × F64, [Cell.binary p.1,
        Cell.ofOption (fun d => .float64 d.1) (geohashDecode p.2),
        Cell.ofOption (fun d => .float64 d.2) (geohashDecode p.2), .float64 p.2].map Cell.varBytes =
        [p.1.length, 0, 0, 0] := by
      intro p
      cases geohashDecode p.2 <;> rfl
    simp only [cellBytesAt, hcells]
    exact (ColumnSums.nil _).zero.zero.zero.cons rfl
  | _ => exact .nil _

theorem string_appendsOf : AppendsOf entry.typeName (TypeTag.string.valueBytes entry)
    (TypeTag.string.appends entry) := by
  unfold TypeTag.valueBytes TypeTag.appends
  cases entry.value with
  | string v => exact .singleton ⟨1, entry.typeName, v.length, [.binary v]⟩
  | _ => exact .nil _

theorem hll_appendsOf : AppendsOf "hyperloglog" (TypeTag.hyperLogLog.valueBytes entry)
    (TypeTag.hyperLogLog.appends entry) := by
  unfold TypeTag.valueBytes TypeTag.appends
  cases entry.value with
  | string v =>
    exact .singleton ⟨1, "hyperloglog", v.length,
      [.utf8 (hllEncoding v), .int64 (hllCachedCardinality v), .binary v]⟩
  | _ => exact .nil _

theorem streamEntry_appendsOf (n : Nat) (e : StreamEntry) :
    AppendsOf "stream" [streamIdBytes e, (e.fields.map fun fv => fv.1.length).sum,
      (e.fields.map fun fv => fv.2.length).sum] (streamEntryAppends n e) := by
  unfold streamEntryAppends streamIdBytes
  cases e.fields with
  | nil =>
    have hone := AppendsOf.singleton
      ⟨n, "stream", e.id.utf8ByteSize, [.utf8 e.id, .null, .null]⟩
    simpa [Cell.varBytes] using hone
  | cons fv fvs =>
    have hid : ((fv :: fvs).map fun _ => e.id.utf8ByteSize).sum =
        max (fv :: fvs).length 1 * e.id.utf8ByteSize := by
      rw [max_eq_left (Nat.succ_pos _), List.map_const', List.sum_replicate_nat]
    exact .map _ _ (fun _ => rfl)
      (((ColumnSums.nil (fv :: fvs)).cons rfl).cons rfl |>.cons hid)

theorem stream_appendsOf : AppendsOf "stream" (TypeTag.stream.valueBytes entry)
    (TypeTag.stream.appends entry) := by
  unfold TypeTag.valueBytes TypeTag.appends
  cases entry.value with
  | stream data =>
    simp only [streamAppends]
    generalize (if 0 < data.length then data.length else data.entries.length) = n
    cases data.entries with
    | nil => exact .singleton ⟨n, "stream", 0, [.null, .null, .null]⟩
    | cons e es =>
      exact .flatMap (streamEntry_appendsOf n)
        (((ColumnSums.nil (e :: es)).cons rfl).cons rfl |>.cons rfl)
  | _ => exact .nil _

theorem module_appendsOf : AppendsOf "module" (TypeTag.module.valueBytes entry)
    (TypeTag.module.appends entry) := by
  unfold TypeTag.valueBytes TypeTag.appends
  cases entry.value with
  | module data =>
    simp only [moduleAppends]
    generalize entry.totalElements.getD data.values.length = n
    cases data.values with
    | nil =>
      have hone := AppendsOf.singleton ⟨0, "module", ModuleBatchBuilder.emptyModuleRowBytes data,
        moduleCells data 0 ModuleBatchBuilder.emptyModuleOpcode [.null, .null, .null]⟩
      simpa [moduleCells, Cell.varBytes] using hone
    | cons v vs =>
      have hname : ((v :: vs).zipIdx.map fun _ => (utf8Text data.moduleName).utf8ByteSize).sum =
          max (v :: vs).length 1 * (utf8Text data.moduleName).utf8ByteSize := by
        rw [max_eq_left (Nat.succ_pos _), List.map_const', List.sum_replicate_nat,
          List.length_zipIdx]
      refine .map _ _ (fun _ => rfl) ?_
      have hcells : ∀ x : ModuleValue × Nat,
          (moduleCells data (x.2 % 2 ^ 32) (ModuleBatchBuilder.moduleOpcode x.1)
            (ModuleBatchBuilder.valueCells x.1)).map Cell.varBytes =
          [(utf8Text data.moduleName).utf8ByteSize, 0, 0, ModuleBatchBuilder.moduleOpcodeBytes x.1,
            0, 0, match x.1 with | .string s => s.length | _ => 0] := by
        intro x
        cases x.1 <;> rfl
      simp only [cellBytesAt, hcells]
      have hopcode := congrArg List.sum
        (map_zipIdx_fst ModuleBatchBuilder.moduleOpcodeBytes (v :: vs))
      have hstring := congrArg List.sum
        (map_zipIdx_fst (fun v : ModuleValue => match v with | .string s => s.length | _ => 0) (v :: vs))
      exact (((ColumnSums.nil _).cons hstring).zero.zero.cons hopcode).zero.zero.cons hname
  | _ => exact .nil _

theorem appendsOf (tag : TypeTag) :
    AppendsOf (tag.typeText entry) (tag.valueBytes entry) (tag.appends entry) := by
  cases tag with
  | string => exact string_appendsOf entry
  | list => exact list_appendsOf entry
  | set => exact set_appendsOf entry
  | sortedSet => exact sortedSet_appendsOf entry
  | hash => exact hash_appendsOf entry
  | geo => exact geo_appendsOf entry
  | hyperLogLog => exact hll_appendsOf entry
  | module => exact module_appendsOf entry
  | stream => exact stream_appendsOf entry

theorem pushed_bytesAt {tag : TypeTag} {b : BatchBuilder}
    (hw : b.columns.length = tag.valueFields.length)
    (hrows : (tag.entryRows entry).length = expectedRowCount entry) (i : Nat) :
    (tag.pushed b entry).bytesAt i = b.bytesAt i + (tag.addedBytes entry).getD i 0 := by
  have hspec := appendsOf entry tag
  have hrow : ∀ a ∈ tag.appends entry, rowBytesAt (a.row entry) i =
      (commonBytes entry (tag.typeText entry) ++ a.cells.map Cell.varBytes).getD i 0 := by
    intro a ha
    rw [rowBytesAt, rowBytesAt_row, hspec.typeStr a ha]
  have hsum := sum_append_getD (commonBytes entry (tag.typeText entry))
    (fun a => a.cells.map Cell.varBytes) (tag.valueBytes entry) (tag.appends entry) hspec.values i
  rw [appends_length, hrows] at hsum
  rw [TypeTag.pushed, appendRows_bytesAt entry hw (fun a ha => appends_width entry ha),
    List.map_congr_left hrow, hsum]
  rfl

end Tags

/-! ### A push has its result or panics -/

section Push

variable {tag : TypeTag} {b : BatchBuilder}

theorem OffsetsFit.of_appended {entry : RdbEntry} {a : RowAppend}
    (hw : b.columns.length = a.cells.length) (h : (b.appended entry a).OffsetsFit) : b.OffsetsFit := by
  rw [BatchBuilder.offsetsFit_iff] at h ⊢
  intro i
  have hi := h i
  rw [appended_bytesAt entry hw] at hi
  exact (Nat.le_add_right _ _).trans hi

theorem push_fits_or_panics (entry : RdbEntry) (hw : b.columns.length = tag.valueFields.length)
    (hb : b.OffsetsFit) :
    ((tag.pushed b entry).OffsetsFit → tag.push entry b = (.ok (), tag.pushed b entry)) ∧
      (¬ (tag.pushed b entry).OffsetsFit → ∃ b', tag.push entry b = (.error .panic, b')) := by
  have hrun := Guarded.forM (tag.appends entry) fun a ha =>
    appendRow_guarded entry (appends_width entry ha)
  obtain ⟨-, hok, hpanic⟩ := hrun b hw
  have hall := along_iff (Q := BatchBuilder.OffsetsFit) (f := fun a b => b.appended entry a)
    (I := fun b => b.columns.length = tag.valueFields.length) (tag.appends entry)
    (fun a ha s hs => (appended_width entry (hs.trans (appends_width entry ha).symm)).trans hs)
    (fun a ha s hs => OffsetsFit.of_appended (hs.trans (appends_width entry ha).symm)) hw hb
  rw [← push_eq_appends, hall] at hok hpanic
  exact ⟨hok, hpanic⟩

theorem BatchBuilder.Holds.width {rows : List Row} (h : b.Holds tag rows) :
    b.columns.length = tag.valueFields.length := by
  have hall := h.typed.length_eq
  rw [schemaFor_eq, List.length_append, List.length_append] at hall
  exact (Nat.add_left_cancel hall).symm

theorem push_ok_eq {entry : RdbEntry} {rows : List Row} {b' : BatchBuilder} (h : b.Holds tag rows)
    (hfit : b.OffsetsFit) (hpush : tag.push entry b = (.ok (), b')) : b' = tag.pushed b entry := by
  obtain ⟨hok, hpanic⟩ := push_fits_or_panics entry h.width hfit
  by_cases hfits : (tag.pushed b entry).OffsetsFit
  · exact (Prod.mk.inj (hpush.symm.trans (hok hfits))).2
  · obtain ⟨b₁, hb₁⟩ := hpanic hfits
    cases hpush.symm.trans hb₁

/-- A finished builder is as it was at the start, whatever became of the batch. -/
theorem finish_eq_new {ε : Type} (tryNew : TryNew ε) {rows : List Row} (h : b.Holds tag rows) :
    (b.finish tryNew tag).2 = tag.newBuilder := by
  have hempty : b.columns.map (fun _ => ([] : List Cell)) =
      List.replicate tag.valueFields.length [] := by
    rw [List.map_const', h.width]
  have hnew : tag.newBuilder = ⟨.new, List.replicate tag.valueFields.length []⟩ := by
    cases tag <;> rfl
  unfold BatchBuilder.finish
  rw [hempty, hnew]

/-- An empty builder is within its offsets. -/
theorem BatchBuilder.Holds.offsetsFit (h : b.Holds tag []) : b.OffsetsFit := by
  intro column hc
  rw [List.eq_nil_of_length_eq_zero (h.rect column hc)]
  exact Nat.zero_le _

end Push

end ValkeyRdb
