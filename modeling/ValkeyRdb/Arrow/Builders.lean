import ValkeyRdb.Lib.Columns
import ValkeyRdb.Lib.GuardedAction
import ValkeyRdb.Arrow.Schema

/-!
# Batch builders (builders.rs)

A column builder is the list of the cells appended to it. All nine batch builders have
one shape: the common columns, and the type-specific columns in the order in which
`finish` hands them over, which is also the order of the appends. A column of texts or
byte strings takes no more than its 32-bit offsets can say: the append beyond panics, in
the middle of a row.
-/

namespace ValkeyRdb

open StateAction (zoom modify)

/-- One appended value, or a null. -/
inductive Cell where
  | null
  | uint8 (v : UInt8)
  | uint32 (v : Nat)
  | uint64 (v : Nat)
  | int64 (v : Int)
  | float64 (v : F64)
  | utf8 (v : String)
  | binary (v : Bytes)
  deriving DecidableEq

abbrev Row := List Cell

/-- `append_value` or `append_null`. -/
def Cell.ofOption {α : Type} (f : α → Cell) : Option α → Cell
  | some v => f v
  | none => .null

/-- `a.saturating_add(b)` on `u64`. -/
def satAdd64 (a b : Nat) : Nat := min (a + b) (2 ^ 64 - 1)

/-! ### Column builders -/

/-- The bytes of a value in a `StringBuilder` or `BinaryBuilder`. -/
def Cell.varBytes : Cell → Nat
  | .utf8 v => v.utf8ByteSize
  | .binary v => v.length
  | _ => 0

def columnBytes (column : List Cell) : Nat := (column.map Cell.varBytes).sum

/-- The largest offset of a `StringArray` or `BinaryArray`, an `i32`. -/
def maxOffset : Nat := 2 ^ 31 - 1

/-- `append_value` or `append_null` of a column builder. The next offset is made from the
bytes with the new value, and Arrow panics when that is too large. -/
def appendCell (cell : Cell) : StateAction (List Cell) Fault Unit := fun column =>
  if columnBytes column + cell.varBytes ≤ maxOffset then (.ok (), column ++ [cell])
  else (.error .panic, column)

/-- The appends of one row, column by column. -/
def appendCells : List Cell → StateAction (List (List Cell)) Fault Unit
  | [], columns => (.ok (), columns)
  | _ :: _, [] => (.ok (), [])
  | cell :: cells, column :: columns =>
    match appendCell cell column with
    | (.ok (), column) => ((appendCells cells columns).1, column :: (appendCells cells columns).2)
    | (.error f, column) => (.error f, column :: columns)

/-! ### Common columns (builders.rs:64-149) -/

structure CommonColumnsBuilder where
  db : List Cell
  key : List Cell
  typeCol : List Cell
  expiryMs : List Cell
  lruIdleSecs : List Cell
  lfuFrequency : List Cell
  encoding : List Cell
  numElements : List Cell
  len : Nat
  dataBytes : Nat
  deriving DecidableEq

namespace CommonColumnsBuilder

def new : CommonColumnsBuilder := ⟨[], [], [], [], [], [], [], [], 0, 0⟩

/-- builders.rs:94. The counters come last, so that a row that panics is not counted. -/
def append (entry : RdbEntry) (numElements : Nat) (typeStr : String) (typeSpecificBytes : Nat) :
    StateAction CommonColumnsBuilder Fault Unit := do
  zoom db (fun c b => { b with db := c }) (appendCell (.uint32 entry.db))
  zoom key (fun c b => { b with key := c }) (appendCell (.binary entry.key))
  zoom typeCol (fun c b => { b with typeCol := c }) (appendCell (.utf8 typeStr))
  zoom expiryMs (fun c b => { b with expiryMs := c })
    (appendCell (Cell.ofOption .int64 entry.expiryMs))
  zoom lruIdleSecs (fun c b => { b with lruIdleSecs := c })
    (appendCell (Cell.ofOption .uint64 entry.lruIdleSecs))
  zoom lfuFrequency (fun c b => { b with lfuFrequency := c })
    (appendCell (Cell.ofOption .uint8 entry.lfuFrequency))
  zoom encoding (fun c b => { b with encoding := c }) (appendCell (.utf8 entry.encodingName))
  zoom CommonColumnsBuilder.numElements (fun c b => { b with numElements := c })
    (appendCell (.uint64 numElements))
  modify fun b => { b with
    len := b.len + 1
    dataBytes := b.dataBytes + (entry.key.length + typeSpecificBytes) }

/-- The arrays of `finish`. -/
def columns (b : CommonColumnsBuilder) : List (List Cell) :=
  [b.db, b.key, b.typeCol, b.expiryMs, b.lruIdleSecs, b.lfuFrequency, b.encoding, b.numElements]

end CommonColumnsBuilder

/-! ### The shape of a batch builder -/

structure BatchBuilder where
  common : CommonColumnsBuilder
  columns : List (List Cell)
  deriving DecidableEq

structure RecordBatch where
  schema : List Field
  columns : List (List Cell)
  deriving DecidableEq

/-- `num_rows`, the length of the first column. -/
def RecordBatch.numRows (batch : RecordBatch) : Nat := (batch.columns.headD []).length

def RecordBatch.rows (batch : RecordBatch) : List Row := rowsOf batch.numRows batch.columns

namespace BatchBuilder

/-- A builder with `width` type-specific columns. -/
def new (width : Nat) : BatchBuilder := ⟨.new, List.replicate width []⟩

def len (b : BatchBuilder) : Nat := b.common.len

def isEmpty (b : BatchBuilder) : Bool := b.common.len == 0

def dataBytes (b : BatchBuilder) : Nat := b.common.dataBytes

/-- The arrays of `finish`, in its order. -/
def allColumns (b : BatchBuilder) : List (List Cell) := b.common.columns ++ b.columns

/-- One row: the common columns, and then a cell for each type-specific column. -/
def append (entry : RdbEntry) (numElements : Nat) (typeStr : String) (typeSpecificBytes : Nat)
    (cells : List Cell) : StateAction BatchBuilder Fault Unit := do
  zoom common (fun c b => { b with common := c })
    (CommonColumnsBuilder.append entry numElements typeStr typeSpecificBytes)
  zoom columns (fun c b => { b with columns := c }) (appendCells cells)

end BatchBuilder

/-! ### The nine builders -/

namespace StringBatchBuilder

def new : BatchBuilder := .new 1

/-- builders.rs:176 -/
def push (entry : RdbEntry) : StateAction BatchBuilder Fault Unit :=
  match entry.value with
  | .string v => BatchBuilder.append entry 1 entry.typeName v.length [.binary v]
  | _ => pure ()

end StringBatchBuilder

namespace ListBatchBuilder

def new : BatchBuilder := .new 2

/-- builders.rs:217 -/
def push (entry : RdbEntry) : StateAction BatchBuilder Fault Unit :=
  match entry.value with
  | .list elements =>
    let numElements := entry.totalElements.getD elements.length
    let offset := entry.elementOffset.getD 0
    if elements.isEmpty then BatchBuilder.append entry 0 entry.typeName 0 [.null, .null]
    else forM elements.zipIdx fun elem =>
      BatchBuilder.append entry numElements entry.typeName elem.1.length
        [.uint64 (satAdd64 offset elem.2), .binary elem.1]
  | _ => pure ()

end ListBatchBuilder

namespace SetBatchBuilder

def new : BatchBuilder := .new 1

/-- builders.rs:268 -/
def push (entry : RdbEntry) : StateAction BatchBuilder Fault Unit :=
  match entry.value with
  | .set members =>
    let numElements := entry.totalElements.getD members.length
    if members.isEmpty then BatchBuilder.append entry 0 entry.typeName 0 [.null]
    else forM members fun m =>
      BatchBuilder.append entry numElements entry.typeName m.length [.binary m]
  | _ => pure ()

end SetBatchBuilder

namespace SortedSetBatchBuilder

def new : BatchBuilder := .new 2

/-- builders.rs:316 -/
def push (entry : RdbEntry) : StateAction BatchBuilder Fault Unit :=
  match entry.value with
  | .sortedSet pairs =>
    let numElements := entry.totalElements.getD pairs.length
    if pairs.isEmpty then BatchBuilder.append entry 0 entry.typeName 0 [.null, .null]
    else forM pairs fun p =>
      BatchBuilder.append entry numElements entry.typeName (p.1.length + 8)
        [.binary p.1, .float64 p.2]
  | _ => pure ()

end SortedSetBatchBuilder

namespace HashBatchBuilder

def new : BatchBuilder := .new 3

/-- builders.rs:370 -/
def push (entry : RdbEntry) : StateAction BatchBuilder Fault Unit :=
  match entry.value with
  | .hash fields =>
    let numElements := entry.totalElements.getD fields.length
    if fields.isEmpty then BatchBuilder.append entry 0 entry.typeName 0 [.null, .null, .null]
    else forM fields fun hf =>
      BatchBuilder.append entry numElements entry.typeName (hf.field.length + hf.value.length)
        [.binary hf.field, .binary hf.value, Cell.ofOption .int64 hf.expiryMs]
  | _ => pure ()

end HashBatchBuilder

namespace GeoBatchBuilder

def new : BatchBuilder := .new 4

/-- builders.rs:439 -/
def push (entry : RdbEntry) : StateAction BatchBuilder Fault Unit :=
  match entry.value with
  | .sortedSet pairs =>
    let numElements := entry.totalElements.getD pairs.length
    if pairs.isEmpty then BatchBuilder.append entry 0 "geo" 0 [.null, .null, .null, .null]
    else forM pairs fun p =>
      BatchBuilder.append entry numElements "geo" (p.1.length + 24)
        [.binary p.1, Cell.ofOption (fun d => .float64 d.1) (geohashDecode p.2),
          Cell.ofOption (fun d => .float64 d.2) (geohashDecode p.2), .float64 p.2]
  | _ => pure ()

end GeoBatchBuilder

namespace HllBatchBuilder

def new : BatchBuilder := .new 3

/-- builders.rs:506 -/
def push (entry : RdbEntry) : StateAction BatchBuilder Fault Unit :=
  match entry.value with
  | .string data =>
    BatchBuilder.append entry 1 "hyperloglog" data.length
      [.utf8 (hllEncoding data), .int64 (hllCachedCardinality data), .binary data]
  | _ => pure ()

end HllBatchBuilder

namespace StreamBatchBuilder

def new : BatchBuilder := .new 3

/-- The rows of one stream entry: its fields, or one row without a field. -/
def pushEntry (entry : RdbEntry) (numElements : Nat) (e : StreamEntry) :
    StateAction BatchBuilder Fault Unit :=
  if e.fields.isEmpty then
    BatchBuilder.append entry numElements "stream" e.id.utf8ByteSize [.utf8 e.id, .null, .null]
  else forM e.fields fun fv =>
    BatchBuilder.append entry numElements "stream" (e.id.utf8ByteSize + fv.1.length + fv.2.length)
      [.utf8 e.id, .binary fv.1, .binary fv.2]

/-- builders.rs:556 -/
def push (entry : RdbEntry) : StateAction BatchBuilder Fault Unit :=
  match entry.value with
  | .stream data =>
    let numElements := if 0 < data.length then data.length else data.entries.length
    if data.entries.isEmpty then
      BatchBuilder.append entry numElements "stream" 0 [.null, .null, .null]
    else forM data.entries fun e => pushEntry entry numElements e
  | _ => pure ()

end StreamBatchBuilder

namespace ModuleBatchBuilder

def new : BatchBuilder := .new 7

def emptyModuleOpcode : String := "eof"

/-- builders.rs:664 -/
def moduleOpcode : ModuleValue → String
  | .signedInt _ => "sint"
  | .unsignedInt _ => "uint"
  | .float _ => "float"
  | .double _ => "double"
  | .string _ => "string"

/-- builders.rs:682 -/
def moduleValueBytes : ModuleValue → Nat
  | .signedInt _ | .unsignedInt _ => 8
  | .float _ | .double _ => 8
  | .string v => v.length

def moduleOpcodeBytes (val : ModuleValue) : Nat := (moduleOpcode val).utf8ByteSize

/-- builders.rs:703 -/
def moduleRowBytes (data : ModuleData) (val : ModuleValue) : Nat :=
  data.moduleName.length + 4 + 4 + moduleOpcodeBytes val + moduleValueBytes val

/-- builders.rs:712 -/
def emptyModuleRowBytes (data : ModuleData) : Nat :=
  data.moduleName.length + 4 + 4 + emptyModuleOpcode.utf8ByteSize

/-- The cells of `int_value`, `double_value` and `string_value` (builders.rs:756-784). -/
def valueCells : ModuleValue → List Cell
  | .signedInt v => [.uint64 (v % 2 ^ 64).toNat, .null, .null]
  | .unsignedInt v => [.uint64 v, .null, .null]
  | .float v => [.null, .float64 v.toF64, .null]
  | .double v => [.null, .float64 v, .null]
  | .string v => [.null, .null, .binary v]

/-- builders.rs:724 -/
def push (entry : RdbEntry) : StateAction BatchBuilder Fault Unit :=
  match entry.value with
  | .module data =>
    let numElements := entry.totalElements.getD data.values.length
    if data.values.isEmpty then
      BatchBuilder.append entry 0 "module" (emptyModuleRowBytes data)
        [.utf8 (utf8Text data.moduleName), .uint32 data.moduleVersion, .uint32 0,
          .utf8 emptyModuleOpcode, .null, .null, .null]
    else forM data.values.zipIdx fun val =>
      BatchBuilder.append entry numElements "module" (moduleRowBytes data val.1)
        ([.utf8 (utf8Text data.moduleName), .uint32 data.moduleVersion,
          .uint32 (val.2 % 2 ^ 32), .utf8 (moduleOpcode val.1)] ++ valueCells val.1)
  | _ => pure ()

end ModuleBatchBuilder

/-! ### Dispatch through the trait -/

namespace TypeTag

/-- `new` of the builder of a tag. -/
def newBuilder : TypeTag → BatchBuilder
  | .string => StringBatchBuilder.new
  | .list => ListBatchBuilder.new
  | .set => SetBatchBuilder.new
  | .sortedSet => SortedSetBatchBuilder.new
  | .hash => HashBatchBuilder.new
  | .geo => GeoBatchBuilder.new
  | .hyperLogLog => HllBatchBuilder.new
  | .module => ModuleBatchBuilder.new
  | .stream => StreamBatchBuilder.new

/-- `BatchBuilder::push` of the builder of a tag. -/
def push : TypeTag → RdbEntry → StateAction BatchBuilder Fault Unit
  | .string => StringBatchBuilder.push
  | .list => ListBatchBuilder.push
  | .set => SetBatchBuilder.push
  | .sortedSet => SortedSetBatchBuilder.push
  | .hash => HashBatchBuilder.push
  | .geo => GeoBatchBuilder.push
  | .hyperLogLog => HllBatchBuilder.push
  | .module => ModuleBatchBuilder.push
  | .stream => StreamBatchBuilder.push

end TypeTag

/-! ### Finishing a batch -/

/-- `RecordBatch::try_new` of Arrow, which reports its own errors. -/
abbrev TryNew (ε : Type) := List Field → List (List Cell) → Except ε RecordBatch

/-- `BatchBuilder::finish` of the builder of a tag: it is empty again whatever becomes
of the batch. -/
def BatchBuilder.finish {ε : Type} (tryNew : TryNew ε) (tag : TypeTag) (b : BatchBuilder) :
    Except ε RecordBatch × BatchBuilder :=
  (tryNew (schemaFor tag) (b.common.columns ++ b.columns), ⟨.new, b.columns.map fun _ => []⟩)

end ValkeyRdb
