import Mathlib.Data.Finset.Basic
import Mathlib.Order.Basic
import ValkeyRdb.Arrow.Detect

/-!
# Type tags and schemas (schema.rs)
-/

namespace ValkeyRdb

inductive Heuristic where
  | geo
  deriving DecidableEq

/-- schema.rs:23 -/
def Heuristic.all : Finset Heuristic := {.geo}

/-! ### Type tags (schema.rs:89) -/

inductive TypeTag where
  | string
  | list
  | set
  | sortedSet
  | hash
  | geo
  | hyperLogLog
  | module
  | stream
  deriving DecidableEq

namespace TypeTag

/-- The place in declaration order, which the derived `Ord` compares. -/
def ordinal : TypeTag → Nat
  | .string => 0
  | .list => 1
  | .set => 2
  | .sortedSet => 3
  | .hash => 4
  | .geo => 5
  | .hyperLogLog => 6
  | .module => 7
  | .stream => 8

theorem ordinal_injective : Function.Injective ordinal := by
  intro a b h
  cases a <;> cases b <;> first | rfl | cases h

instance : LinearOrder TypeTag := LinearOrder.lift' ordinal ordinal_injective

/-- schema.rs:119 -/
def all : List TypeTag :=
  [.string, .list, .set, .sortedSet, .hash, .geo, .hyperLogLog, .module, .stream]

theorem mem_all (tag : TypeTag) : tag ∈ all := by cases tag <;> decide

theorem all_nodup : all.Nodup := by decide

theorem all_sorted : all.Pairwise (· < ·) := by decide

end TypeTag

/-! ### Classification -/

/-- schema.rs:191 -/
def typeTagFor (entry : RdbEntry) : Option TypeTag :=
  match entry.value with
  | .string data => if isHll data then some .hyperLogLog else some .string
  | .list _ => some .list
  | .set _ => some .set
  | .sortedSet _ => some .sortedSet
  | .hash _ => some .hash
  | .module _ => some .module
  | .stream _ => some .stream

/-- schema.rs:214 -/
def expectedRowCount (entry : RdbEntry) : Nat :=
  match entry.value with
  | .string _ => 1
  | .list elems => max elems.length 1
  | .set members => max members.length 1
  | .sortedSet pairs => max pairs.length 1
  | .hash fields => max fields.length 1
  | .module data => max data.values.length 1
  | .stream data => max (data.entries.map fun e => max e.fields.length 1).sum 1

/-- schema.rs:243; a chunk never counts as geo. -/
def isGeoEntry (entry : RdbEntry) : Bool :=
  if entry.totalElements.isSome then false
  else
    match entry.value with
    | .sortedSet members => isGeo members
    | _ => false

/-- schema.rs:263 -/
def shouldEmitGeo (heuristics : Finset Heuristic) (tag : TypeTag) (entry : RdbEntry) : Bool :=
  decide (.geo ∈ heuristics) && tag == .sortedSet && isGeoEntry entry

theorem shouldEmitGeo_iff {heuristics : Finset Heuristic} {tag : TypeTag} {entry : RdbEntry} :
    shouldEmitGeo heuristics tag entry = true ↔
      .geo ∈ heuristics ∧ tag = .sortedSet ∧ isGeoEntry entry = true := by
  simp [shouldEmitGeo, and_assoc]

theorem typeTagFor_isSome (entry : RdbEntry) : ∃ tag, typeTagFor entry = some tag := by
  unfold typeTagFor
  split
  · split
    · exact ⟨_, rfl⟩
    · exact ⟨_, rfl⟩
  all_goals exact ⟨_, rfl⟩

/-- The primary tag is never `Geo` (the assertion at batcher.rs:194). -/
theorem typeTagFor_ne_geo (entry : RdbEntry) : typeTagFor entry ≠ some .geo := by
  unfold typeTagFor
  split
  · split <;> simp
  all_goals simp

theorem expectedRowCount_pos (entry : RdbEntry) : 0 < expectedRowCount entry := by
  unfold expectedRowCount
  split <;> omega

theorem isGeoEntry_sortedSet {entry : RdbEntry} (h : isGeoEntry entry = true) :
    ∃ members, entry.value = .sortedSet members ∧ isGeo members = true := by
  unfold isGeoEntry at h
  split at h
  · cases h
  · split at h
    · rename_i members hv
      exact ⟨members, hv, h⟩
    · cases h

/-! ### Schemas (schema.rs:273-356) -/

inductive DataType where
  | uint8
  | uint32
  | uint64
  | int64
  | float64
  | utf8
  | binary
  deriving DecidableEq

structure Field where
  name : String
  dataType : DataType
  nullable : Bool
  deriving DecidableEq

/-- schema.rs:273 -/
def commonFields : List Field :=
  [⟨"db", .uint32, false⟩, ⟨"key", .binary, false⟩, ⟨"type", .utf8, false⟩,
    ⟨"expiry_ms", .int64, true⟩, ⟨"lru_idle_secs", .uint64, true⟩, ⟨"lfu_frequency", .uint8, true⟩,
    ⟨"encoding", .utf8, false⟩, ⟨"num_elements", .uint64, false⟩]

def stringSchema : List Field := commonFields ++ [⟨"value", .binary, false⟩]

def listSchema : List Field :=
  commonFields ++ [⟨"index", .uint64, true⟩, ⟨"element", .binary, true⟩]

def setSchema : List Field := commonFields ++ [⟨"member", .binary, true⟩]

def sortedSetSchema : List Field :=
  commonFields ++ [⟨"member", .binary, true⟩, ⟨"score", .float64, true⟩]

def hashSchema : List Field :=
  commonFields ++
    [⟨"field", .binary, true⟩, ⟨"field_value", .binary, true⟩, ⟨"field_expiry_ms", .int64, true⟩]

def geoSchema : List Field :=
  commonFields ++
    [⟨"member", .binary, true⟩, ⟨"longitude", .float64, true⟩, ⟨"latitude", .float64, true⟩,
      ⟨"geohash_score", .float64, true⟩]

def hllSchema : List Field :=
  commonFields ++
    [⟨"hll_encoding", .utf8, false⟩, ⟨"cached_cardinality", .int64, false⟩,
      ⟨"raw_value", .binary, false⟩]

def moduleSchema : List Field :=
  commonFields ++
    [⟨"module_name", .utf8, false⟩, ⟨"module_version", .uint32, false⟩,
      ⟨"value_index", .uint32, false⟩, ⟨"opcode", .utf8, false⟩, ⟨"int_value", .uint64, true⟩,
      ⟨"double_value", .float64, true⟩, ⟨"string_value", .binary, true⟩]

def streamSchema : List Field :=
  commonFields ++
    [⟨"stream_id", .utf8, true⟩, ⟨"field", .binary, true⟩, ⟨"field_value", .binary, true⟩]

/-- schema.rs:358 -/
def schemaFor : TypeTag → List Field
  | .string => stringSchema
  | .list => listSchema
  | .set => setSchema
  | .sortedSet => sortedSetSchema
  | .hash => hashSchema
  | .geo => geoSchema
  | .hyperLogLog => hllSchema
  | .module => moduleSchema
  | .stream => streamSchema

theorem schemaFor_names_nodup (tag : TypeTag) : ((schemaFor tag).map Field.name).Nodup := by
  cases tag <;> decide

end ValkeyRdb
