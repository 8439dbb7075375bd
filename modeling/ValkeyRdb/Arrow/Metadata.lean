import Mathlib.Data.List.DropRight
import Mathlib.Data.String.Basic
import ValkeyRdb.Arrow.Schema
import ValkeyRdb.Reader.Iterator

/-!
# Recorded heuristics (schema.rs:21-77, writer.rs:189-233)

The names of heuristics, and the file metadata in which an export records them.
-/

namespace ValkeyRdb

/-! ### Text -/

/-- `eq_ignore_ascii_case` -/
def eqIgnoreAsciiCase (s t : List Char) : Bool := s.map Char.toLower == t.map Char.toLower

/-- The characters that `str::trim` removes. -/
def isWhiteSpace (c : Char) : Bool :=
  let n := c.toNat
  (9 ≤ n && n ≤ 13) || n == 0x20 || n == 0x85 || n == 0xa0 || n == 0x1680 ||
    (0x2000 ≤ n && n ≤ 0x200a) || n == 0x2028 || n == 0x2029 || n == 0x202f || n == 0x205f ||
    n == 0x3000

def trim (s : List Char) : List Char :=
  (s.dropWhile isWhiteSpace).rdropWhile isWhiteSpace

namespace Heuristic

/-! ### Names -/

/-- schema.rs:26 -/
def fromName (s : List Char) : Option Heuristic :=
  if eqIgnoreAsciiCase s "geo".toList then some .geo else none

def asStr : Heuristic → String
  | .geo => "geo"

def unknownHeuristic (name : List Char) : String :=
  "unknown heuristic '" ++ String.ofList name ++ "'. Valid: all, geo, none"

def parseNames : List (List Char) → Finset Heuristic → Except String (Finset Heuristic)
  | [], set => .ok set
  | part :: parts, set =>
    match fromName (trim part) with
    | some h => parseNames parts (insert h set)
    | none => .error (unknownHeuristic (trim part))

/-- schema.rs:45 -/
def parseSet (s : String) : Except String (Finset Heuristic) :=
  if eqIgnoreAsciiCase s.toList "all".toList then .ok all
  else if eqIgnoreAsciiCase s.toList "none".toList then .ok ∅
  else parseNames (s.toList.splitOn ',') ∅

/-- schema.rs:69 -/
def formatSet (heuristics : Finset Heuristic) : String :=
  if heuristics = ∅ then "none"
  else
    let names := ([geo].filter (· ∈ heuristics)).map asStr
    String.intercalate "," (names.mergeSort fun a b => decide (a ≤ b))

theorem parseSet_formatSet (heuristics : Finset Heuristic) :
    parseSet (formatSet heuristics) = .ok heuristics := by
  by_cases hg : .geo ∈ heuristics
  · have hset : heuristics = {.geo} := by
      ext h
      cases h
      simp [hg]
    have hformat : formatSet {.geo} = "geo" := by
      have hne : ({.geo} : Finset Heuristic) ≠ ∅ := Finset.singleton_ne_empty _
      unfold formatSet
      rw [if_neg hne]
      simp [asStr]
    rw [hset, hformat]
    decide
  · have hset : heuristics = ∅ := by
      ext h
      cases h
      simp [hg]
    rw [hset]
    decide

end Heuristic

/-! ### File metadata (writer.rs) -/

def rdbExportedByKey : String := "rdb.exported_by"

def rdbHeuristicsKey : String := "rdb.heuristics"

def rdbExportedByValue : String := "valkey-rdb-tools"

/-- writer.rs:216 -/
def metadataFromRdb (metadata : RdbMetadata) (heuristics : Finset Heuristic) :
    SortedMap String String :=
  let aux : SortedMap String String := metadata.aux.entries.foldl
    (fun map kv => map.insert ("rdb." ++ utf8Text kv.1) (utf8Text kv.2)) .empty
  (aux.insert rdbExportedByKey rdbExportedByValue).insert rdbHeuristicsKey
    (Heuristic.formatSet heuristics)

/-- The heuristics are those of the export even when the file has a field of that name. -/
theorem metadataFromRdb_heuristics (metadata : RdbMetadata) (heuristics : Finset Heuristic) :
    (metadataFromRdb metadata heuristics).get? rdbHeuristicsKey =
      some (Heuristic.formatSet heuristics) :=
  SortedMap.get?_insert_self _ _ _

theorem metadataFromRdb_exportedBy (metadata : RdbMetadata) (heuristics : Finset Heuristic) :
    (metadataFromRdb metadata heuristics).get? rdbExportedByKey = some rdbExportedByValue := by
  unfold metadataFromRdb
  rw [SortedMap.get?_insert_of_ne _ _ (by decide), SortedMap.get?_insert_self]

end ValkeyRdb
