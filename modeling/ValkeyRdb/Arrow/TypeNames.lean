import ValkeyRdb.Arrow.Metadata
import ValkeyRdb.Lib.NameList

/-!
# Names of types and heuristics (schema.rs:26-173)

Both kinds of sets are read from comma-separated names in any case.
-/

namespace ValkeyRdb

def toAsciiLowercase (s : List Char) : List Char := s.map Char.toLower

namespace TypeTag

/-- schema.rs:138 -/
def validCliNames : String := "string, list, set, zset, hash, geo, hll, module, stream"

/-- schema.rs:157 -/
def fromCliName (s : List Char) : Option TypeTag :=
  match String.ofList (toAsciiLowercase s) with
  | "string" => some .string
  | "list" => some .list
  | "set" => some .set
  | "zset" => some .sortedSet
  | "hash" => some .hash
  | "geo" => some .geo
  | "hll" | "hyperloglog" => some .hyperLogLog
  | "module" => some .module
  | "stream" => some .stream
  | _ => none

def unknownType (name : List Char) : String :=
  "unknown type '" ++ String.ofList name ++ "'. Valid: " ++ validCliNames

/-- schema.rs:143 -/
def parseSet (s : String) : Except String (Finset TypeTag) :=
  readNames (fun part => fromCliName (trim part)) (fun part => unknownType (trim part))
    (s.toList.splitOn ',') ∅

/-- A set is accepted exactly when all its parts name types, and is then the set of these. -/
theorem parseSet_ok_iff (s : String) (tags : Finset TypeTag) : parseSet s = .ok tags ↔
    (∀ part ∈ s.toList.splitOn ',', (fromCliName (trim part)).isSome = true) ∧
      ∀ tag, tag ∈ tags ↔ ∃ part ∈ s.toList.splitOn ',', fromCliName (trim part) = some tag := by
  unfold parseSet
  rw [readNames_ok_iff]
  simp

/-- It is refused at the first part that names no type, and the text names that part. -/
theorem parseSet_error_iff (s message : String) : parseSet s = .error message ↔
    ∃ before part after, s.toList.splitOn ',' = before ++ part :: after ∧
      (∀ p ∈ before, (fromCliName (trim p)).isSome = true) ∧ fromCliName (trim part) = none ∧
        message = unknownType (trim part) := by
  unfold parseSet
  exact readNames_error_iff

end TypeTag

theorem Heuristic.parseNames_eq (parts : List (List Char)) (set : Finset Heuristic) :
    Heuristic.parseNames parts set = readNames (fun part => fromName (trim part))
      (fun part => unknownHeuristic (trim part)) parts set := by
  induction parts generalizing set with
  | nil => rfl
  | cons part parts ih =>
    rw [Heuristic.parseNames, readNames]
    cases fromName (trim part) with
    | none => rfl
    | some h => exact ih _

/-- The same of heuristics, where "all" and "none" stand for sets. -/
theorem Heuristic.parseSet_error_iff (s message : String) : Heuristic.parseSet s = .error message ↔
    (¬eqIgnoreAsciiCase s.toList "all".toList ∧ ¬eqIgnoreAsciiCase s.toList "none".toList) ∧
      ∃ before part after, s.toList.splitOn ',' = before ++ part :: after ∧
        (∀ p ∈ before, (fromName (trim p)).isSome = true) ∧ fromName (trim part) = none ∧
          message = unknownHeuristic (trim part) := by
  unfold Heuristic.parseSet
  by_cases hall : eqIgnoreAsciiCase s.toList "all".toList = true
  · rw [if_pos hall]
    exact iff_of_false (fun h => by cases h) fun h => h.1.1 hall
  by_cases hnone : eqIgnoreAsciiCase s.toList "none".toList = true
  · rw [if_neg hall, if_pos hnone]
    exact iff_of_false (fun h => by cases h) fun h => h.1.2 hnone
  rw [if_neg hall, if_neg hnone, Heuristic.parseNames_eq, readNames_error_iff]
  exact (and_iff_right ⟨hall, hnone⟩).symm

end ValkeyRdb
