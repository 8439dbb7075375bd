import ValkeyRdb.Arrow.ChunkSettings
import ValkeyRdb.Arrow.Metadata
import ValkeyRdb.Arrow.Summarize
import ValkeyRdb.Cli.Export

/-!
# Validation (validate.rs)

`validate` reads the file again, under the default chunk limit, and compares its counts
with those of the Parquet files.
-/

namespace ValkeyRdb

/-! ### The output directory -/

/-- What `validate` finds in an output directory: the rows in the files of each tag, if
there are any, and the schema metadata of the first file, if it can be read. -/
structure ParquetDir where
  rows : TypeTag → Option Nat
  firstFile : Option (Option (SortedMap String String))

structure ParquetMeta where
  hasExportedBy : Bool
  heuristics : Finset Heuristic

/-- validate.rs:48 -/
def readParquetMetadata (dir : ParquetDir) : Except String ParquetMeta :=
  match dir.firstFile with
  | none => .ok ⟨false, Heuristic.all⟩
  | some none => .ok ⟨false, Heuristic.all⟩
  | some (some metadata) =>
    match metadata.get? rdbHeuristicsKey with
    | some s =>
      match Heuristic.parseSet s with
      | .ok heuristics => .ok ⟨metadata.contains rdbExportedByKey, heuristics⟩
      | .error e => .error (e ++ " in " ++ rdbHeuristicsKey)
    | none => .ok ⟨metadata.contains rdbExportedByKey, Heuristic.all⟩

/-! ### The comparison (validate.rs:125-192) -/

inductive Status where
  | ok
  | mismatch
  | missing
  | extra
  deriving DecidableEq

/-- The status of one tag; `none` is the branch that goes on to the next tag. -/
def status : Option TypeCount → Option Nat → Option Status
  | some tc, some pq => some (if tc.rows = pq then .ok else .mismatch)
  | some _, none => some .missing
  | none, some _ => some .extra
  | none, none => none

/-- The rows of the printed table: the tags present on either side. -/
def statuses (totals : SortedMap TypeTag TypeCount) (parquet : TypeTag → Option Nat) :
    List (TypeTag × Status) :=
  (TypeTag.all.filter fun tag => totals.contains tag || (parquet tag).isSome).filterMap fun tag =>
    (status (totals.get? tag) (parquet tag)).map (tag, ·)

/-- The errors that the comparison itself has; the command reports each as one of its own. -/
inductive CompareError where
  | usage (message : String)
  | rdb (f : Fault)
  | validationFailed (message : String)
  deriving DecidableEq

def validationFailure (failCount total : Nat) : CompareError :=
  .validationFailed ("FAIL: " ++ toString failCount ++ " of " ++ toString total ++
    " types mismatched")

/-- validate.rs:12; the reader keeps the default chunk limit. -/
def countRdb (input : Bytes) (heuristics : Finset Heuristic) : Except CompareError EntrySummary :=
  match RdbReader.new input with
  | .error f => .error (.rdb f)
  | .ok reader =>
    match summarizeEntries reader heuristics with
    | .error f => .error (.rdb f)
    | .ok summary => .ok summary

/-- validate.rs:105 -/
def validate (input : Bytes) (dir : ParquetDir) : Except CompareError Unit :=
  match readParquetMetadata dir with
  | .error e => .error (.usage e)
  | .ok parquetMeta =>
    match countRdb input parquetMeta.heuristics with
    | .error e => .error e
    | .ok rdb =>
      let table := statuses rdb.totals dir.rows
      let failCount := table.countP fun row => row.2 != .ok
      if failCount = 0 then .ok () else .error (validationFailure failCount table.length)

/-- The rows of some batches under a tag, if there is a batch with it. -/
def parquetRows (batches : List TypedBatch) (tag : TypeTag) : Option Nat :=
  if ∃ b ∈ batches, b.tag = tag then some (batchRows tag batches) else none

/-- The directory of an export: a file for each tag of its batches, with their rows and the
metadata of the export. -/
def exportedDir (metadata : SortedMap String String) (batches : List TypedBatch) : ParquetDir where
  rows := parquetRows batches
  firstFile := if batches = [] then none else some (some metadata)

/-! ### What the comparison decides -/

theorem status_eq_ok {tc : Option TypeCount} {pq : Option Nat} {s : Status}
    (h : status tc pq = some s) : s = .ok ↔ tc.map TypeCount.rows = pq := by
  cases tc <;> cases pq <;> simp only [status, Option.some.injEq, reduceCtorEq] at h
  all_goals subst h; simp

theorem statuses_ok_iff (totals : SortedMap TypeTag TypeCount) (parquet : TypeTag → Option Nat) :
    (statuses totals parquet).countP (fun row => row.2 != .ok) = 0 ↔
      ∀ tag, (totals.get? tag).map TypeCount.rows = parquet tag := by
  rw [List.countP_eq_zero]
  constructor
  · intro h tag
    cases hs : status (totals.get? tag) (parquet tag) with
    | none =>
      cases ht : totals.get? tag <;> cases hp : parquet tag <;>
        simp only [status, ht, hp, reduceCtorEq] at hs
      rfl
    | some s =>
      have hlisted : (totals.contains tag || (parquet tag).isSome) = true := by
        cases ht : totals.get? tag <;> cases hp : parquet tag <;>
          simp [SortedMap.contains, status, ht, hp] at hs ⊢
      have hmem : (tag, s) ∈ statuses totals parquet := by
        unfold statuses
        apply List.mem_filterMap.mpr
        exact ⟨tag, List.mem_filter.mpr ⟨TypeTag.mem_all tag, hlisted⟩, by simp [hs]⟩
      have hok : s = .ok := by simpa using h _ hmem
      exact (status_eq_ok hs).mp hok
  · rintro h ⟨tag, s⟩ hrow
    unfold statuses at hrow
    obtain ⟨tag', -, hs⟩ := List.mem_filterMap.mp hrow
    obtain ⟨s', hs', hpair⟩ := Option.map_eq_some_iff.mp hs
    obtain ⟨rfl, rfl⟩ := Prod.mk.inj hpair
    have hok := (status_eq_ok hs').mpr (h tag')
    simp [hok]

end ValkeyRdb
