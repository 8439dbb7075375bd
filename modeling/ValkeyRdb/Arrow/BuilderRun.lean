import ValkeyRdb.Arrow.ColumnBytes

/-!
# Runs of one builder

Any sequence of pushes that return, and finishes, keeps the columns of a builder a table of
its schema, so that a finish succeeds and returns the rows since the last one.
-/

namespace ValkeyRdb

open StateAction (run_bind_ok run_bind_error)

inductive BuilderOp where
  | push (entry : RdbEntry)
  | finish

/-- The column builders of `CommonColumnsBuilder` by their types (builders.rs:60). -/
def CommonColumnsBuilder.types : List DataType :=
  [.uint32, .binary, .utf8, .int64, .uint64, .uint8, .utf8, .uint64]

/-- The column builders of a tag by their types, which an array has also when it holds
nothing but nulls. -/
def TypeTag.columnTypes (tag : TypeTag) : List DataType :=
  CommonColumnsBuilder.types ++
    match tag with
    | .string => [.binary]
    | .list => [.uint64, .binary]
    | .set => [.binary]
    | .sortedSet => [.binary, .float64]
    | .hash => [.binary, .binary, .int64]
    | .geo => [.binary, .float64, .float64, .float64]
    | .hyperLogLog => [.utf8, .int64, .binary]
    | .module => [.utf8, .uint32, .uint32, .utf8, .uint64, .float64, .binary]
    | .stream => [.utf8, .binary, .binary]

theorem columnTypes_eq_schema (tag : TypeTag) :
    tag.columnTypes = (schemaFor tag).map Field.dataType := by
  cases tag <;> rfl

section Run

variable {ε : Type} (tryNew : TryNew ε) (tag : TypeTag)

def BuilderOp.apply : BuilderOp → StateAction BatchBuilder Fault Unit
  | .push entry => tag.push entry
  | .finish => .modify fun b => (b.finish tryNew tag).2

/-- The operations in turn, up to the first panic. -/
def TypeTag.runOps (ops : List BuilderOp) : StateAction BatchBuilder Fault Unit :=
  forM ops (BuilderOp.apply tryNew tag)

/-- What an operation does to the rows since the last finish. -/
def BuilderOp.applyRows (rows : List Row) : BuilderOp → List Row
  | .push entry => rows ++ tag.entryRows entry
  | .finish => []

def TypeTag.rowsSinceFinish (ops : List BuilderOp) : List Row :=
  ops.foldl (BuilderOp.applyRows tag) []

variable {tryNew tag}

theorem apply_holds (ht : TryNewAccepts tryNew) {b : BatchBuilder} {rows : List Row}
    (h : b.Holds tag rows) (hfit : b.OffsetsFit) (op : BuilderOp) :
    (∃ b', op.apply tryNew tag b = (.ok (), b') ∧ b'.Holds tag (op.applyRows tag rows) ∧
      b'.OffsetsFit) ∨ ∃ b', op.apply tryNew tag b = (.error .panic, b') := by
  cases op with
  | push entry =>
    obtain ⟨hok, hpanic⟩ := push_fits_or_panics entry h.width hfit
    by_cases hfits : (tag.pushed b entry).OffsetsFit
    · exact .inl ⟨_, hok hfits, pushed_holds h entry, hfits⟩
    · exact .inr (hpanic hfits)
  | finish =>
    obtain ⟨batch, empty, hfinish, -, -, hempty⟩ := finish_holds ht h
    have hnext : BuilderOp.finish.apply tryNew tag b = (.ok (), empty) :=
      congrArg (fun x => ((.ok (), x) : Except Fault Unit × BatchBuilder)) (congrArg Prod.snd hfinish)
    exact .inl ⟨empty, hnext, hempty, hempty.offsetsFit⟩

theorem runOps_holds (ht : TryNewAccepts tryNew) (ops : List BuilderOp) {b : BatchBuilder}
    {rows : List Row} (h : b.Holds tag rows) (hfit : b.OffsetsFit) :
    (∃ b', tag.runOps tryNew ops b = (.ok (), b') ∧
      b'.Holds tag (ops.foldl (BuilderOp.applyRows tag) rows)) ∨
      ∃ b', tag.runOps tryNew ops b = (.error .panic, b') := by
  induction ops generalizing b rows with
  | nil => exact .inl ⟨b, rfl, h⟩
  | cons op ops ih =>
    rcases apply_holds ht h hfit op with ⟨b₁, hop, h₁, hfit₁⟩ | ⟨b₁, hop⟩
    · rcases ih h₁ hfit₁ with ⟨b₂, hrest, h₂⟩ | ⟨b₂, hrest⟩
      · exact .inl ⟨b₂, (run_bind_ok hop).trans hrest, h₂⟩
      · exact .inr ⟨b₂, (run_bind_ok hop).trans hrest⟩
    · exact .inr ⟨b₁, run_bind_error hop⟩

/-- A finished builder counts no rows and no bytes, whatever became of the batch. -/
theorem finish_counters (tryNew : TryNew ε) (tag : TypeTag) (b : BatchBuilder) :
    (b.finish tryNew tag).2.len = 0 ∧ (b.finish tryNew tag).2.dataBytes = 0 :=
  ⟨rfl, rfl⟩

theorem numRows_of_rows {batch : RecordBatch} {rows : List Row} (h : batch.rows = rows) :
    batch.numRows = rows.length := by
  rw [← h, RecordBatch.rows, rowsOf, List.length_map, List.length_range]

end Run

/-- After any sequence of pushes that return, and finishes, every column of a builder has as
many values as its row count says, of the type of its field and without nulls where the
field forbids them; a finish returns the rows since the last one and leaves the builder
empty. A sequence that does not return has panicked. -/
theorem builders_rectangular {ε : Type} (tryNew : TryNew ε) (ht : TryNewAccepts tryNew)
    (tag : TypeTag) (ops : List BuilderOp) :
    tag.columnTypes = (schemaFor tag).map Field.dataType ∧
    (∀ b, tag.runOps tryNew ops tag.newBuilder = (.ok (), b) →
      b.len = (tag.rowsSinceFinish ops).length ∧
      (∀ column ∈ b.allColumns, column.length = b.len) ∧
      Typed Field.Admits (schemaFor tag) b.allColumns ∧
      ∃ batch empty, b.finish tryNew tag = (.ok batch, empty) ∧
        batch.schema = schemaFor tag ∧ batch.rows = tag.rowsSinceFinish ops ∧
        batch.numRows = (tag.rowsSinceFinish ops).length ∧ empty.len = 0 ∧ empty.dataBytes = 0) ∧
    ∀ f b, tag.runOps tryNew ops tag.newBuilder = (.error f, b) → f = .panic := by
  have hruns := runOps_holds ht ops (newBuilder_holds tag) (newBuilder_holds tag).offsetsFit
  refine ⟨columnTypes_eq_schema tag, fun b hrun => ?_, fun f b hrun => ?_⟩
  · rcases hruns with ⟨b', hok, hholds⟩ | ⟨b', hpanic⟩
    · obtain ⟨-, rfl⟩ := Prod.mk.inj (hrun.symm.trans hok)
      obtain ⟨batch, empty, hfinish, hschema, hrows, -⟩ := finish_holds ht hholds
      have hempty := finish_counters tryNew tag b
      rw [hfinish] at hempty
      refine ⟨hholds.len, fun column hc => ?_, hholds.typed, batch, empty, hfinish, hschema, hrows,
        numRows_of_rows hrows, hempty.1, hempty.2⟩
      rw [hholds.rect column hc]
      exact hholds.len.symm
    · cases hrun.symm.trans hpanic
  · rcases hruns with ⟨b', hok, -⟩ | ⟨b', hpanic⟩
    · cases hrun.symm.trans hok
    · obtain ⟨hf, -⟩ := Prod.mk.inj (hrun.symm.trans hpanic)
      cases hf
      rfl

def textEntry : RdbEntry := ⟨0, [107], .string [118], rdbTypeString, none, none, none, none, none⟩

def emptyListEntry : RdbEntry := ⟨0, [108], .list [], rdbTypeList, none, none, none, none, none⟩

/-- A string, an empty list, which is of no matching type, and a finish between two pushes. -/
theorem builders_rectangular_string : ∃ b batch empty,
    TypeTag.string.runOps checkedTryNew
      [.push textEntry, .finish, .push emptyListEntry, .push textEntry, .push textEntry]
      TypeTag.string.newBuilder = (.ok (), b) ∧
    b.finish checkedTryNew .string = (.ok batch, empty) ∧ batch.numRows = 2 := by
  obtain ⟨b, hrun⟩ : ∃ b, TypeTag.string.runOps checkedTryNew
      [.push textEntry, .finish, .push emptyListEntry, .push textEntry, .push textEntry]
      TypeTag.string.newBuilder = (.ok (), b) := ⟨_, rfl⟩
  obtain ⟨-, -, -, batch, empty, hfinish, -, -, hrows, -⟩ :=
    (builders_rectangular checkedTryNew checkedTryNew_accepts .string _).2.1 b hrun
  exact ⟨b, batch, empty, hrun, hfinish, hrows⟩

end ValkeyRdb
