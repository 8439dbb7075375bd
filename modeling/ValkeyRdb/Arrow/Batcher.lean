import ValkeyRdb.Lib.LoopIterator
import ValkeyRdb.Arrow.Builders

/-!
# The batcher (batcher.rs)

`push` and `flush` are computations on the batcher; `BatchIterator` drives them from an
iterator of entries.
-/

namespace ValkeyRdb

open StateAction (get modify)

/-- batcher.rs:24 -/
structure BatcherConfig where
  batchSize : Nat
  batchBytes : Option Nat
  maxEntryBytes : Option Nat
  heuristics : Finset Heuristic

/-- batcher.rs:41 -/
def BatcherConfig.default : BatcherConfig where
  batchSize := 65536
  batchBytes := some (64 * 1024 * 1024)
  maxEntryBytes := none
  heuristics := Heuristic.all

/-- The bytes of a collection: its key once a row, and its elements. -/
def collectionBytes {α : Type} (keyLen : Nat) (xs : List α) (size : α → Nat) : Nat :=
  keyLen * max xs.length 1 + (xs.map size).sum

/-- batcher.rs:54 -/
def estimateEntryBytes (entry : RdbEntry) : Nat :=
  let keyLen := entry.key.length
  match entry.value with
  | .string v => keyLen + v.length
  | .list elems => collectionBytes keyLen elems List.length
  | .set members => collectionBytes keyLen members List.length
  | .sortedSet pairs => collectionBytes keyLen pairs fun p => p.1.length + 8
  | .hash fields => collectionBytes keyLen fields fun f => f.field.length + f.value.length
  | .stream data =>
    let rows := max (data.entries.map fun e => max e.fields.length 1).sum 1
    keyLen * rows +
      (data.entries.map fun e => (e.fields.map fun fv => fv.1.length + fv.2.length).sum).sum
  | .module data =>
    collectionBytes keyLen data.values fun v => match v with
      | .string s => s.length
      | _ => 8

structure TypedBatch where
  tag : TypeTag
  batch : RecordBatch
  deriving DecidableEq

/-- How batching ends without a batch: an error of the parser or a panic, or an error of
Arrow. It abstracts `ArrowConvertError`, whose other variants come from the writers. -/
inductive BatchError (ε : Type) where
  | fault (f : Fault)
  | arrow (e : ε)
  deriving DecidableEq

/-- batcher.rs:109 -/
structure ArrowBatcher where
  config : BatcherConfig
  string : BatchBuilder
  list : BatchBuilder
  set : BatchBuilder
  zset : BatchBuilder
  hash : BatchBuilder
  geo : BatchBuilder
  hll : BatchBuilder
  module : BatchBuilder
  stream : BatchBuilder
  skippedOversized : Nat

namespace ArrowBatcher

/-- batcher.rs:131 -/
def new (config : BatcherConfig) : ArrowBatcher where
  config := config
  string := StringBatchBuilder.new
  list := ListBatchBuilder.new
  set := SetBatchBuilder.new
  zset := SortedSetBatchBuilder.new
  hash := HashBatchBuilder.new
  geo := GeoBatchBuilder.new
  hll := HllBatchBuilder.new
  module := ModuleBatchBuilder.new
  stream := StreamBatchBuilder.new
  skippedOversized := 0

/-- What `builder_mut` points to (batcher.rs:157). -/
def builder (b : ArrowBatcher) : TypeTag → BatchBuilder
  | .string => b.string
  | .list => b.list
  | .set => b.set
  | .sortedSet => b.zset
  | .hash => b.hash
  | .geo => b.geo
  | .hyperLogLog => b.hll
  | .module => b.module
  | .stream => b.stream

/-- The batcher after a change through `builder_mut`. -/
def setBuilder (b : ArrowBatcher) (tag : TypeTag) (x : BatchBuilder) : ArrowBatcher :=
  match tag with
  | .string => { b with string := x }
  | .list => { b with list := x }
  | .set => { b with set := x }
  | .sortedSet => { b with zset := x }
  | .hash => { b with hash := x }
  | .geo => { b with geo := x }
  | .hyperLogLog => { b with hll := x }
  | .module => { b with module := x }
  | .stream => { b with stream := x }

@[simp] theorem builder_setBuilder_self (b : ArrowBatcher) (tag : TypeTag) (x : BatchBuilder) :
    (b.setBuilder tag x).builder tag = x := by
  cases tag <;> rfl

theorem builder_setBuilder_of_ne (b : ArrowBatcher) {tag other : TypeTag} (x : BatchBuilder)
    (h : other ≠ tag) : (b.setBuilder tag x).builder other = b.builder other := by
  cases tag <;> cases other <;> first | rfl | exact absurd rfl h

@[simp] theorem setBuilder_config (b : ArrowBatcher) (tag : TypeTag) (x : BatchBuilder) :
    (b.setBuilder tag x).config = b.config := by
  cases tag <;> rfl

@[simp] theorem setBuilder_skippedOversized (b : ArrowBatcher) (tag : TypeTag) (x : BatchBuilder) :
    (b.setBuilder tag x).skippedOversized = b.skippedOversized := by
  cases tag <;> rfl

theorem new_builder (config : BatcherConfig) (tag : TypeTag) :
    (new config).builder tag = tag.newBuilder := by
  cases tag <;> rfl

end ArrowBatcher

/-- Whether an entry is dropped for its size (batcher.rs:187-189). -/
def BatcherConfig.oversized (config : BatcherConfig) (entry : RdbEntry) : Bool :=
  match config.maxEntryBytes with
  | some max => decide (max < estimateEntryBytes entry)
  | none => false

abbrev BatcherM (ε : Type) := StateAction ArrowBatcher (BatchError ε)

section Batcher

variable {ε : Type} (tryNew : TryNew ε)

/-- batcher.rs:249; the batches go to the end of `out`. -/
def ArrowBatcher.flushTag (tag : TypeTag) (out : List TypedBatch) : BatcherM ε (List TypedBatch) :=
  fun b =>
    if (b.builder tag).isEmpty then (.ok out, b)
    else match (b.builder tag).finish tryNew tag with
      | (.ok batch, x) => (.ok (out ++ [⟨tag, batch⟩]), b.setBuilder tag x)
      | (.error e, x) => (.error (.arrow e), b.setBuilder tag x)

/-- batcher.rs:232 -/
def ArrowBatcher.maybeFlushTag (tag : TypeTag) (out : List TypedBatch) :
    BatcherM ε (List TypedBatch) := do
  let b ← get
  let rowExceeded := b.config.batchSize ≤ (b.builder tag).len
  let bytesExceeded := b.config.batchBytes.any fun max => decide (max ≤ (b.builder tag).dataBytes)
  if rowExceeded ∨ bytesExceeded = true then flushTag tryNew tag out else pure out

/-- `self.builder_mut(tag).push(entry)`; a panic leaves the row of the builder unfinished. -/
def ArrowBatcher.pushTo (tag : TypeTag) (entry : RdbEntry) : BatcherM ε Unit := fun b =>
  match tag.push entry (b.builder tag) with
  | (.ok (), x) => (.ok (), b.setBuilder tag x)
  | (.error f, x) => (.error (.fault f), b.setBuilder tag x)

/-- The entry into the builder of its tag, and of `Geo` where the heuristic applies
(batcher.rs:195-206). -/
def ArrowBatcher.pushTagged (tag : TypeTag) (entry : RdbEntry) : BatcherM ε (List TypedBatch) := do
  pushTo tag entry
  let b ← get
  let alsoGeo := shouldEmitGeo b.config.heuristics tag entry
  if alsoGeo then pushTo .geo entry
  let out ← maybeFlushTag tryNew tag []
  if alsoGeo then maybeFlushTag tryNew .geo out else pure out

/-- batcher.rs:176 -/
def ArrowBatcher.push (entry : RdbEntry) : BatcherM ε (List TypedBatch) := do
  match typeTagFor entry with
  | none => pure []
  | some tag =>
    let b ← get
    if b.config.oversized entry then do
      modify fun b => { b with skippedOversized := satAdd64 b.skippedOversized 1 }
      pure []
    else pushTagged tryNew tag entry

/-- The tags in turn, each with what the ones before it left. -/
def ArrowBatcher.flushTags : List TypeTag → List TypedBatch → BatcherM ε (List TypedBatch)
  | [], out => pure out
  | tag :: tags, out => do
    let out ← flushTag tryNew tag out
    flushTags tags out

/-- batcher.rs:210 -/
def ArrowBatcher.flush : BatcherM ε (List TypedBatch) := flushTags tryNew TypeTag.all []

/-! ### The batch iterator (batcher.rs:265-336) -/

/-- What an iterator over the reader, or over filtered entries, gives. -/
abbrev EntryIter (σ : Type) := σ → Option (Res RdbEntry) × σ

/-- What a call of `BatchIterator` gives or, where it panics, ends in. -/
abbrev BatchItem (ε : Type) := Except (BatchError ε) TypedBatch

structure BatchIterator (σ : Type) where
  batcher : ArrowBatcher
  iter : σ
  pending : List TypedBatch
  finished : Bool
  skipped : Nat

variable {σ : Type}

/-- batcher.rs:220 -/
def ArrowBatcher.process (batcher : ArrowBatcher) (iter : σ) : BatchIterator σ :=
  ⟨batcher, iter, [], false, 0⟩

namespace BatchIterator

def skippedCount (it : BatchIterator σ) : Nat := it.skipped

def skippedOversizedCount (it : BatchIterator σ) : Nat := it.batcher.skippedOversized

/-- The batches of a `push` or a `flush` go to the queue; an error is returned, or a panic
raised, at once. -/
def enqueue (it : BatchIterator σ) :
    Except (BatchError ε) (List TypedBatch) × ArrowBatcher →
      Round (BatchItem ε) × BatchIterator σ
  | (.ok batches, b) => (.again, { it with batcher := b, pending := it.pending ++ batches })
  | (.error e, b) => (.ret (some (.error e)), { it with batcher := b })

/-- One round of the loop in `next`. -/
def round (inner : EntryIter σ) (it : BatchIterator σ) : Round (BatchItem ε) × BatchIterator σ :=
  match it.pending with
  | batch :: rest => (.ret (some (.ok batch)), { it with pending := rest })
  | [] =>
    if it.finished = true then (.ret none, it)
    else
      match inner it.iter with
      | (some (.ok entry), s) =>
        enqueue { it with iter := s } (ArrowBatcher.push tryNew entry it.batcher)
      | (some (.error (.error (.unknownType _))), s) =>
        (.again, { it with iter := s, skipped := it.skipped + 1 })
      | (some (.error f), s) => (.ret (some (.error (.fault f))), { it with iter := s })
      | (none, s) =>
        enqueue { it with iter := s, finished := true } (ArrowBatcher.flush tryNew it.batcher)

/-- `next`, for at most `n` rounds; a loop that takes longer is reported as divergent. -/
def next (inner : EntryIter σ) (n : Nat) : BatchIterator σ → Option (BatchItem ε) × BatchIterator σ :=
  loopNext (round tryNew inner) (.error (.fault .diverge)) n

end BatchIterator

end Batcher

end ValkeyRdb
