import ValkeyRdb.Lib.SortedMap
import ValkeyRdb.Arrow.BatchRun
import ValkeyRdb.Reader.Termination

/-!
# Summaries (summarize.rs)

The summary counts rows with `expectedRowCount`; the batches of the same items hold that
many rows for every tag, where the builders have room for them.
-/

namespace ValkeyRdb

structure TypeCount where
  keys : Nat
  rows : Nat
  deriving DecidableEq

/-- The accumulators of `summarize_entries`. -/
structure Totals where
  totals : SortedMap TypeTag TypeCount
  perDb : SortedMap Nat (SortedMap TypeTag Nat)
  perDbKeys : SortedMap Nat Nat
  totalKeys : Nat

namespace Totals

def new : Totals := ⟨.empty, .empty, .empty, 0⟩

/-- One entry under a tag (summarize.rs:89-93, 107-111). -/
def count (t : Totals) (tag : TypeTag) (isFirst : Bool) (rows : Nat) : Totals :=
  { t with totals := t.totals.upsert tag fun old =>
      let tc := old.getD ⟨0, 0⟩
      ⟨if isFirst then tc.keys + 1 else tc.keys, tc.rows + rows⟩ }

def countInDb (t : Totals) (db : Nat) (tag : TypeTag) : Totals :=
  { t with perDb := t.perDb.upsert db fun old =>
      (old.getD .empty).upsert tag fun n => n.getD 0 + 1 }

/-- One key in a database (summarize.rs:95-96). -/
def countKey (t : Totals) (db : Nat) : Totals :=
  { t with totalKeys := t.totalKeys + 1, perDbKeys := t.perDbKeys.upsert db fun n => n.getD 0 + 1 }

/-- The body of the loop (summarize.rs:81-120). -/
def add (heuristics : Finset Heuristic) (t : Totals) (entry : RdbEntry) : Totals :=
  match typeTagFor entry with
  | none => t
  | some tag =>
    let isFirst := entry.isFirstChunk
    let rows := expectedRowCount entry
    let t := t.count tag isFirst rows
    let t := if isFirst then (t.countKey entry.db).countInDb entry.db tag else t
    if shouldEmitGeo heuristics tag entry then
      let t := t.count .geo isFirst rows
      if isFirst then t.countInDb entry.db .geo else t
    else t

end Totals

/-- The loop over the items of a reader (summarize.rs:74-121). -/
def summarizeItems (heuristics : Finset Heuristic) : List (Res RdbEntry) → Totals → Res Totals
  | [], t => .ok t
  | .ok entry :: items, t => summarizeItems heuristics items (t.add heuristics entry)
  | .error (.error (.unknownType _)) :: items, t => summarizeItems heuristics items t
  | .error f :: _, _ => .error f

/-- summarize.rs:36 -/
structure EntrySummary where
  header : RdbHeader
  metadata : RdbMetadata
  crcVerified : Bool
  totalKeys : Nat
  totals : SortedMap TypeTag TypeCount
  perDb : SortedMap Nat (SortedMap TypeTag Nat)
  perDbKeys : SortedMap Nat Nat

/-- summarize.rs:65 -/
def summarizeEntries (reader : RdbReader) (heuristics : Finset Heuristic) : Res EntrySummary := do
  let t ← summarizeItems heuristics reader.items.1 .new
  pure {
    header := reader.header
    metadata := reader.items.2.metadata
    crcVerified := reader.items.2.crcChecked
    totalKeys := t.totalKeys
    totals := t.totals
    perDb := t.perDb
    perDbKeys := t.perDbKeys }

namespace Totals

def rows (t : Totals) (tag : TypeTag) : Nat := ((t.totals.get? tag).map TypeCount.rows).getD 0

/-- One step of the count: `n` more rows for a tag that is then present. -/
structure Counts (t : Totals) (added : TypeTag → Nat) (t' : Totals) : Prop where
  rows : ∀ tag, t'.rows tag = t.rows tag + added tag
  present : ∀ tag, t'.totals.contains tag = true ↔ t.totals.contains tag = true ∨ 0 < added tag

theorem Counts.refl (t : Totals) : t.Counts (fun _ => 0) t :=
  ⟨fun _ => rfl, fun tag => by simp⟩

theorem Counts.trans {t t₁ t₂ : Totals} {a₁ a₂ : TypeTag → Nat} (h₁ : t.Counts a₁ t₁)
    (h₂ : t₁.Counts a₂ t₂) : t.Counts (fun tag => a₁ tag + a₂ tag) t₂ where
  rows tag := by rw [h₂.rows, h₁.rows, Nat.add_assoc]
  present tag := by
    rw [h₂.present, h₁.present, or_assoc]
    have hpos : 0 < a₁ tag ∨ 0 < a₂ tag ↔ 0 < a₁ tag + a₂ tag := by omega
    rw [hpos]

theorem Counts.congr {t t' : Totals} {a a' : TypeTag → Nat} (h : t.Counts a t')
    (ha : ∀ tag, a tag = a' tag) : t.Counts a' t' :=
  ⟨fun tag => by rw [h.rows, ha], fun tag => by rw [h.present, ha]⟩

theorem Counts.of_totals {t t₁ t₂ : Totals} {a : TypeTag → Nat} (h : t.Counts a t₁)
    (ht : t₂.totals = t₁.totals) : t.Counts a t₂ := by
  constructor
  · intro tag
    rw [← h.rows, Totals.rows, Totals.rows, ht]
  · intro tag
    rw [← h.present, ht]

theorem rows_count (t : Totals) (tag : TypeTag) (isFirst : Bool) (n : Nat) (other : TypeTag) :
    (t.count tag isFirst n).rows other = t.rows other + if other = tag then n else 0 := by
  refine SortedMap.get?_upsert_add (f := fun o => (o.map TypeCount.rows).getD 0)
    (fun old => ?_) t.totals other
  cases old <;> rfl

theorem count_counts (t : Totals) (tag : TypeTag) (isFirst : Bool) {n : Nat} (hn : 0 < n) :
    t.Counts (fun other => if other = tag then n else 0) (t.count tag isFirst n) := by
  constructor
  · exact rows_count t tag isFirst n
  · intro other
    unfold SortedMap.contains count
    by_cases hne : other = tag
    · subst hne
      rw [SortedMap.get?_upsert_self]
      simp [hn]
    · rw [SortedMap.get?_upsert_of_ne _ _ hne]
      simp [hne]

theorem add_counts (heuristics : Finset Heuristic) (t : Totals) (entry : RdbEntry) :
    t.Counts (fun tag => (rowsUnder heuristics tag entry).length) (t.add heuristics entry) := by
  obtain ⟨tag, htag⟩ := typeTagFor_isSome entry
  have hgeo : tag ≠ .geo := fun h => typeTagFor_ne_geo entry (h ▸ htag)
  have hpos := expectedRowCount_pos entry
  have hown := count_counts t tag entry.isFirstChunk hpos
  have hkey : t.Counts (fun other => if other = tag then expectedRowCount entry else 0)
      (if entry.isFirstChunk = true then
        ((t.count tag entry.isFirstChunk (expectedRowCount entry)).countKey entry.db).countInDb
          entry.db tag
      else t.count tag entry.isFirstChunk (expectedRowCount entry)) := by
    apply hown.of_totals
    split <;> rfl
  unfold add
  simp only [htag]
  cases hg : shouldEmitGeo heuristics tag entry with
  | false =>
    simp only [Bool.false_eq_true, if_false]
    refine hkey.congr fun other => ?_
    by_cases hne : other = tag
    · simp [rowsUnder, htag, hne, entryRows_length htag]
    · simp [rowsUnder, htag, hne, hg]
  | true =>
    have hgeoEntry := (shouldEmitGeo_iff.mp hg).2.2
    simp only [if_true]
    have hboth := hkey.trans (count_counts _ .geo entry.isFirstChunk hpos)
    refine (hboth.of_totals ?_).congr fun other => ?_
    · split <;> rfl
    · by_cases hne : other = tag
      · simp [rowsUnder, htag, hne, hgeo, entryRows_length htag]
      · by_cases hother : other = .geo
        · subst hother
          simp [rowsUnder, htag, hne, hg, entryRows_geo_length hgeoEntry]
        · simp [rowsUnder, htag, hne, hother]

end Totals

theorem summarizeItems_counts (heuristics : Finset Heuristic) (items : List (Res RdbEntry))
    (h : Readable items) (t : Totals) :
    ∃ t', summarizeItems heuristics items t = .ok t' ∧
      t.Counts (fun tag => ((entriesOf items).flatMap (rowsUnder heuristics tag)).length) t' := by
  induction items generalizing t with
  | nil => exact ⟨t, rfl, .refl t⟩
  | cons x xs ih =>
    rcases x with f | entry
    · rcases unknownType_cases f with ⟨c, rfl⟩ | hu
      · exact ih h t
      · have hcons : faultsOf (.error f :: xs) = f :: faultsOf xs := by simp [faultsOf, hu]
        rw [Readable, hcons] at h
        cases h
    · obtain ⟨t', hrun, hcounts⟩ := ih h (t.add heuristics entry)
      refine ⟨t', hrun, ((Totals.add_counts heuristics t entry).trans hcounts).congr fun tag => ?_⟩
      simp [entriesOf, Except.toOption]

theorem tagRows_length (tag : TypeTag) (out : List TypedBatch) :
    (tagRows tag out).length =
      ((out.filter fun t => t.tag == tag).map fun t => t.batch.numRows).sum := by
  unfold tagRows
  rw [List.length_flatMap]
  simp [RecordBatch.rows, rowsOf]

def batchRows (tag : TypeTag) (batches : List TypedBatch) : Nat :=
  ((batches.filter fun t => t.tag == tag).map fun t => t.batch.numRows).sum

theorem counts_match {t : Totals} {batches : List TypedBatch} {n : TypeTag → Nat}
    (h : Totals.new.Counts n t) (hb : ∀ b ∈ batches, b.WellFormed)
    (hrows : ∀ tag, (tagRows tag batches).length = n tag) (tag : TypeTag) :
    batchRows tag batches = t.rows tag ∧
      ((∃ b ∈ batches, b.tag = tag) ↔ t.totals.contains tag = true) := by
  have hcount : batchRows tag batches = n tag := by
    rw [← hrows, tagRows_length]
    rfl
  have hzero : Totals.new.rows tag = 0 := rfl
  have hnone : ¬Totals.new.totals.contains tag = true := by simp [Totals.new, SortedMap.contains]
  refine ⟨by rw [hcount, h.rows, hzero, Nat.zero_add], ?_⟩
  rw [h.present, ← hrows, List.length_pos_iff]
  have hnil := not_congr (@tagRows_eq_nil_iff tag batches hb)
  constructor
  · rintro ⟨b, hm, htag⟩
    exact .inr (hnil.mpr fun hall => hall b hm htag)
  · rintro (hc | hne)
    · exact absurd hc hnone
    · by_contra hno
      exact hnil.mp hne fun b hm htag => hno ⟨b, hm, htag⟩

/-- Summary and batches of the same items agree, tag by tag, exactly when the builders have
room for the entries: otherwise the iterator panics where the summary goes on. -/
theorem summary_agrees {σ ε : Type} (tryNew : TryNew ε) (ht : TryNewAccepts tryNew)
    (inner : EntryIter σ) (s s' : σ) (items : List (Res RdbEntry)) (h : Yields inner s items s')
    (hitems : ∀ x ∈ items, (∃ entry, x = .ok entry) ∨ ∃ t, x = .error (.error (.unknownType t)))
    (config : BatcherConfig) (hmax : config.maxEntryBytes = none) (n : Nat)
    (hn : items.length + 2 ≤ n) :
    (∃ batches last t, Yields (BatchIterator.next tryNew inner n)
        ((ArrowBatcher.new config).process s) (batches.map .ok) last ∧
      summarizeItems config.heuristics items .new = .ok t ∧
      ∀ tag, batchRows tag batches = t.rows tag ∧
        ((∃ b ∈ batches, b.tag = tag) ↔ t.totals.contains tag = true)) ↔
      config.Fits (entriesOf items) := by
  constructor
  · rintro ⟨batches, last, -, hy, -⟩
    exact fits_of_yields ht h hn hy
  · intro hfits
    have hread : Readable items := by
      unfold Readable faultsOf
      rw [List.filterMap_eq_nil_iff]
      intro x hx
      rcases hitems x hx with ⟨entry, rfl⟩ | ⟨t, rfl⟩ <;> rfl
    obtain ⟨batches, last, hy, hbatches, hrows⟩ := batches_of_readable ht h hread hfits
    obtain ⟨t, hrun, hcounts⟩ := summarizeItems_counts config.heuristics items hread .new
    refine ⟨batches, last, t, hy n hn, hrun, counts_match hcounts hbatches fun tag => ?_⟩
    rw [hrows, taken_unlimited hmax]

/-- Four empty elements under the longest key are four rows of the summary, and a panic of
the iterator. -/
theorem summary_disagrees : ∃ t,
    summarizeItems BatcherConfig.default.heuristics [.ok (fourEntry wideKey)] .new = .ok t ∧
    t.rows .list = 4 ∧
    ¬ ∃ (batches : List TypedBatch) (last : _), Yields (BatchIterator.next checkedTryNew listNext 3)
      ((ArrowBatcher.new BatcherConfig.default).process [.ok (fourEntry wideKey)])
      (batches.map .ok) last := by
  refine ⟨_, rfl, rfl, ?_⟩
  rintro ⟨batches, last, hy⟩
  exact wideEntry_overflows rfl []
    (fits_of_yields checkedTryNew_accepts (yields_listNext [.ok (fourEntry wideKey)])
      (Nat.le_refl 3) hy)

theorem summary_agrees_list : ∃ batches last, ∃ t : Totals,
    Yields (BatchIterator.next checkedTryNew listNext 5)
      ((ArrowBatcher.new BatcherConfig.default).process
        [.ok letterEntry, .error (.error (.unknownType 9)), .ok letterEntry])
      (batches.map .ok) last ∧
    t.rows .list = batchRows .list batches := by
  obtain ⟨batches, last, t, hy, -, hall⟩ := (summary_agrees checkedTryNew checkedTryNew_accepts
    listNext [.ok letterEntry, .error (.error (.unknownType 9)), .ok letterEntry]
    [] _ (yields_listNext _) (by simp) BatcherConfig.default rfl 5 (Nat.le_refl 5)).mpr
    ((eachFits_iff_fits checkedTryNew_accepts _ _).mp (by decide +kernel))
  exact ⟨batches, last, t, hy, (hall .list).1.symm⟩

end ValkeyRdb
