import ValkeyRdb.Arrow.BatchRun
import ValkeyRdb.Lib.Text

/-!
# Filters and the export pipeline (filter.rs, export.rs)

Entries are filtered before they reach the batcher, and batches once more after it. The
glob matcher is a parameter.
-/

namespace ValkeyRdb

/-! ### The entry filter (filter.rs) -/

structure EntryFilter where
  db : Option Nat
  typeTags : Option (Finset TypeTag)
  keyPattern : Option Bytes
  heuristics : Finset Heuristic

namespace EntryFilter

/-- filter.rs:44; the rule for `Geo` is spelled out again here. -/
def matchesAnyType (filter : EntryFilter) (entry : RdbEntry) (tags : Finset TypeTag) : Bool :=
  match typeTagFor entry with
  | none => false
  | some primary =>
    if primary ∈ tags then true
    else if .geo ∈ filter.heuristics ∧ primary = .sortedSet ∧ .geo ∈ tags ∧
        isGeoEntry entry = true then true
    else false

/-- filter.rs:15 -/
def matchesEntry (globMatch : Bytes → Bytes → Bool) (filter : EntryFilter) (entry : RdbEntry) : Bool :=
  if filter.db.any fun db => entry.db != db then false
  else if filter.typeTags.any fun tags => !filter.matchesAnyType entry tags then false
  else if filter.keyPattern.any fun pattern => !globMatch pattern (fromUtf8Lossy entry.key) then false
  else true

/-- What `FilteredEntries` passes on: matching entries, and every error. -/
def keeps (globMatch : Bytes → Bytes → Bool) (filter : EntryFilter) : Res RdbEntry → Bool
  | .ok entry => filter.matchesEntry globMatch entry
  | .error _ => true

end EntryFilter

/-- `FilteredEntries::next`, for at most `n` rounds (filter.rs:80). -/
def filteredEntries {σ : Type} (globMatch : Bytes → Bytes → Bool) (filter : EntryFilter)
    (inner : EntryIter σ) (n : Nat) : EntryIter σ :=
  loopNext (filterRound (filter.keeps globMatch) inner) (.error .diverge) n

/-! ### The pipeline (export.rs:82-117) -/

/-- What the batch filter passes on: batches with a requested tag, and every error. -/
def keepsBatch {ε : Type} (tags : Finset TypeTag) : BatchItem ε → Bool
  | .ok t => decide (t.tag ∈ tags)
  | .error _ => true

/-- The batches of an export: filtered entries, batched, and filtered by the requested
tags. Every loop gets `n` rounds. -/
def exportBatches {σ ε : Type} (tryNew : TryNew ε) (globMatch : Bytes → Bytes → Bool)
    (filter : EntryFilter) (inner : EntryIter σ) (n : Nat) :
    BatchIterator σ → Option (BatchItem ε) × BatchIterator σ :=
  let raw := BatchIterator.next tryNew (filteredEntries globMatch filter inner n) n
  match filter.typeTags with
  | some tags => loopNext (filterRound (keepsBatch tags) raw) (.error (.fault .diverge)) n
  | none => raw

/-- What the pipeline reads of the arguments (args.rs:54), with `--type` and `--heuristic`
parsed. The command has all of them, as they are given, in `Cli.ExportArgs`. -/
structure ExportArgs where
  db : Option Nat
  typeTags : Option (Finset TypeTag)
  keyPattern : Option Bytes
  heuristics : Finset Heuristic
  noChunking : Bool
  maxKeyElements : Option ℕ+
  batchSize : Nat
  batchBytes : Option Nat
  maxEntryBytes : Option Nat

namespace ExportArgs

/-- export.rs:34-42 -/
def reader (args : ExportArgs) (r : RdbReader) : RdbReader :=
  if args.noChunking = true then r.withoutChunking
  else
    match args.maxKeyElements with
    | some max => r.withMaxKeyElements max
    | none => r

def filter (args : ExportArgs) : EntryFilter :=
  ⟨args.db, args.typeTags, args.keyPattern, args.heuristics⟩

/-- export.rs:93-103 -/
def config (args : ExportArgs) : BatcherConfig where
  batchSize := args.batchSize
  batchBytes := args.batchBytes.orElse fun _ => BatcherConfig.default.batchBytes
  maxEntryBytes := args.maxEntryBytes
  heuristics := args.heuristics

end ExportArgs

/-! ### What the filters do to a run -/

section Filter

variable {globMatch : Bytes → Bytes → Bool} {filter : EntryFilter}

theorem entriesOf_filter (items : List (Res RdbEntry)) :
    entriesOf (items.filter (filter.keeps globMatch)) =
      (entriesOf items).filter (filter.matchesEntry globMatch) := by
  induction items with
  | nil => rfl
  | cons x xs ih =>
    rcases x with f | entry
    · exact ih
    · cases hk : filter.matchesEntry globMatch entry with
      | true =>
        have hkeep : filter.keeps globMatch (.ok entry) = true := hk
        rw [List.filter_cons_of_pos hkeep]
        have hcons : entriesOf (.ok entry :: xs) = entry :: entriesOf xs := rfl
        rw [hcons, List.filter_cons_of_pos hk, ← ih]
        rfl
      | false =>
        have hdrop : ¬filter.keeps globMatch (.ok entry) = true := by
          simp [EntryFilter.keeps, hk]
        rw [List.filter_cons_of_neg hdrop, ih]
        have hcons : entriesOf (.ok entry :: xs) = entry :: entriesOf xs := rfl
        rw [hcons, List.filter_cons_of_neg (by simp [hk])]

theorem faultsOf_filter (items : List (Res RdbEntry)) :
    faultsOf (items.filter (filter.keeps globMatch)) = faultsOf items := by
  induction items with
  | nil => rfl
  | cons x xs ih =>
    rcases x with f | entry
    · have hkeep : filter.keeps globMatch (.error f) = true := rfl
      rw [List.filter_cons_of_pos hkeep]
      unfold faultsOf at ih ⊢
      rw [List.filterMap_cons, List.filterMap_cons, ih]
    · by_cases hk : filter.keeps globMatch (.ok entry) = true
      · rw [List.filter_cons_of_pos hk]
        exact ih
      · rw [List.filter_cons_of_neg hk]
        exact ih

theorem unknownTypes_filter (items : List (Res RdbEntry)) :
    (items.filter (filter.keeps globMatch)).countP isUnknownType = items.countP isUnknownType := by
  rw [List.countP_filter]
  apply List.countP_congr
  rintro (f | entry) - <;> simp [EntryFilter.keeps, isUnknownType]

theorem tagRows_filter {ε : Type} {tags : Finset TypeTag} {tag : TypeTag} (htag : tag ∈ tags)
    (xs : List (BatchItem ε)) :
    tagRows tag (batchesOf (xs.filter (keepsBatch tags))) = tagRows tag (batchesOf xs) := by
  induction xs with
  | nil => rfl
  | cons x xs ih =>
    cases x with
    | error e => exact ih
    | ok t =>
      have hcons : ∀ ys : List (BatchItem ε), tagRows tag (batchesOf (.ok t :: ys)) =
          tagRows tag [t] ++ tagRows tag (batchesOf ys) := by
        intro ys
        rw [← tagRows_append]
        rfl
      by_cases hk : keepsBatch (ε := ε) tags (.ok t) = true
      · rw [List.filter_cons_of_pos hk, hcons, hcons, ih]
      · have hne : tag ≠ t.tag := by
          rintro rfl
          exact hk (by simpa [keepsBatch] using htag)
        rw [List.filter_cons_of_neg hk, hcons, ih]
        obtain ⟨other, batch⟩ := t
        rw [tagRows_singleton_of_ne batch hne, List.nil_append]

theorem errorsOf_filter {ε : Type} (tags : Finset TypeTag) (xs : List (BatchItem ε)) :
    errorsOf (xs.filter (keepsBatch tags)) = errorsOf xs := by
  induction xs with
  | nil => rfl
  | cons x xs ih =>
    cases x with
    | error e => exact congrArg (e :: ·) ih
    | ok t =>
      by_cases hk : keepsBatch (ε := ε) tags (.ok t) = true
      · rw [List.filter_cons_of_pos hk]
        exact ih
      · rw [List.filter_cons_of_neg hk]
        exact ih

theorem rowsUnder_of_not_matches {entry : RdbEntry} {tags : Finset TypeTag}
    (h : filter.matchesAnyType entry tags = false) {tag : TypeTag} (htag : tag ∈ tags) :
    rowsUnder filter.heuristics tag entry = [] := by
  obtain ⟨primary, hp⟩ := typeTagFor_isSome entry
  unfold EntryFilter.matchesAnyType at h
  simp only [hp] at h
  have hprimary : primary ∉ tags := by
    intro hm
    rw [if_pos hm] at h
    cases h
  rw [if_neg hprimary] at h
  have hne : tag ≠ primary := fun heq => hprimary (heq ▸ htag)
  unfold rowsUnder
  simp only [hp, if_neg hne]
  rw [if_neg]
  rintro ⟨rfl, hgeo⟩
  obtain ⟨hgeoOn, hsorted, hentry⟩ := shouldEmitGeo_iff.mp hgeo
  rw [if_pos ⟨hgeoOn, hsorted, htag, hentry⟩] at h
  cases h

theorem flatMap_filter_of_nil {α β : Type} {p q : α → Bool} {f : α → List β} (xs : List α)
    (h : ∀ x ∈ xs, q x = true → p x = false → f x = []) (hpq : ∀ x ∈ xs, p x = true → q x = true) :
    (xs.filter p).flatMap f = (xs.filter q).flatMap f := by
  induction xs with
  | nil => rfl
  | cons x xs ih =>
    have hxs := ih (fun y hy => h y (List.mem_cons_of_mem _ hy))
      (fun y hy => hpq y (List.mem_cons_of_mem _ hy))
    cases hp : p x with
    | true =>
      have hq := hpq x List.mem_cons_self hp
      rw [List.filter_cons_of_pos hp, List.filter_cons_of_pos hq, List.flatMap_cons,
        List.flatMap_cons, hxs]
    | false =>
      rw [List.filter_cons_of_neg (by simp [hp])]
      cases hq : q x with
      | true =>
        rw [List.filter_cons_of_pos hq, List.flatMap_cons, h x List.mem_cons_self hq hp, hxs]
        rfl
      | false => rw [List.filter_cons_of_neg (by simp [hq]), hxs]

end Filter

/-! ### Runs of the pipeline -/

section Run

variable {σ ε : Type} {tryNew : TryNew ε} {globMatch : Bytes → Bytes → Bool}

/-- What the pipeline yields for some items of the reader. -/
def exported (tryNew : TryNew ε) (globMatch : Bytes → Bytes → Bool) (filter : EntryFilter)
    (config : BatcherConfig) (items : List (Res RdbEntry)) : List (BatchItem ε) :=
  let out := (feed tryNew (items.filter (filter.keeps globMatch)) (ArrowBatcher.new config)).1
  match filter.typeTags with
  | some tags => out.filter (keepsBatch tags)
  | none => out

/-- With enough rounds for every loop the pipeline yields `exported`, and then ends. -/
theorem exportBatches_yields (tryNew : TryNew ε) (globMatch : Bytes → Bytes → Bool)
    (filter : EntryFilter) (config : BatcherConfig) {inner : EntryIter σ} {s s' : σ}
    {items : List (Res RdbEntry)} (h : Yields inner s items s') :
    ∃ rounds last, last.skippedCount = items.countP isUnknownType ∧
      ∀ n, rounds ≤ n → Yields (exportBatches tryNew globMatch filter inner n)
        ((ArrowBatcher.new config).process s) (exported tryNew globMatch filter config items) last := by
  generalize hkept : items.filter (filter.keeps globMatch) = kept
  generalize hout : (feed tryNew kept (ArrowBatcher.new config)).1 = out
  have hlen : kept.length ≤ items.length := hkept ▸ List.length_filter_le _ _
  have hcount : kept.countP isUnknownType = items.countP isUnknownType := by
    rw [← hkept, unknownTypes_filter]
  have hraw : ∀ n, items.length + 2 ≤ n →
      Yields (BatchIterator.next tryNew (filteredEntries globMatch filter inner n) n)
        ((ArrowBatcher.new config).process s) out
        ⟨(feed tryNew kept (ArrowBatcher.new config)).2, s', [], true,
          0 + kept.countP isUnknownType⟩ := by
    intro n hn
    have hfiltered : Yields (filteredEntries globMatch filter inner n) s kept s' :=
      hkept ▸ h.filter.yields (by omega)
    have hcalls := @BatchIterator.calls_feed σ ε tryNew _ s' kept
      ((ArrowBatcher.new config).process s) rfl rfl hfiltered
    exact hout ▸ hcalls.yields (by omega)
  refine ⟨max (items.length + 2) (out.length + 1),
    ⟨(feed tryNew kept (ArrowBatcher.new config)).2, s', [], true, 0 + kept.countP isUnknownType⟩,
    ?_, fun n hn => ?_⟩
  · change 0 + kept.countP isUnknownType = _
    rw [Nat.zero_add, hcount]
  · have hy := hraw n (le_trans (le_max_left _ _) hn)
    unfold exportBatches exported
    simp only [hkept, hout]
    cases filter.typeTags with
    | none => exact hy
    | some tags => exact hy.filter.yields (le_trans (le_max_right _ _) hn)

/-- The pushes of the kept entries return. -/
theorem kept_fit (ht : TryNewAccepts tryNew) {filter : EntryFilter} {config : BatcherConfig}
    {items : List (Res RdbEntry)}
    (hfits : config.Fits ((entriesOf items).filter (filter.matchesEntry globMatch))) :
    (ArrowBatcher.new config).EachFits tryNew
      (entriesOf (items.filter (filter.keeps globMatch))) := by
  rw [eachFits_iff_fits ht, entriesOf_filter]
  exact hfits

theorem exported_rows (ht : TryNewAccepts tryNew) {filter : EntryFilter} {config : BatcherConfig}
    {items : List (Res RdbEntry)}
    (hfits : config.Fits ((entriesOf items).filter (filter.matchesEntry globMatch)))
    {tag : TypeTag} (htag : ∀ tags, filter.typeTags = some tags → tag ∈ tags) :
    tagRows tag (batchesOf (exported tryNew globMatch filter config items)) =
      ((entriesOf items).filter (filter.matchesEntry globMatch)).flatMap (config.taken tag) := by
  obtain ⟨hv, hnil⟩ := ArrowBatcher.new_valid config
  obtain ⟨-, hrows, -⟩ := feed_rows ht (items.filter (filter.keeps globMatch)) hv (kept_fit ht hfits)
  have hall : tagRows tag (batchesOf (exported tryNew globMatch filter config items)) =
      tagRows tag (batchesOf
        (feed tryNew (items.filter (filter.keeps globMatch)) (ArrowBatcher.new config)).1) := by
    unfold exported
    cases hf : filter.typeTags with
    | none => rfl
    | some tags => exact tagRows_filter (htag tags hf) _
  rw [hall, hrows, hnil, entriesOf_filter]
  rfl

/-- The errors of the pipeline are those of the reader exactly when no push panics. -/
theorem exported_errors (ht : TryNewAccepts tryNew) (filter : EntryFilter) (config : BatcherConfig)
    (items : List (Res RdbEntry)) :
    errorsOf (exported tryNew globMatch filter config items) = (faultsOf items).map .fault ↔
      config.Fits ((entriesOf items).filter (filter.matchesEntry globMatch)) := by
  obtain ⟨hv, -⟩ := ArrowBatcher.new_valid config
  have hsame : errorsOf (exported tryNew globMatch filter config items) =
      errorsOf (feed tryNew (items.filter (filter.keeps globMatch)) (ArrowBatcher.new config)).1 := by
    unfold exported
    cases filter.typeTags with
    | none => rfl
    | some tags => exact errorsOf_filter tags _
  rw [hsame, ← @faultsOf_filter globMatch filter items]
  constructor
  · intro herrors
    by_contra hover
    rw [← @entriesOf_filter globMatch filter items, ← eachFits_iff_fits ht] at hover
    have hlt := faults_lt_errors ht _ hv hover
    rw [herrors, List.length_map] at hlt
    exact Nat.lt_irrefl _ hlt
  · intro hfits
    exact (feed_rows ht (items.filter (filter.keeps globMatch)) hv (kept_fit ht hfits)).2.2

theorem exported_tags {filter : EntryFilter} {tags : Finset TypeTag}
    (htags : filter.typeTags = some tags) (config : BatcherConfig) (items : List (Res RdbEntry)) :
    ∀ t ∈ batchesOf (exported tryNew globMatch filter config items), t.tag ∈ tags := by
  intro t hm
  unfold exported batchesOf at hm
  simp only [htags] at hm
  obtain ⟨x, hx, hxt⟩ := List.mem_filterMap.mp hm
  have hkeep := (List.mem_filter.mp hx).2
  cases x with
  | error e => cases hxt
  | ok t' =>
    cases hxt
    simpa [keepsBatch] using hkeep

/-- Entries and unsupported types, and at the end perhaps another error. -/
def FaultsLast (items : List (Res RdbEntry)) : Prop := faultsOf items.dropLast = []

theorem faultsOf_append (xs ys : List (Res RdbEntry)) : faultsOf (xs ++ ys) = faultsOf xs ++ faultsOf ys :=
  List.filterMap_append

theorem FaultsLast.before_entry {pre post : List (Res RdbEntry)} {entry : RdbEntry}
    (h : FaultsLast (pre ++ .ok entry :: post)) : faultsOf pre = [] := by
  rw [FaultsLast, List.dropLast_append_of_ne_nil (List.cons_ne_nil _ _), faultsOf_append] at h
  exact (List.append_eq_nil_iff.mp h).1

theorem batchesOf_ok (ts : List TypedBatch) : batchesOf (ts.map (.ok : _ → BatchItem ε)) = ts := by
  rw [batchesOf, List.filterMap_map]
  exact List.filterMap_some

/-- The filter of the export on what the batcher yields in front of a panic. -/
theorem exported_leading {filter : EntryFilter} {config : BatcherConfig} {items : List (Res RdbEntry)}
    {ts : List TypedBatch} {rest : List (BatchItem ε)}
    (h : (feed tryNew (items.filter (filter.keeps globMatch)) (ArrowBatcher.new config)).1 =
      ts.map .ok ++ .error (.fault .panic) :: rest) :
    ∃ us rest', exported tryNew globMatch filter config items =
        us.map .ok ++ .error (.fault .panic) :: rest' ∧
      (∀ u ∈ us, u ∈ ts) ∧
      ∀ tag, (∀ tags, filter.typeTags = some tags → tag ∈ tags) → tagRows tag us = tagRows tag ts := by
  unfold exported
  rw [h]
  cases hf : filter.typeTags with
  | none => exact ⟨ts, rest, rfl, fun u hu => hu, fun _ _ => rfl⟩
  | some tags =>
    have hkeep : keepsBatch (ε := ε) tags (.error (.fault .panic)) = true := rfl
    refine ⟨ts.filter fun t => decide (t.tag ∈ tags), rest.filter (keepsBatch tags), ?_,
      fun u hu => (List.mem_filter.mp hu).1, fun tag htag => ?_⟩
    · dsimp only
      rw [List.filter_append, List.filter_cons_of_pos hkeep, List.filter_map]
      rfl
    · have hsame := tagRows_filter (ε := ε) (htag tags rfl) (ts.map .ok)
      rw [List.filter_map, batchesOf_ok, batchesOf_ok] at hsame
      exact hsame

/-- Without room the pipeline yields the first batches and then panics. -/
theorem exported_panics (ht : TryNewAccepts tryNew) {filter : EntryFilter} {config : BatcherConfig}
    {items : List (Res RdbEntry)} (hlast : FaultsLast items)
    (hover : ¬ config.Fits ((entriesOf items).filter (filter.matchesEntry globMatch))) :
    ∃ ts rest, exported tryNew globMatch filter config items =
        ts.map .ok ++ .error (.fault .panic) :: rest ∧
      (∀ t ∈ ts, t.WellFormed) ∧
      ∀ tag, (∀ tags, filter.typeTags = some tags → tag ∈ tags) → tagRows tag ts <+:
        ((entriesOf items).filter (filter.matchesEntry globMatch)).flatMap (config.taken tag) := by
  obtain ⟨hv, hnil⟩ := ArrowBatcher.new_valid config
  rw [← eachFits_iff_fits ht, ← entriesOf_filter] at hover
  obtain ⟨pre, entry, post, b', hitems, hpre, hpanic⟩ := feed_overflows ht _ hv hover
  -- the panic comes before any error of the reader
  obtain ⟨pre₀, rest₀, rfl, hpre₀, hrest₀⟩ := List.filter_eq_append_iff.mp hitems
  obtain ⟨skip, post₀, rfl, -, -, -⟩ := List.filter_eq_cons_iff.mp hrest₀
  have hclean : faultsOf pre = [] := by
    rw [← List.append_assoc] at hlast
    have hboth := hlast.before_entry
    rw [faultsOf_append] at hboth
    rw [← hpre₀, faultsOf_filter]
    exact (List.append_eq_nil_iff.mp hboth).1
  obtain ⟨hemits, herrors⟩ := fed_emits ht pre hv hpre
  rw [hclean] at herrors
  have hrows : ∀ tag, tagRows tag (batchesOf (fed tryNew pre (ArrowBatcher.new config)).1) <+:
      ((entriesOf (pre₀ ++ (skip ++ .ok entry :: post₀))).filter
        (filter.matchesEntry globMatch)).flatMap (config.taken tag) := by
    intro tag
    have htag := hemits.rows tag
    rw [hnil, List.nil_append] at htag
    have hpart : tagRows tag (batchesOf (fed tryNew pre (ArrowBatcher.new config)).1) <+:
        (entriesOf pre).flatMap (config.taken tag) := ⟨_, htag⟩
    rw [← entriesOf_filter, hitems, entriesOf, List.filterMap_append, List.flatMap_append]
    exact hpart.trans (List.prefix_append _ _)
  have hout : (feed tryNew ((pre₀ ++ (skip ++ .ok entry :: post₀)).filter (filter.keeps globMatch))
      (ArrowBatcher.new config)).1 =
        (batchesOf (fed tryNew pre (ArrowBatcher.new config)).1).map .ok ++
          .error (.fault .panic) :: (feed tryNew post b').1 := by
    rw [hitems, feed_of_panic hpanic, ← eq_batches_of_errors herrors]
  obtain ⟨ts, rest, hexported, hmem, hsame⟩ := exported_leading hout
  exact ⟨ts, rest, hexported, fun t ht => hemits.batches t (hmem t ht), fun tag htag =>
    (hsame tag htag).symm ▸ hrows tag⟩

end Run

/-- The entries that pass the filter on the database and the key pass the one on the types
as well, unless they have no row under the requested tags. -/
theorem filtered_rows (globMatch : Bytes → Bytes → Bool) (db : Option Nat)
    (keyPattern : Option Bytes) {tags : Finset TypeTag} {tag : TypeTag} (htag : tag ∈ tags)
    (config : BatcherConfig) (entries : List RdbEntry) :
    (entries.filter (EntryFilter.matchesEntry globMatch
        ⟨db, some tags, keyPattern, config.heuristics⟩)).flatMap (config.taken tag) =
      (entries.filter (EntryFilter.matchesEntry globMatch
        ⟨db, none, keyPattern, config.heuristics⟩)).flatMap (config.taken tag) := by
  apply flatMap_filter_of_nil
  · intro entry _ hplain htyped
    have hno : EntryFilter.matchesAnyType ⟨db, some tags, keyPattern, config.heuristics⟩ entry tags =
        false := by
      unfold EntryFilter.matchesEntry at hplain htyped
      simp only [Option.any_none, Option.any_some, Bool.false_eq_true, if_false] at hplain htyped
      split at hplain
      · cases hplain
      · rename_i hdb
        rw [if_neg hdb] at htyped
        split at htyped
        · rename_i hmatch
          simpa using hmatch
        · rw [hplain] at htyped
          cases htyped
    have hnone := rowsUnder_of_not_matches hno htag
    unfold BatcherConfig.taken
    split
    · rfl
    · exact hnone
  · intro entry _ htyped
    unfold EntryFilter.matchesEntry at htyped ⊢
    simp only [Option.any_none, Option.any_some, Bool.false_eq_true, if_false] at htyped ⊢
    split at htyped
    · cases htyped
    · rename_i hdb
      rw [if_neg hdb]
      split at htyped
      · cases htyped
      · exact htyped

/-- Asking for some tags gives, under each of them, the rows of the export without a tag
filter, nothing else, and the same errors and count of unsupported types, exactly when
neither of the two runs panics: the builders have room for the entries that pass all
filters, and for those that pass the ones on the database and the key. -/
theorem type_filter_pushdown {σ ε : Type} (tryNew : TryNew ε) (ht : TryNewAccepts tryNew)
    (globMatch : Bytes → Bytes → Bool) (inner : EntryIter σ) (s s' : σ)
    (items : List (Res RdbEntry)) (h : Yields inner s items s') (db : Option Nat)
    (keyPattern : Option Bytes) (tags : Finset TypeTag) (config : BatcherConfig) :
    (∃ rounds xs ys last last', (∀ n, rounds ≤ n →
        Yields (exportBatches tryNew globMatch ⟨db, some tags, keyPattern, config.heuristics⟩ inner n)
          ((ArrowBatcher.new config).process s) xs last ∧
        Yields (exportBatches tryNew globMatch ⟨db, none, keyPattern, config.heuristics⟩ inner n)
          ((ArrowBatcher.new config).process s) ys last') ∧
      (∀ tag ∈ tags, tagRows tag (batchesOf xs) = tagRows tag (batchesOf ys)) ∧
      (∀ t ∈ batchesOf xs, t.tag ∈ tags) ∧
      errorsOf xs = (faultsOf items).map .fault ∧ errorsOf ys = (faultsOf items).map .fault ∧
      last.skippedCount = items.countP isUnknownType ∧
      last'.skippedCount = items.countP isUnknownType) ↔
    config.Fits ((entriesOf items).filter (EntryFilter.matchesEntry globMatch
        ⟨db, some tags, keyPattern, config.heuristics⟩)) ∧
      config.Fits ((entriesOf items).filter (EntryFilter.matchesEntry globMatch
        ⟨db, none, keyPattern, config.heuristics⟩)) := by
  obtain ⟨n₁, last, hskipped, hy⟩ := exportBatches_yields tryNew globMatch
    ⟨db, some tags, keyPattern, config.heuristics⟩ config h
  obtain ⟨n₂, last', hskipped', hy'⟩ := exportBatches_yields tryNew globMatch
    ⟨db, none, keyPattern, config.heuristics⟩ config h
  constructor
  · rintro ⟨rounds, xs, ys, l, l', hboth, -, -, hxs, hys, -⟩
    have hn := Nat.le_max_right rounds (max n₁ n₂)
    obtain ⟨hrun, hrun'⟩ := hboth _ (Nat.le_max_left rounds (max n₁ n₂))
    rw [(hrun.unique (hy _ ((Nat.le_max_left _ _).trans hn))).1] at hxs
    rw [(hrun'.unique (hy' _ ((Nat.le_max_right _ _).trans hn))).1] at hys
    exact ⟨(exported_errors ht _ config items).mp hxs, (exported_errors ht _ config items).mp hys⟩
  · rintro ⟨hfits, hfits'⟩
    refine ⟨max n₁ n₂, _, _, last, last', fun n hn =>
      ⟨hy n (le_trans (le_max_left _ _) hn), hy' n (le_trans (le_max_right _ _) hn)⟩,
      fun tag htag => ?_, exported_tags rfl config items, (exported_errors ht _ config items).mpr hfits,
      (exported_errors ht _ config items).mpr hfits', hskipped, hskipped'⟩
    rw [exported_rows ht hfits (by rintro _ ⟨⟩; exact htag), exported_rows ht hfits' (by rintro _ ⟨⟩)]
    exact filtered_rows globMatch db keyPattern htag config (entriesOf items)

/-- The string "k" with the value "v". -/
def valueEntry : RdbEntry :=
  keyEntry 0 rdbTypeString (none, none, none) [107] (.string [118]) none none

/-- A list of four empty elements, and then the string. -/
def listThenString (key : Bytes) : List (Res RdbEntry) := [.ok (fourEntry key), .ok valueEntry]

theorem listThenString_strings (globMatch : Bytes → Bytes → Bool) (key : Bytes) :
    (entriesOf (listThenString key)).filter (EntryFilter.matchesEntry globMatch
      ⟨none, some {.string}, none, Heuristic.all⟩) = [valueEntry] := rfl

theorem exported_overflow {ε : Type} (tryNew : TryNew ε) (globMatch : Bytes → Bytes → Bool)
    (heuristics : Finset Heuristic) {config : BatcherConfig} {entry : RdbEntry}
    (hover : ¬ (ArrowBatcher.new config).EntryFits entry) (items : List (Res RdbEntry)) :
    ∃ rest, exported tryNew globMatch ⟨none, none, none, heuristics⟩ config (.ok entry :: items) =
      .error (.fault .panic) :: rest := by
  obtain ⟨b', hpanic⟩ := @ArrowBatcher.push_panics _ tryNew _ (ArrowBatcher.new_valid config).1 _ hover
  have hkeep : EntryFilter.keeps globMatch ⟨none, none, none, heuristics⟩ (.ok entry) = true := rfl
  unfold exported
  simp only [List.filter_cons_of_pos hkeep]
  have hfeed := @feed_of_panic _ _ [] _ _ _ hpanic
  exact ⟨_, hfeed _⟩

/-- A list of four empty elements under the longest key, and then a string: with only
strings requested the string is exported, and without a filter the first call panics. -/
theorem type_filter_visible : ∃ (rounds : Nat) (batches : List TypedBatch)
    (last : BatchIterator (List (Res RdbEntry))), ∀ n, rounds ≤ n →
    Yields (exportBatches checkedTryNew (fun _ _ => true) ⟨none, some {.string}, none, Heuristic.all⟩
        listNext n)
      ((ArrowBatcher.new BatcherConfig.default).process (listThenString wideKey))
      (batches.map .ok) last ∧
    tagRows .string batches = TypeTag.string.entryRows valueEntry ∧
    (exportBatches checkedTryNew (fun _ _ => true) ⟨none, none, none, Heuristic.all⟩ listNext n
      ((ArrowBatcher.new BatcherConfig.default).process (listThenString wideKey))).1 =
        some (.error (.fault .panic)) := by
  obtain ⟨n₁, last, -, hy⟩ := exportBatches_yields checkedTryNew (fun _ _ => true)
    ⟨none, some {.string}, none, Heuristic.all⟩ BatcherConfig.default
    (yields_listNext (listThenString wideKey))
  obtain ⟨n₂, last', -, hy'⟩ := exportBatches_yields checkedTryNew (fun _ _ => true)
    ⟨none, none, none, Heuristic.all⟩ BatcherConfig.default (yields_listNext (listThenString wideKey))
  have hfits : BatcherConfig.default.Fits ((entriesOf (listThenString wideKey)).filter
      (EntryFilter.matchesEntry (fun _ _ => true) ⟨none, some {.string}, none, Heuristic.all⟩)) := by
    rw [listThenString_strings, ← eachFits_iff_fits checkedTryNew_accepts]
    decide +kernel
  have hrows := @exported_rows _ _ _ checkedTryNew_accepts _ _ _ hfits .string (by rintro _ ⟨⟩; simp)
  rw [listThenString_strings] at hrows
  refine ⟨max n₁ n₂, _, last, fun n hn => ⟨?_, hrows, ?_⟩⟩
  · have herrors := (exported_errors checkedTryNew_accepts _ _ (listThenString wideKey)).mpr hfits
    rw [← eq_batches_of_errors herrors]
    exact hy n (le_trans (le_max_left _ _) hn)
  · have hover : ¬ (ArrowBatcher.new BatcherConfig.default).EntryFits (fourEntry wideKey) := by
      intro hentry
      have hone : BatcherConfig.default.Fits [fourEntry wideKey] := by
        rw [← eachFits_iff_fits checkedTryNew_accepts]
        exact ⟨hentry, trivial⟩
      exact wideEntry_overflows rfl [] hone
    obtain ⟨rest, hfirst⟩ := exported_overflow checkedTryNew (fun _ _ => true) Heuristic.all hover
      [.ok valueEntry]
    have hrun := hy' n (le_trans (le_max_right _ _) hn)
    rw [listThenString, hfirst] at hrun
    obtain ⟨m, hx, -⟩ := hrun.cons_inv
    rw [listThenString, hx]

/-- A sorted set with one member, whose score is a geohash. -/
def geoMember : RdbEntry :=
  keyEntry 0 rdbTypeZset2 (none, none, none) [107] (.sortedSet [([97], ⟨0#64⟩)]) none none

theorem type_filter_pushdown_geo : ∃ rounds xs ys last last', (∀ n, rounds ≤ n →
    Yields (exportBatches checkedTryNew (fun _ _ => true) ⟨none, some {.geo}, none, Heuristic.all⟩
      listNext n) ((ArrowBatcher.new BatcherConfig.default).process [.ok geoMember, .ok valueEntry])
      xs last ∧
    Yields (exportBatches checkedTryNew (fun _ _ => true) ⟨none, none, none, Heuristic.all⟩
      listNext n) ((ArrowBatcher.new BatcherConfig.default).process [.ok geoMember, .ok valueEntry])
      ys last') ∧
    tagRows .geo (batchesOf xs) = tagRows .geo (batchesOf ys) := by
  have hfits : ∀ typeTags ∈ [some {.geo}, none], BatcherConfig.default.Fits
      ((entriesOf [.ok geoMember, .ok valueEntry]).filter
        (EntryFilter.matchesEntry (fun _ _ => true) ⟨none, typeTags, none, Heuristic.all⟩)) := by
    intro typeTags htags
    rw [← eachFits_iff_fits checkedTryNew_accepts]
    revert typeTags
    decide +kernel
  obtain ⟨rounds, xs, ys, last, last', hy, hrows, -⟩ := (type_filter_pushdown checkedTryNew
    checkedTryNew_accepts (fun _ _ => true) listNext [.ok geoMember, .ok valueEntry] []
    [.ok geoMember, .ok valueEntry] (yields_listNext _) none none {.geo} BatcherConfig.default).mpr
    ⟨hfits _ (by simp), hfits _ (by simp)⟩
  exact ⟨rounds, xs, ys, last, last', hy, hrows .geo (Finset.mem_singleton_self _)⟩

end ValkeyRdb
