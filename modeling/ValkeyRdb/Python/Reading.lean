import ValkeyRdb.Cli.ExportFiles
import ValkeyRdb.Cli.Shares
import ValkeyRdb.Python.Bindings

/-!
# Reading from Python (python/src/lib.rs:52-173)

`read` gives the tables that a program makes of the batches of `read_batches`, or raises
what the iterator raises first. A push that panics ends both.
-/

namespace ValkeyRdb

namespace Python

open Cli (RdbInput System pulled handed readerItems keptEntries ofBatchError ReadsThrough readsThrough_iff
  handed_leading handed_whole pulled_corrupt pulled_panics args_reader_reachable)

/-! ### The settings -/

/-- Arguments of an export with the same settings and no filter. -/
def ReadArgs.pipeline (args : ReadArgs) (heuristics : Finset Heuristic) : ValkeyRdb.ExportArgs where
  db := none
  typeTags := none
  keyPattern := none
  heuristics := heuristics
  noChunking := args.noChunking
  maxKeyElements := none
  batchSize := args.batchSize
  batchBytes := args.batchBytes
  maxEntryBytes := args.maxEntryBytes

theorem ReadArgs.config_ok {args : ReadArgs} {config : BatcherConfig} (h : args.config = .ok config) :
    args.batchSize ≠ 0 ∧ ∃ heuristics, Heuristic.parseSet args.heuristic = .ok heuristics ∧
      config = (args.pipeline heuristics).config := by
  unfold ReadArgs.config makeBatcherConfig parseHeuristics at h
  split at h
  · cases h
  · rename_i hsize
    refine ⟨hsize, ?_⟩
    cases hp : Heuristic.parseSet args.heuristic with
    | error e =>
      simp only [hp] at h
      cases h
    | ok heuristics =>
      simp only [hp] at h
      cases h
      refine ⟨heuristics, rfl, ?_⟩
      unfold ReadArgs.pipeline ValkeyRdb.ExportArgs.config
      cases args.batchBytes <;> rfl

theorem ReadArgs.config_of_parsed {args : ReadArgs} (hsize : args.batchSize ≠ 0)
    {heuristics : Finset Heuristic} (h : Heuristic.parseSet args.heuristic = .ok heuristics) :
    args.config = .ok (args.pipeline heuristics).config := by
  unfold ReadArgs.config makeBatcherConfig parseHeuristics
  rw [if_neg hsize]
  simp only [h]
  unfold ReadArgs.pipeline ValkeyRdb.ExportArgs.config
  cases args.batchBytes <;> rfl

/-- A filter that lets every key pass. -/
abbrev allKeys : Bytes → Bytes → Bool := fun _ _ => true

section Items

variable {ε : Type} {tryNew : TryNew ε}

theorem pipeline_reader (args : ReadArgs) (heuristics : Finset Heuristic) (r : RdbReader) :
    (args.pipeline heuristics).reader r =
      if args.noChunking = true then r.withoutChunking else r := rfl

/-- Without filters the batcher gets every item, whatever the matcher. -/
theorem pulled_eq_feed (tryNew : TryNew ε) (globMatch : Bytes → Bytes → Bool) (args : ReadArgs)
    (heuristics : Finset Heuristic) (source : RdbInput) (r : RdbReader) :
    pulled tryNew globMatch (args.pipeline heuristics) source r =
      (feed tryNew (readerItems (args.pipeline heuristics) r)
        (ArrowBatcher.new (args.pipeline heuristics).config)).1.map
          (Except.mapError (ofBatchError source)) := by
  have hkeep : ∀ x ∈ readerItems (args.pipeline heuristics) r,
      (args.pipeline heuristics).filter.keeps globMatch x = true := by
    rintro (f | e) -
    · rfl
    · rfl
  unfold pulled exported
  rw [List.filter_eq_self.mpr hkeep]
  rfl

theorem batchNext_yields (tryNew : TryNew ε) {input : Bytes} {r : RdbReader} (h : Reachable input r)
    (args : ReadArgs) (heuristics : Finset Heuristic) (source : RdbInput) {n : Nat}
    (hn : (readerItems (args.pipeline heuristics) r).length + 2 ≤ n) :
    ∃ last, Yields (batchNext tryNew source n)
      ((ArrowBatcher.new (args.pipeline heuristics).config).process
        ((args.pipeline heuristics).reader r))
      (pulled tryNew allKeys (args.pipeline heuristics) source r) last := by
  have hy := (args_reader_reachable h (args.pipeline heuristics)).yields
  have hbatches : Yields (BatchIterator.next tryNew RdbReader.next n)
      ((ArrowBatcher.new (args.pipeline heuristics).config).process ((args.pipeline heuristics).reader r))
      (feed tryNew (readerItems (args.pipeline heuristics) r)
        (ArrowBatcher.new (args.pipeline heuristics).config)).1 _ :=
    (BatchIterator.calls_feed _ rfl rfl hy).yields hn
  have hstep : ∀ it, batchNext (ε := ε) tryNew source n it =
      ((BatchIterator.next tryNew RdbReader.next n it).1.map (Except.mapError (ofBatchError source)),
        (BatchIterator.next tryNew RdbReader.next n it).2) := fun _ => rfl
  rw [pulled_eq_feed]
  exact ⟨_, hbatches.map hstep⟩

/-- What the module collects is what the pipeline pulls. -/
theorem collect_batchNext (tryNew : TryNew ε) {input : Bytes} {r : RdbReader} (h : Reachable input r)
    (args : ReadArgs) (heuristics : Finset Heuristic) (source : RdbInput) :
    ∃ rounds, ∀ n, rounds ≤ n → (collect (batchNext tryNew source n) n
      ((ArrowBatcher.new (args.pipeline heuristics).config).process
        ((args.pipeline heuristics).reader r))).1 =
      pulled tryNew allKeys (args.pipeline heuristics) source r := by
  refine ⟨max ((readerItems (args.pipeline heuristics) r).length + 2)
    ((pulled tryNew allKeys (args.pipeline heuristics) source r).length + 1), fun n hn => ?_⟩
  obtain ⟨hrounds, hlen⟩ := max_le_iff.mp hn
  obtain ⟨last, hy⟩ := batchNext_yields tryNew h args heuristics source hrounds
  rw [hy.collect_eq hlen]

end Items

/-! ### Programs that take batches -/

/-- What a program has that takes the items of an iterator: all of them, or the first
exception. -/
def drain {α : Type} (items : List (PyResult α)) : PyResult (List α) := items.mapM id

/-- The items that a program gets of an iterator until there are no more, or a call panics. -/
inductive Taken {σ α : Type} (next : σ → Option (PyResult α) × σ) : σ → List (PyResult α) → Prop
  | ended {s s' : σ} (h : next s = (none, s')) : Taken next s []
  | panicked {s s' : σ} (h : next s = (some (.error .panic), s')) : Taken next s [.error .panic]
  | item {s m : σ} {x : PyResult α} {xs : List (PyResult α)} (h : next s = (some x, m))
      (hx : x ≠ .error .panic) (hxs : Taken next m xs) : Taken next s (x :: xs)

/-- The items up to the first panic. -/
def untilPanic {α : Type} : List (PyResult α) → List (PyResult α)
  | [] => []
  | x :: xs =>
    match x with
    | .error .panic => [.error .panic]
    | _ => x :: untilPanic xs

theorem untilPanic_cons {α : Type} {x : PyResult α} (hx : x ≠ .error .panic) (xs : List (PyResult α)) :
    untilPanic (x :: xs) = x :: untilPanic xs := by
  cases x with
  | ok a => rfl
  | error e =>
    cases e with
    | panic => exact absurd rfl hx
    | raised e => rfl
    | diverge => rfl

theorem taken_of_yields {σ α : Type} {next : σ → Option (PyResult α) × σ} {s last : σ}
    {xs : List (PyResult α)} (h : Yields next s xs last) : Taken next s (untilPanic xs) := by
  induction xs generalizing s with
  | nil => exact .ended h.nil_inv
  | cons x xs ih =>
    obtain ⟨m, hx, hrest⟩ := h.cons_inv
    by_cases hp : x = .error .panic
    · subst hp
      exact .panicked hx
    · rw [untilPanic_cons hp]
      exact .item hx hp (ih hrest)

/-- The batches by name, in the order of the types. -/
def grouped (batches : List (Bytes × RecordBatch)) : List (Bytes × List RecordBatch) :=
  (TypeTag.all.filter fun tag => batches.any fun b => b.1 == tag.asStr).map fun tag =>
    (tag.asStr, (batches.filter fun b => b.1 == tag.asStr).map Prod.snd)

section Groups

variable {ε : Type} {errorText : ε → String}

/-- An item of the iterator as Python sees it. -/
def toPyItem (errorText : ε → String) :
    Except (Cli.ArrowConvertError ε) TypedBatch → PyResult (Bytes × RecordBatch)
  | .ok t => .ok (t.tag.asStr, t.batch)
  | .error e => .error (arrowToPyErr errorText e)

/-- The loop of `read` on the items of the iterator. -/
def collectTables : List (Except (Cli.ArrowConvertError ε) TypedBatch) →
    SortedMap TypeTag (List RecordBatch) →
      Except (ThreadError ε) (SortedMap TypeTag (List RecordBatch))
  | [], perType => .ok perType
  | .error e :: _, _ => .error (.arrow e)
  | .ok t :: items, perType =>
    collectTables items (perType.upsert t.tag fun batches => batches.getD [] ++ [t.batch])

theorem perTypeLoop_eq {next : BatchIterator RdbReader →
      Option (Except (Cli.ArrowConvertError ε) TypedBatch) × BatchIterator RdbReader}
    {it last : BatchIterator RdbReader} {items : List (Except (Cli.ArrowConvertError ε) TypedBatch)}
    (h : Yields next it items last) {n : Nat} (hn : items.length < n)
    (perType : SortedMap TypeTag (List RecordBatch)) :
    perTypeLoop next n it perType = collectTables items perType := by
  induction items generalizing it n perType with
  | nil =>
    obtain ⟨m, rfl⟩ : ∃ m, n = m + 1 := ⟨n - 1, by omega⟩
    simp only [perTypeLoop, h.nil_inv, collectTables]
  | cons x items ih =>
    obtain ⟨m, rfl⟩ : ∃ m, n = m + 1 := ⟨n - 1, by omega⟩
    obtain ⟨it', hx, hrest⟩ := h.cons_inv
    rw [List.length_cons] at hn
    cases x with
    | error e => simp only [perTypeLoop, hx, collectTables]
    | ok t =>
      simp only [perTypeLoop, hx, collectTables]
      exact ih hrest (by omega) _

/-- The tables hold what they held and the batches of their tag. -/
theorem collectTables_ok (ts : List TypedBatch) (perType : SortedMap TypeTag (List RecordBatch)) :
    ∃ tables, collectTables (ε := ε) (ts.map .ok) perType = .ok tables ∧
      ∀ tag, tables.get? tag = if ∃ t ∈ ts, t.tag = tag then
        some ((perType.get? tag).getD [] ++ tagBatches tag ts) else perType.get? tag := by
  induction ts generalizing perType with
  | nil => exact ⟨perType, rfl, fun tag => by simp⟩
  | cons t ts ih =>
    obtain ⟨tables, hrun, htables⟩ :=
      ih (perType.upsert t.tag fun batches => batches.getD [] ++ [t.batch])
    refine ⟨tables, hrun, fun tag => ?_⟩
    have htag := htables tag
    by_cases hne : t.tag = tag
    · subst hne
      have hcons : tagBatches t.tag (t :: ts) = t.batch :: tagBatches t.tag ts := by
        simp [tagBatches]
      rw [SortedMap.get?_upsert_self] at htag
      have hex : ∃ u ∈ t :: ts, u.tag = t.tag := ⟨t, List.mem_cons_self, rfl⟩
      rw [if_pos hex, htag, hcons]
      split
      · simp
      · rename_i hno
        have hnil : tagBatches t.tag ts = [] := by
          unfold tagBatches
          rw [List.filter_eq_nil_iff.mpr]
          · rfl
          · intro u hu
            simpa using fun h => hno ⟨u, hu, h⟩
        rw [hnil]
    · rw [SortedMap.get?_upsert_of_ne _ _ (Ne.symm hne)] at htag
      have hcons : tagBatches tag (t :: ts) = tagBatches tag ts := by simp [tagBatches, hne]
      rw [htag, hcons]
      simp [hne]

theorem collectTables_error {ts : List TypedBatch} {e : Cli.ArrowConvertError ε}
    (items : List (Except (Cli.ArrowConvertError ε) TypedBatch))
    (perType : SortedMap TypeTag (List RecordBatch)) :
    collectTables (ts.map .ok ++ .error e :: items) perType = .error (.arrow e) := by
  induction ts generalizing perType with
  | nil => rfl
  | cons t ts ih => exact ih _

theorem drain_ok {α : Type} (xs : List α) : drain (xs.map .ok) = .ok xs := by
  induction xs with
  | nil => rfl
  | cons x xs ih =>
    unfold drain at ih ⊢
    rw [List.map_cons, List.mapM_cons, ih]
    rfl

theorem drain_error {α : Type} (xs : List α) (e : Failure) (rest : List (PyResult α)) :
    drain (xs.map .ok ++ .error e :: rest) = .error e := by
  induction xs with
  | nil => rfl
  | cons x xs ih =>
    unfold drain at ih ⊢
    rw [List.map_cons, List.cons_append, List.mapM_cons, ih]
    rfl

/-- A program that stops at an exception does not see what is behind a panic. -/
theorem drain_untilPanic {α : Type} (xs : List (PyResult α)) : drain (untilPanic xs) = drain xs := by
  induction xs with
  | nil => rfl
  | cons x xs ih =>
    cases x with
    | ok a =>
      rw [untilPanic_cons (fun h => by cases h)]
      unfold drain at ih ⊢
      rw [List.mapM_cons, List.mapM_cons, ih]
    | error e =>
      by_cases hp : e = .panic
      · subst hp
        rfl
      · rw [untilPanic_cons fun h => hp (Except.error.inj h)]
        rfl

/-- The dictionary is that of the batches by their names. -/
theorem tableDict_eq {ts : List TypedBatch} {tables : SortedMap TypeTag (List RecordBatch)}
    (h : ∀ tag, tables.get? tag = if ∃ t ∈ ts, t.tag = tag then some (tagBatches tag ts) else none) :
    tableDict tables = grouped (ts.map fun t => (t.tag.asStr, t.batch)) := by
  have hname : ∀ tag (t : TypedBatch), (t.tag.asStr == tag.asStr) = (t.tag == tag) := by
    intro tag t
    by_cases heq : t.tag = tag
    · simp [heq]
    · have hne : t.tag.asStr ≠ tag.asStr := fun hs => heq (asStr_injective hs)
      rw [beq_eq_false_iff_ne.mpr hne, beq_eq_false_iff_ne.mpr heq]
  have hsome : ∀ (f : TypeTag → Bytes × List RecordBatch) (tags : List TypeTag),
      tags.map f = tags.filterMap fun tag => some (f tag) := by
    intro f tags
    exact (congrFun List.filterMap_eq_map tags).symm
  unfold tableDict grouped
  rw [tables.entries_eq TypeTag.all_sorted TypeTag.mem_all, List.map_filterMap, hsome,
    List.filterMap_filter]
  apply List.filterMap_congr
  intro tag _
  have hany : ((ts.map fun t => (t.tag.asStr, t.batch)).any fun b => b.1 == tag.asStr) = true ↔
      ∃ t ∈ ts, t.tag = tag := by
    rw [List.any_map, List.any_eq_true]
    simp [hname]
  rw [h]
  by_cases hex : ∃ t ∈ ts, t.tag = tag
  · rw [if_pos hex, if_pos (hany.mpr hex), List.filter_map, List.map_map]
    simp only [Option.map_some, Function.comp_def, hname, tagBatches]
  · rw [if_neg hex, if_neg (mt hany.mp hex)]
    rfl

end Groups

/-! ### `read` and `read_batches` -/

section Read

variable {ω ε : Type} {errorText : ε → String} {tryNew : TryNew ε} {sys : System ω}

/-- How far the two functions get before the first batch. -/
theorem read_cases (errorText : ε → String) (tryNew : TryNew ε) (sys : System ω) (args : ReadArgs)
    (w : ω) :
    (∃ e w', readBatches errorText sys args w = (.error e, w') ∧
      (∀ n, read errorText sys tryNew n args w = (.error e, w')) ∧
      ∀ config source, args.config = .ok config → (sys.openInput args.path w).1 = .ok source →
        ∃ f, RdbReader.new source.bytes = .error f ∧ e = rdbToPyErr (source.fault f)) ∨
    ∃ heuristics source r w', args.batchSize ≠ 0 ∧ Heuristic.parseSet args.heuristic = .ok heuristics ∧
      sys.openInput args.path w = (.ok source, w') ∧ RdbReader.new source.bytes = .ok r := by
  cases hc : args.config with
  | error e =>
    refine .inl ⟨e, w, ?_, fun n => ?_, nofun⟩
    · simp only [readBatches, hc]
    · simp only [read, hc]
  | ok config =>
    rcases hfile : sys.openInput args.path w with ⟨e | source, w₁⟩
    · have hopen : openReader (ε := ε) sys args.path args.noChunking w = (.error (.io e), w₁) := by
        simp only [openReader, hfile]
      refine .inl ⟨.raised (.osError e.text), w₁, ?_, fun n => ?_, fun _ _ _ h => by cases h⟩
      · simp only [readBatches, hc, hopen, ThreadError.toPyErr]
      · simp only [read, hc, hopen, ThreadError.toPyErr]
    · cases hnew : RdbReader.new source.bytes with
      | error f =>
        have hopen : openReader (ε := ε) sys args.path args.noChunking w =
            (.error (.rdb (source.fault f)), w₁) := by
          simp only [openReader, hfile, hnew]
        refine .inl ⟨rdbToPyErr (source.fault f), w₁, ?_, fun n => ?_, fun _ source' _ h => ?_⟩
        · simp only [readBatches, hc, hopen, ThreadError.toPyErr]
        · simp only [read, hc, hopen, ThreadError.toPyErr]
        · cases h
          exact ⟨f, hnew, rfl⟩
      | ok r =>
        obtain ⟨hsize, heuristics, hparse, -⟩ := args.config_ok hc
        exact .inr ⟨heuristics, source, r, w₁, hsize, hparse, rfl, hnew⟩

/-- The items of a `BatchReader`. -/
theorem batchReader_yields (errorText : ε → String) {n : Nat} {source : RdbInput}
    {it last : BatchIterator RdbReader} {items : List (Except (Cli.ArrowConvertError ε) TypedBatch)}
    (h : Yields (batchNext tryNew source n) it items last) :
    Yields (BatchReader.next errorText tryNew n) ⟨source, it⟩ (items.map (toPyItem errorText))
      ⟨source, last⟩ := by
  refine h.map (f := BatchReader.mk source) fun s => ?_
  unfold BatchReader.next
  rcases batchNext tryNew source n s with ⟨_ | x, s'⟩
  · rfl
  · cases x <;> rfl

/-- What `read` makes of the end of its loop. -/
def tablesResult (errorText : ε → String)
    (x : Except (ThreadError ε) (SortedMap TypeTag (List RecordBatch))) :
    PyResult (List (Bytes × List RecordBatch)) :=
  (x.mapError (ThreadError.toPyErr errorText)).map tableDict

/-- The loop of `read` and a program that drains the iterator. -/
theorem collectTables_drain (errorText : ε → String)
    (items : List (Except (Cli.ArrowConvertError ε) TypedBatch)) :
    tablesResult errorText (collectTables items .empty) =
      (drain (items.map (toPyItem errorText))).map grouped := by
  have hok : ∀ ts : List TypedBatch, (ts.map .ok : List (Except (Cli.ArrowConvertError ε) TypedBatch)).map
      (toPyItem errorText) = (ts.map fun t => (t.tag.asStr, t.batch)).map .ok := by
    intro ts
    rw [List.map_map, List.map_map]
    rfl
  have hcases := outcomes_cases items
  generalize untilError items = ts at hcases
  rcases hcases with rfl | ⟨e, rest, rfl⟩
  · obtain ⟨tables, hrun, htables⟩ := collectTables_ok (ε := ε) ts .empty
    rw [hok, drain_ok, hrun]
    exact congrArg Except.ok (tableDict_eq htables)
  · rw [collectTables_error, List.map_append, hok, List.map_cons]
    exact (congrArg (Except.map grouped) (drain_error _ _ _)).symm

/-- The tables of a file under some settings: one for each type with rows, in the order of
the types. -/
def IsTables (args : ValkeyRdb.ExportArgs) (r : RdbReader)
    (dict : List (Bytes × List RecordBatch)) : Prop :=
  ∃ batches : TypeTag → List RecordBatch,
    dict = (TypeTag.all.filter fun tag =>
      decide ((entriesOf (readerItems args r)).flatMap (args.config.taken tag) ≠ [])).map
        (fun tag => (tag.asStr, batches tag)) ∧
    ∀ tag, (batches tag).flatMap RecordBatch.rows =
      (entriesOf (readerItems args r)).flatMap (args.config.taken tag)

/-- No column of the batches is to hold more than an offset can tell. -/
def ReadArgs.HasRoom (args : ReadArgs) (input : Bytes) : Prop :=
  ∀ heuristics r, Heuristic.parseSet args.heuristic = .ok heuristics → RdbReader.new input = .ok r →
    (args.pipeline heuristics).config.Fits (entriesOf (readerItems (args.pipeline heuristics) r))

theorem keptEntries_all (args : ReadArgs) (heuristics : Finset Heuristic) (r : RdbReader) :
    keptEntries allKeys (args.pipeline heuristics) r =
      entriesOf (readerItems (args.pipeline heuristics) r) :=
  List.filter_eq_self.mpr fun _ _ => rfl

theorem ReadArgs.hasRoom_iff {args : ReadArgs} {input : Bytes} {r : RdbReader}
    {heuristics : Finset Heuristic} (hparse : Heuristic.parseSet args.heuristic = .ok heuristics)
    (hnew : RdbReader.new input = .ok r) : args.HasRoom input ↔
      (args.pipeline heuristics).config.Fits (keptEntries allKeys (args.pipeline heuristics) r) := by
  rw [keptEntries_all]
  refine ⟨fun h => h heuristics r hparse hnew, fun h heuristics' r' hparse' hnew' => ?_⟩
  rw [hparse] at hparse'
  cases hparse'
  rw [hnew] at hnew'
  cases hnew'
  exact h

/-- The batches of a file that is read to its end, by their names. -/
theorem grouped_isTables (ht : TryNewAccepts tryNew) (args : ReadArgs) (heuristics : Finset Heuristic)
    {input : Bytes} {r : RdbReader} (hr : Reachable input r)
    (hfits : (args.pipeline heuristics).config.Fits (keptEntries allKeys (args.pipeline heuristics) r))
    (hread : faultsOf (readerItems (args.pipeline heuristics) r) = []) :
    IsTables (args.pipeline heuristics) r (grouped
      ((handed tryNew allKeys (args.pipeline heuristics) r).map fun t => (t.tag.asStr, t.batch))) := by
  have hrows := (handed_whole ht hfits hread).2
  have hwell := (handed_leading ht allKeys hr (args.pipeline heuristics)).1
  have hall : ∀ tag, ∀ tags, (args.pipeline heuristics).typeTags = some tags → tag ∈ tags :=
    fun tag tags htags => by cases htags
  replace hrows := fun tag => hrows tag (hall tag)
  rw [keptEntries_all] at hrows
  generalize handed tryNew allKeys (args.pipeline heuristics) r = ts at hrows hwell ⊢
  have hname : ∀ tag (t : TypedBatch), (t.tag.asStr == tag.asStr) = (t.tag == tag) := by
    intro tag t
    by_cases heq : t.tag = tag
    · simp [heq]
    · have hne : t.tag.asStr ≠ tag.asStr := fun hs => heq (asStr_injective hs)
      rw [beq_eq_false_iff_ne.mpr hne, beq_eq_false_iff_ne.mpr heq]
  refine ⟨fun tag => tagBatches tag ts, ?_, fun tag => ?_⟩
  · have hpresent : ∀ tag, ((ts.map fun t => (t.tag.asStr, t.batch)).any fun b => b.1 == tag.asStr) =
        decide ((entriesOf (readerItems (args.pipeline heuristics) r)).flatMap
          ((args.pipeline heuristics).config.taken tag) ≠ []) := by
      intro tag
      rw [← hrows, Bool.eq_iff_iff, decide_eq_true_iff, List.any_map, List.any_eq_true, Ne,
        tagRows_eq_nil_iff hwell]
      simp [hname]
    unfold grouped
    simp only [hpresent]
    apply List.map_congr_left
    intro tag _
    rw [List.filter_map, List.map_map]
    simp only [Function.comp_def, hname, tagBatches]
  · rw [← hrows]
    unfold tagBatches tagRows
    rw [List.flatMap_map]

/-- The first thing that is wrong with a file, read with or without chunking. -/
def FirstFault (noChunking : Bool) (input : Bytes) (f : Fault) : Prop :=
  RdbReader.new input = .error f ∨ ∃ r, RdbReader.new input = .ok r ∧
    (faultsOf (if noChunking = true then r.withoutChunking else r).items.1).head? = some f

/-- What `read` returns. -/
structure ReadMeans (errorText : ε → String) (tryNew : TryNew ε) (sys : System ω) (args : ReadArgs)
    (w : ω) (n : Nat) (result : PyResult (List (Bytes × List RecordBatch)) × ω) : Prop where
  refused : ∀ e w', readBatches errorText sys args w = (.error e, w') → result = (.error e, w')
  drained : ∀ it w', readBatches errorText sys args w = (.ok it, w') → ∃ items,
    Taken (BatchReader.next errorText tryNew n) it items ∧ result = ((drain items).map grouped, w')
  complete : ∀ config source, args.config = .ok config → (sys.openInput args.path w).1 = .ok source →
    ReadsThrough source.bytes → args.HasRoom source.bytes → ∃ heuristics r dict,
      Heuristic.parseSet args.heuristic = .ok heuristics ∧ RdbReader.new source.bytes = .ok r ∧
      result.1 = .ok dict ∧ IsTables (args.pipeline heuristics) r dict
  corrupt : ∀ config source, args.config = .ok config → (sys.openInput args.path w).1 = .ok source →
    ¬ReadsThrough source.bytes → args.HasRoom source.bytes →
      ∃ e, FirstFault args.noChunking source.bytes (.error e) ∧
        result.1 = .error (rdbToPyErr (source.fault (.error e)))
  panicked : ∀ config source, args.config = .ok config → (sys.openInput args.path w).1 = .ok source →
    ¬args.HasRoom source.bytes → result.1 = .error .panic

theorem ReadMeans.of_error {args : ReadArgs} {w w' : ω} {e : Failure} {n : Nat}
    (hbatches : readBatches errorText sys args w = (.error e, w'))
    (hfault : ∀ config source, args.config = .ok config → (sys.openInput args.path w).1 = .ok source →
      ∃ f, RdbReader.new source.bytes = .error f ∧ e = rdbToPyErr (source.fault f)) :
    ReadMeans errorText tryNew sys args w n (.error e, w') := by
  refine ⟨fun e' w'' h => ?_, fun it w'' h => ?_, fun config source hc hfile hr _ => ?_,
    fun config source hc hfile _ _ => ?_, fun config source hc hfile hroom => ?_⟩
  · rw [hbatches] at h
    cases h
    rfl
  · rw [hbatches] at h
    cases h
  · obtain ⟨f, hnew, -⟩ := hfault config source hc hfile
    obtain ⟨r, hnew', -⟩ := hr
    rw [hnew] at hnew'
    cases hnew'
  · obtain ⟨f, hnew, rfl⟩ := hfault config source hc hfile
    obtain ⟨e, rfl⟩ : ∃ e, f = .error e := by
      have hend := new_ends source.bytes
      rw [hnew] at hend
      cases f with
      | error e => exact ⟨e, rfl⟩
      | panic => exact hend.elim
      | diverge => exact hend.elim
    exact ⟨e, .inl hnew, rfl⟩
  · obtain ⟨f, hnew, -⟩ := hfault config source hc hfile
    refine absurd (fun heuristics r _ hnew' => ?_) hroom
    rw [hnew] at hnew'
    cases hnew'

section Opened

variable {args : ReadArgs} {heuristics : Finset Heuristic} {source : RdbInput} {r : RdbReader} {w w' : ω}
  {n : Nat}

theorem openReader_opened (heuristics : Finset Heuristic)
    (hfile : sys.openInput args.path w = (.ok source, w')) (hnew : RdbReader.new source.bytes = .ok r) :
    openReader (ε := ε) sys args.path args.noChunking w =
      (.ok (source, (args.pipeline heuristics).reader r), w') := by
  simp only [openReader, hfile, hnew, pipeline_reader]

theorem readBatches_opened (errorText : ε → String) (hsize : args.batchSize ≠ 0)
    (hparse : Heuristic.parseSet args.heuristic = .ok heuristics)
    (hfile : sys.openInput args.path w = (.ok source, w')) (hnew : RdbReader.new source.bytes = .ok r) :
    readBatches errorText sys args w = (.ok ⟨source, (ArrowBatcher.new
      (args.pipeline heuristics).config).process ((args.pipeline heuristics).reader r)⟩, w') := by
  simp only [readBatches, args.config_of_parsed hsize hparse, openReader_opened heuristics hfile hnew]

/-- `read` drains what the pipeline pulls. -/
theorem read_eq_drain (tryNew : TryNew ε) (errorText : ε → String) (hsize : args.batchSize ≠ 0)
    (hparse : Heuristic.parseSet args.heuristic = .ok heuristics)
    (hfile : sys.openInput args.path w = (.ok source, w')) (hnew : RdbReader.new source.bytes = .ok r)
    (hn : (readerItems (args.pipeline heuristics) r).length + 2 ≤ n)
    (hlen : (pulled tryNew allKeys (args.pipeline heuristics) source r).length < n) :
    read errorText sys tryNew n args w = ((drain ((pulled tryNew allKeys (args.pipeline heuristics)
      source r).map (toPyItem errorText))).map grouped, w') := by
  obtain ⟨last, hy⟩ := batchNext_yields tryNew (Reachable.new hnew) args heuristics source hn
  rw [← collectTables_drain, ← perTypeLoop_eq hy hlen]
  simp only [read, args.config_of_parsed hsize hparse, openReader_opened heuristics hfile hnew]
  rcases perTypeLoop (batchNext tryNew source n) n
    ((ArrowBatcher.new (args.pipeline heuristics).config).process
      ((args.pipeline heuristics).reader r)) .empty with e | perType <;> rfl

/-- The exception that a program raises that takes batches and then meets an error. -/
theorem drain_behind (errorText : ε → String) (ts : List TypedBatch) (e : Cli.ArrowConvertError ε)
    (rest : List (Except (Cli.ArrowConvertError ε) TypedBatch)) :
    drain ((ts.map Except.ok ++ Except.error e :: rest).map (toPyItem errorText)) =
      .error (arrowToPyErr errorText e) := by
  have hok : (ts.map (.ok : TypedBatch → Except (Cli.ArrowConvertError ε) TypedBatch)).map
      (toPyItem errorText) = (ts.map fun t => (t.tag.asStr, t.batch)).map .ok := by
    rw [List.map_map, List.map_map]
    rfl
  rw [List.map_append, hok, List.map_cons]
  exact drain_error _ _ _

/-- What `read` does with a file that was opened and has a header. -/
theorem read_opened (ht : TryNewAccepts tryNew) (errorText : ε → String)
    (hsize : args.batchSize ≠ 0) (hparse : Heuristic.parseSet args.heuristic = .ok heuristics)
    (hfile : sys.openInput args.path w = (.ok source, w')) (hnew : RdbReader.new source.bytes = .ok r) :
    ∃ rounds, ∀ n, rounds ≤ n →
      ReadMeans errorText tryNew sys args w n (read errorText sys tryNew n args w) := by
  refine ⟨max ((readerItems (args.pipeline heuristics) r).length + 2)
    ((pulled tryNew allKeys (args.pipeline heuristics) source r).length + 1), fun n hn => ?_⟩
  obtain ⟨hrounds, hlen⟩ := max_le_iff.mp hn
  have hr := Reachable.new hnew
  have hbatches := readBatches_opened errorText hsize hparse hfile hnew
  have hroom := ReadArgs.hasRoom_iff hparse hnew
  have hthrough := readsThrough_iff hnew (args.pipeline heuristics)
  rw [read_eq_drain tryNew errorText hsize hparse hfile hnew hrounds hlen]
  refine ⟨fun e w'' h => ?_, fun it w'' h => ?_, fun config source' hc hopen hread hfits => ?_,
    fun config source' hc hopen hread hfits => ?_, fun config source' hc hopen hfits => ?_⟩
  · rw [hbatches] at h
    cases h
  · rw [hbatches] at h
    cases h
    obtain ⟨last, hy⟩ := batchNext_yields tryNew hr args heuristics source hrounds
    exact ⟨_, taken_of_yields (batchReader_yields errorText hy), by rw [drain_untilPanic]⟩
  · rw [hfile] at hopen
    cases hopen
    rw [hroom] at hfits
    rw [hthrough] at hread
    refine ⟨heuristics, r, _, hparse, hnew, ?_, grouped_isTables ht args heuristics hr hfits hread⟩
    have hitems : (pulled tryNew allKeys (args.pipeline heuristics) source r).map (toPyItem errorText) =
        ((handed tryNew allKeys (args.pipeline heuristics) r).map
          fun t => (t.tag.asStr, t.batch)).map .ok := by
      rw [(handed_whole ht hfits hread).1 source, List.map_map, List.map_map]
      rfl
    rw [hitems, drain_ok]
    rfl
  · rw [hfile] at hopen
    cases hopen
    rw [hroom] at hfits
    rw [hthrough] at hread
    obtain ⟨e, rest, hfirst, hitems⟩ := pulled_corrupt ht hr hfits source hread
    refine ⟨e, .inr ⟨r, hnew, hfirst⟩, ?_⟩
    rw [hitems, drain_behind]
    rfl
  · rw [hfile] at hopen
    cases hopen
    obtain ⟨⟨rest, hitems⟩, -⟩ := pulled_panics ht hr (mt hroom.mpr hfits) source
    rw [hitems, drain_behind]
    rfl

end Opened

/-- `read` gives what a program gets that takes all batches of `read_batches`: the tables of
the file if it reads to its end, else the exception for what is wrong with it. Where a column
is to hold more than an offset can tell, both panic. -/
theorem read_drains_batches (ht : TryNewAccepts tryNew) (errorText : ε → String) (sys : System ω)
    (args : ReadArgs) (w : ω) : ∃ rounds, ∀ n, rounds ≤ n →
      ReadMeans errorText tryNew sys args w n (read errorText sys tryNew n args w) := by
  rcases read_cases errorText tryNew sys args w with ⟨e, w₁, hbatches, hread, hfault⟩ |
    ⟨heuristics, input, r, w₁, hsize, hparse, hfile, hnew⟩
  · refine ⟨0, fun n _ => ?_⟩
    rw [hread]
    exact .of_error hbatches hfault
  · exact read_opened ht errorText hsize hparse hfile hnew

end Read

/-- The arguments of `read("dump.rdb")`. -/
def defaultReadArgs : ReadArgs where
  path := asciiBytes "dump.rdb"
  batchSize := 65536
  noChunking := false
  batchBytes := none
  maxEntryBytes := none
  heuristic := "all"

theorem parseSet_all : Heuristic.parseSet "all" = .ok Heuristic.all := by decide +kernel

theorem listFile_room : defaultReadArgs.HasRoom listFile := by
  obtain ⟨hnew, -, -⟩ := listReader_clean
  rw [ReadArgs.hasRoom_iff parseSet_all hnew, ← eachFits_iff_fits checkedTryNew_accepts]
  decide +kernel

theorem read_drains_batches_list : ∃ rounds, ∀ n, rounds ≤ n → ∃ tables,
    (read id Cli.listSystem.toSystem checkedTryNew n defaultReadArgs ()).1 = .ok tables ∧
      IsTables (defaultReadArgs.pipeline Heuristic.all) listReader tables := by
  obtain ⟨hnew, hclean, -⟩ := listReader_clean
  have hconfig := defaultReadArgs.config_of_parsed (by decide) parseSet_all
  obtain ⟨rounds, h⟩ := read_drains_batches checkedTryNew_accepts id Cli.listSystem.toSystem
    defaultReadArgs ()
  refine ⟨rounds, fun n hn => ?_⟩
  obtain ⟨heuristics, r, tables, hparse, hnew', hread, htables⟩ :=
    (h n hn).complete _ ⟨listFile, none⟩ hconfig rfl ⟨listReader, hnew, hclean⟩ listFile_room
  cases parseSet_all.symm.trans hparse
  cases hnew.symm.trans hnew'
  exact ⟨tables, hread, htables⟩

end Python

end ValkeyRdb
