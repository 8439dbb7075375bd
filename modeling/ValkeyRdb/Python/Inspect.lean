import ValkeyRdb.Arrow.EntryLimit
import ValkeyRdb.Arrow.SummaryTotals
import ValkeyRdb.Python.Reading

/-!
# What `inspect` says of a file (python/src/lib.rs:262-297)

The counters of a summary, said of the entries that start a key: how many there are in each
database and, there, under each type.
-/

namespace ValkeyRdb

/-! ### The counters by database and type -/

namespace Totals

/-- A count that is there if it is not zero. -/
def positive (n : Nat) : Option Nat := if n = 0 then none else some n

theorem positive_succ (n : Nat) : some ((positive n).getD 0 + 1) = positive (n + 1) := by
  unfold positive
  by_cases h : n = 0 <;> simp [h]

def inDb (t : Totals) (db : Nat) (tag : TypeTag) : Option Nat :=
  (t.perDb.get? db).bind fun tags => tags.get? tag

theorem inDb_countInDb (t : Totals) (db : Nat) (tag : TypeTag) (otherDb : Nat) (other : TypeTag) :
    (t.countInDb db tag).inDb otherDb other =
      if otherDb = db ∧ other = tag then some ((t.inDb db tag).getD 0 + 1) else t.inDb otherDb other := by
  unfold inDb countInDb
  by_cases hdb : otherDb = db
  · subst hdb
    dsimp only
    rw [SortedMap.get?_upsert_self, Option.bind_some]
    by_cases htag : other = tag
    · subst htag
      rw [SortedMap.get?_upsert_self, if_pos ⟨rfl, rfl⟩]
      cases t.perDb.get? otherDb <;> rfl
    · rw [SortedMap.get?_upsert_of_ne _ _ htag, if_neg fun h => htag h.2]
      cases t.perDb.get? otherDb <;> rfl
  · dsimp only
    rw [SortedMap.get?_upsert_of_ne _ _ hdb, if_neg fun h => hdb h.1]

/-- The counters by database are those of the entries that started a key. -/
structure CountsFirsts (heuristics : Finset Heuristic) (t : Totals) (firsts : List RdbEntry) :
    Prop where
  dbs : ∀ db, t.perDb.contains db = true ↔ ∃ e ∈ firsts, e.db = db
  keys : ∀ db, t.dbKeys db = firsts.countP fun e => e.db == db
  types : ∀ db tag, t.inDb db tag =
    positive (firsts.countP fun e => e.db == db && decide (rowsUnder heuristics tag e ≠ []))

theorem new_countsFirsts (heuristics : Finset Heuristic) : Totals.new.CountsFirsts heuristics [] where
  dbs db := by simp [Totals.new, SortedMap.contains]
  keys _ := rfl
  types _ _ := rfl

/-- An entry has rows under the tag of its type, and under `Geo` if it is counted there. -/
theorem rowsUnder_ne_nil_iff {heuristics : Finset Heuristic} {entry : RdbEntry} {tag : TypeTag}
    (htag : typeTagFor entry = some tag) (other : TypeTag) : rowsUnder heuristics other entry ≠ [] ↔
      other = tag ∨ (other = .geo ∧ shouldEmitGeo heuristics tag entry = true) := by
  have hgeo : tag ≠ .geo := fun h => typeTagFor_ne_geo entry (h ▸ htag)
  have hpos := expectedRowCount_pos entry
  rw [← List.length_pos_iff]
  unfold rowsUnder
  simp only [htag]
  by_cases hown : other = tag
  · rw [if_pos hown, entryRows_length htag]
    simp [hown, hpos]
  · rw [if_neg hown]
    by_cases hemit : other = .geo ∧ shouldEmitGeo heuristics tag entry = true
    · rw [if_pos hemit, entryRows_geo_length (shouldEmitGeo_iff.mp hemit.2).2.2]
      simp [hemit, hpos]
    · rw [if_neg hemit]
      simp [hown, hemit]

/-- A later chunk is in no counter by database. -/
theorem add_laterChunk (t : Totals) (heuristics : Finset Heuristic) {entry : RdbEntry}
    (hfirst : entry.isFirstChunk = false) : (t.add heuristics entry).perDb = t.perDb ∧
      (t.add heuristics entry).perDbKeys = t.perDbKeys := by
  obtain ⟨tag, htag⟩ := typeTagFor_isSome entry
  rw [add_eq htag, hfirst]
  dsimp only
  split <;> exact ⟨rfl, rfl⟩

/-- A first chunk is in the counters of its database, under the tags that it has rows under. -/
theorem add_firstChunk (t : Totals) (heuristics : Finset Heuristic) {entry : RdbEntry}
    (hfirst : entry.isFirstChunk = true) :
    (t.add heuristics entry).perDbKeys = (t.addKey entry.db true).perDbKeys ∧
      (∀ db, (t.add heuristics entry).perDb.contains db = true ↔
        db = entry.db ∨ t.perDb.contains db = true) ∧
      ∀ db other, (t.add heuristics entry).inDb db other =
        if db = entry.db ∧ rowsUnder heuristics other entry ≠ [] then
          some ((t.inDb db other).getD 0 + 1) else t.inDb db other := by
  obtain ⟨tag, htag⟩ := typeTagFor_isSome entry
  have hgeo : tag ≠ .geo := fun hc => typeTagFor_ne_geo entry (hc ▸ htag)
  have hown : ∀ db other, ((t.addKey entry.db true).addUnder entry.db tag true
      (expectedRowCount entry)).inDb db other =
      if db = entry.db ∧ other = tag then some ((t.inDb entry.db tag).getD 0 + 1)
      else t.inDb db other := fun db other => inDb_countInDb _ _ _ _ _
  have hrows : ∀ other, rowsUnder heuristics other entry ≠ [] ↔
      other = tag ∨ (other = .geo ∧ shouldEmitGeo heuristics tag entry = true) :=
    fun other => rowsUnder_ne_nil_iff htag other
  rw [add_eq htag, hfirst]
  dsimp only
  split
  · rename_i hg
    refine ⟨by simp, fun db => ?_, fun db other => ?_⟩
    · simp [contains_addUnder]
    · have hboth : ∀ s : Totals, (s.addUnder entry.db .geo true (expectedRowCount entry)).inDb db other =
          if db = entry.db ∧ other = .geo then some ((s.inDb entry.db .geo).getD 0 + 1)
          else s.inDb db other := fun s => inDb_countInDb _ _ _ _ _
      rw [hboth, hown, hown]
      simp only [hrows]
      by_cases hdb : db = entry.db
      · subst hdb
        by_cases ho : other = tag
        · subst ho
          simp [hgeo]
        · by_cases hother : other = .geo
          · subst hother
            simp [hg, Ne.symm hgeo]
          · simp [ho, hother]
      · simp [hdb]
  · rename_i hg
    refine ⟨by simp, fun db => ?_, fun db other => ?_⟩
    · simp [contains_addUnder]
    · rw [hown]
      simp only [hrows]
      by_cases hdb : db = entry.db
      · subst hdb
        by_cases ho : other = tag
        · subst ho
          simp
        · simp [ho, hg]
      · simp [hdb]

/-- One entry in the counters by database. -/
theorem CountsFirsts.add {heuristics : Finset Heuristic} {t : Totals} {firsts : List RdbEntry}
    (h : t.CountsFirsts heuristics firsts) (entry : RdbEntry) :
    (t.add heuristics entry).CountsFirsts heuristics
      (firsts ++ if entry.isFirstChunk = true then [entry] else []) := by
  cases hfirst : entry.isFirstChunk with
  | false =>
    have hsame := t.add_laterChunk heuristics hfirst
    rw [if_neg Bool.false_ne_true, List.append_nil]
    refine ⟨fun db => ?_, fun db => ?_, fun db other => ?_⟩
    · rw [hsame.1]
      exact h.dbs db
    · rw [dbKeys, hsame.2]
      exact h.keys db
    · rw [inDb, hsame.1]
      exact h.types db other
  | true =>
    rw [if_pos rfl]
    obtain ⟨hkeys, hdbs, htypes⟩ := t.add_firstChunk heuristics hfirst
    refine ⟨fun db => ?_, fun db => ?_, fun db other => ?_⟩
    · rw [hdbs, h.dbs]
      simp only [List.mem_append, List.mem_singleton]
      constructor
      · rintro (rfl | ⟨e, he, rfl⟩)
        · exact ⟨entry, .inr rfl, rfl⟩
        · exact ⟨e, .inl he, rfl⟩
      · rintro ⟨e, he | rfl, rfl⟩
        · exact .inr ⟨e, he, rfl⟩
        · exact .inl rfl
    · have hkey := dbKeys_addKey t entry.db db true
      rw [dbKeys, hkeys, ← dbKeys, hkey, h.keys, List.countP_append, List.countP_singleton]
      by_cases hdb : db = entry.db
      · simp [hdb]
      · simp [hdb, Ne.symm hdb]
    · rw [htypes, h.types, List.countP_append, List.countP_singleton]
      by_cases hc : db = entry.db ∧ rowsUnder heuristics other entry ≠ []
      · rw [if_pos hc, positive_succ]
        simp [hc.1, hc.2]
      · rw [if_neg hc]
        have hfalse : (entry.db == db && decide (rowsUnder heuristics other entry ≠ [])) = false := by
          rw [Bool.and_eq_false_iff]
          by_cases hdb : db = entry.db
          · right
            simpa [hdb] using hc
          · left
            simpa using Ne.symm hdb
        rw [hfalse]
        rfl

end Totals

theorem summarizeItems_firsts (heuristics : Finset Heuristic) {items : List (Res RdbEntry)}
    (hread : Readable items) {t : Totals} {firsts : List RdbEntry}
    (ht : t.CountsFirsts heuristics firsts) :
    ∃ t', summarizeItems heuristics items t = .ok t' ∧
      t'.CountsFirsts heuristics (firsts ++ (entriesOf items).filter RdbEntry.isFirstChunk) := by
  induction items generalizing t firsts with
  | nil => exact ⟨t, rfl, by simpa [entriesOf] using ht⟩
  | cons x xs ih =>
    rcases x with f | entry
    · rcases unknownType_cases f with ⟨c, rfl⟩ | hu
      · exact ih hread ht
      · have hcons : faultsOf (.error f :: xs) = f :: faultsOf xs := by simp [faultsOf, hu]
        rw [Readable, hcons] at hread
        cases hread
    · obtain ⟨t', hrun, hcounts⟩ := ih hread (ht.add entry)
      refine ⟨t', hrun, ?_⟩
      have hentries : entriesOf (.ok entry :: xs) = entry :: entriesOf xs := rfl
      rw [hentries, List.filter_cons]
      rw [List.append_assoc] at hcounts
      cases hf : entry.isFirstChunk with
      | true => simpa [hf] using hcounts
      | false => simpa [hf] using hcounts

/-- A summary fails with the first fault among the items. -/
theorem summarizeItems_fault (heuristics : Finset Heuristic) {items : List (Res RdbEntry)} {f : Fault}
    (h : (faultsOf items).head? = some f) (t : Totals) :
    summarizeItems heuristics items t = .error f := by
  induction items generalizing t with
  | nil => cases h
  | cons x xs ih =>
    rcases x with f' | entry
    · rcases unknownType_cases f' with ⟨c, rfl⟩ | hu
      · exact ih h t
      · have hcons : faultsOf (.error f' :: xs) = f' :: faultsOf xs := by simp [faultsOf, hu]
        rw [hcons] at h
        cases h
        cases f with
        | error e =>
          cases e with
          | unknownType c => cases hu
          | _ => rfl
        | _ => rfl
    · exact ih h _

/-! ### The first pieces of the keys -/

/-- The piece in which a key starts. -/
def RdbEntry.firstPiece (limit : Option ℕ+) (e : RdbEntry) : RdbEntry := (e.pieces limit).headD e

theorem pieces_firsts {e : RdbEntry} (hw : e.Whole) (limit : Option ℕ+) :
    (e.pieces limit).filter RdbEntry.isFirstChunk = [e.firstPiece limit] := by
  have hone : e.isFirstChunk = true := by simp [RdbEntry.isFirstChunk, hw.2]
  have hself : [e].filter RdbEntry.isFirstChunk = [e] := by simp [hone]
  unfold RdbEntry.firstPiece
  cases limit with
  | none => exact hself
  | some max =>
    rw [RdbEntry.pieces]
    split
    · rename_i hsplits
      have hmax := max.pos
      have hlarge := hsplits.2
      have hn : (e.value.elementCount + max - 1) / max ≠ 0 :=
        Nat.div_ne_zero_iff.mpr ⟨by omega, by omega⟩
      obtain ⟨k, hk⟩ := Nat.exists_eq_succ_of_ne_zero hn
      have hlater : (((List.range k).map Nat.succ).map fun i => e.chunk (i * max) max).filter
          RdbEntry.isFirstChunk = [] := by
        rw [List.filter_eq_nil_iff]
        intro piece hm
        obtain ⟨i, hi, rfl⟩ := List.mem_map.mp hm
        obtain ⟨j, -, rfl⟩ := List.mem_map.mp hi
        simp [RdbEntry.isFirstChunk, RdbEntry.chunk]
      have hfirst : (e.chunk (0 * max) max).isFirstChunk = true := by
        rw [Nat.zero_mul]
        rfl
      rw [hk, Nat.succ_eq_add_one, List.range_succ_eq_map, List.map_cons, List.filter_cons_of_pos hfirst,
        hlater, List.headD_cons]
    · exact hself

theorem configured_firsts {input : Bytes} {r : RdbReader} (hnew : RdbReader.new input = .ok r)
    (hclean : r.Clean) (limit : Option ℕ+) :
    (entriesOf (r.configure limit).items.1).filter RdbEntry.isFirstChunk =
      r.keys.map (RdbEntry.firstPiece limit) := by
  obtain ⟨r', hy⟩ := configured_yields hnew hclean limit
  have hitems := ((Reachable.new hnew).configure limit).yields.unique hy
  have hwhole := keys_whole hnew hclean
  rw [hitems.1, entriesOf_pieceItems]
  change (r.keys.flatMap (·.pieces limit)).filter _ = _
  generalize r.keys = keys at hwhole
  induction keys with
  | nil => rfl
  | cons e keys ih =>
    rw [List.flatMap_cons, List.filter_append, List.map_cons, pieces_firsts (hwhole e List.mem_cons_self),
      ih fun e he => hwhole e (List.mem_cons_of_mem _ he)]
    rfl

/-! ### `inspect` -/

namespace Python

open Cli (RdbInput System ReadsThrough IoError)

/-- The keys of a database that `inspect` counts under a type. -/
def keysUnder (heuristics : Finset Heuristic) (r : RdbReader) (db : Nat) (tag : TypeTag) : Nat :=
  r.keys.countP fun e => e.db == db &&
    decide (rowsUnder heuristics tag (e.firstPiece (some defaultMaxKeyElements)) ≠ [])

/-- What `inspect` says of a file. -/
structure Describes (heuristics : Finset Heuristic) (r : RdbReader) (dict : InspectDict) : Prop where
  header : dict.magic = r.header.magic.text ∧ dict.rdbVersion = r.header.version
  total : dict.totalKeys = r.keys.length
  sorted : (dict.dbs.map DbDict.db).Pairwise (· < ·)
  dbs : ∀ db, db ∈ dict.dbs.map DbDict.db ↔ ∃ e ∈ r.keys, e.db = db
  keys : ∀ d ∈ dict.dbs, d.keys = r.keys.countP fun e => e.db == d.db
  types : ∀ d ∈ dict.dbs, d.types =
    (TypeTag.all.filter fun tag => decide (keysUnder heuristics r d.db tag ≠ 0)).map fun tag =>
      (tag.asStr, keysUnder heuristics r d.db tag)

theorem firstPiece_db (limit : Option ℕ+) (e : RdbEntry) : (e.firstPiece limit).db = e.db := by
  unfold RdbEntry.firstPiece
  cases limit with
  | none => rfl
  | some max =>
    rw [RdbEntry.pieces]
    split
    · cases (e.value.elementCount + max - 1) / (max : Nat) with
      | zero => rfl
      | succ k =>
        rw [List.range_succ_eq_map, List.map_cons, List.headD_cons]
        rfl
    · rfl

/-- The counters of a readable file, as `inspect` gives them. -/
theorem inspectDict_describes {input : Bytes} {r : RdbReader} (hnew : RdbReader.new input = .ok r)
    (hclean : r.Clean) (heuristics : Finset Heuristic) :
    ∃ s, summarizeEntries r heuristics = .ok s ∧ Describes heuristics r (inspectDict s) := by
  have hlimit : r.configure (some defaultMaxKeyElements) = r := new_limit hnew
  have hitems := configured_clean hnew hclean (some defaultMaxKeyElements)
  have hread := readable_of_not_terminal hitems
  obtain ⟨t, hrun, hcounts⟩ := summarizeItems_firsts heuristics hread (Totals.new_countsFirsts heuristics)
  obtain ⟨t', hrun', -, htotal⟩ := summarizeItems_consistent heuristics hread Totals.new_consistent
  rw [hrun] at hrun'
  cases hrun'
  rw [configured_first hnew hclean] at htotal
  rw [List.nil_append, configured_firsts hnew hclean] at hcounts
  rw [hlimit] at hrun
  refine ⟨_, by rw [summarizeEntries, hrun]; rfl, ?_⟩
  -- the counts of first pieces are those of the keys
  have hunder : ∀ db tag, (r.keys.map (RdbEntry.firstPiece (some defaultMaxKeyElements))).countP
      (fun e => e.db == db && decide (rowsUnder heuristics tag e ≠ [])) = keysUnder heuristics r db tag := by
    intro db tag
    rw [List.countP_map]
    unfold keysUnder
    apply List.countP_congr
    intro e _
    simp [firstPiece_db]
  have hkeys : ∀ db, (r.keys.map (RdbEntry.firstPiece (some defaultMaxKeyElements))).countP
      (fun e => e.db == db) = r.keys.countP fun e => e.db == db := by
    intro db
    rw [List.countP_map]
    apply List.countP_congr
    intro e _
    simp [firstPiece_db]
  refine ⟨⟨rfl, rfl⟩, htotal.trans (Nat.zero_add _), ?_, fun db => ?_, fun d hd => ?_, fun d hd => ?_⟩
  · have hsorted := List.pairwise_map.mpr t.perDb.sorted
    unfold inspectDict
    rw [List.map_map]
    exact hsorted
  · unfold inspectDict
    rw [List.map_map]
    have hdb := (t.perDb.contains_iff_mem_keys db).symm.trans (hcounts.dbs db)
    refine hdb.trans ?_
    constructor
    · rintro ⟨e, he, rfl⟩
      obtain ⟨k, hk, rfl⟩ := List.mem_map.mp he
      exact ⟨k, hk, (firstPiece_db _ k).symm⟩
    · rintro ⟨k, hk, rfl⟩
      exact ⟨_, List.mem_map_of_mem hk, firstPiece_db _ k⟩
  · obtain ⟨entry, hentry, rfl⟩ := List.mem_map.mp hd
    exact (hcounts.keys entry.1).trans (hkeys entry.1)
  · obtain ⟨⟨db, tags⟩, hentry, rfl⟩ := List.mem_map.mp hd
    have hget := SortedMap.get?_of_mem hentry
    have htags : ∀ tag, tags.get? tag = Totals.positive (keysUnder heuristics r db tag) := by
      intro tag
      have htypes := hcounts.types db tag
      rw [hunder] at htypes
      rw [← htypes, Totals.inDb]
      exact (congrArg (fun x => x.bind fun tags => tags.get? tag) hget).symm
    have hsome : ∀ (f : TypeTag → Bytes × Nat) (xs : List TypeTag),
        xs.map f = xs.filterMap fun tag => some (f tag) := by
      intro f xs
      exact (congrFun List.filterMap_eq_map xs).symm
    dsimp only
    rw [tags.entries_eq TypeTag.all_sorted TypeTag.mem_all, List.map_filterMap, hsome,
      List.filterMap_filter]
    apply List.filterMap_congr
    intro tag _
    rw [htags]
    unfold Totals.positive
    by_cases hz : keysUnder heuristics r db tag = 0 <;> simp [hz]

/-! ### `inspect` and `read` -/

theorem firstPiece_mem {e : RdbEntry} (hw : e.Whole) (limit : Option ℕ+) :
    e.firstPiece limit ∈ e.pieces limit := by
  have hm : e.firstPiece limit ∈ (e.pieces limit).filter RdbEntry.isFirstChunk := by
    rw [pieces_firsts hw]
    exact List.mem_singleton_self _
  exact (List.mem_filter.mp hm).1

/-- Whether a key has rows under a type shows in its first piece. -/
theorem firstPiece_rows {e : RdbEntry} (hw : e.Whole) (max : ℕ+) (heuristics : Finset Heuristic)
    {tag : TypeTag} (hgeo : tag ≠ .geo) :
    rowsUnder heuristics tag (e.firstPiece (some max)) ≠ [] ↔ rowsUnder heuristics tag e ≠ [] := by
  obtain ⟨primary, hp⟩ := typeTagFor_isSome e
  have hpiece : typeTagFor (e.firstPiece (some max)) = some primary :=
    (typeTagFor_piece (firstPiece_mem hw (some max))).trans hp
  rw [Totals.rowsUnder_ne_nil_iff hp, Totals.rowsUnder_ne_nil_iff hpiece]
  simp [hgeo]

/-- Among some of the types each has its own name. -/
theorem mem_names {α : Type} {p : TypeTag → Bool} {f : TypeTag → α} {tag : TypeTag} :
    tag.asStr ∈ ((TypeTag.all.filter p).map fun tag => (tag.asStr, f tag)).map Prod.fst ↔
      p tag = true := by
  rw [List.map_map, List.mem_map]
  constructor
  · rintro ⟨other, ho, hsame⟩
    obtain rfl := asStr_injective hsame
    exact (List.mem_filter.mp ho).2
  · exact fun h => ⟨tag, List.mem_filter.mpr ⟨TypeTag.mem_all tag, h⟩, rfl⟩

section Listed

variable {input : Bytes} {r : RdbReader} {heuristics : Finset Heuristic} {tag : TypeTag}

/-- A table stands for a key with rows under its type. -/
theorem table_iff (hnew : RdbReader.new input = .ok r) (hclean : r.Clean) {args : ReadArgs}
    (hmax : args.maxEntryBytes = none) {tables : List (Bytes × List RecordBatch)}
    (ht : IsTables (args.pipeline heuristics) r tables) (hgeo : tag ≠ .geo) :
    tag.asStr ∈ tables.map Prod.fst ↔ ∃ e ∈ r.keys, rowsUnder heuristics tag e ≠ [] := by
  obtain ⟨batches, rfl, -⟩ := ht
  obtain ⟨r', hy⟩ := configured_yields hnew hclean (args.pipeline heuristics).limit
  have hitems : Cli.readerItems (args.pipeline heuristics) r = _ :=
    (congrArg (fun x => x.items.1) (args_reader hnew (args.pipeline heuristics))).trans
      (((Reachable.new hnew).configure _).yields.unique hy).1
  have hconfig : (args.pipeline heuristics).config.maxEntryBytes = none := hmax
  have htaken : (args.pipeline heuristics).config.taken tag = rowsUnder heuristics tag :=
    taken_unlimited hconfig tag
  have hrows : (entriesOf (Cli.readerItems (args.pipeline heuristics) r)).flatMap
      ((args.pipeline heuristics).config.taken tag) = r.keys.flatMap (rowsUnder heuristics tag) := by
    rw [hitems, entriesOf_pieceItems, htaken, List.flatMap_assoc]
    change r.keys.flatMap _ = _
    apply List.flatMap_congr
    intro e he
    exact pieces_rows heuristics hgeo (keys_whole hnew hclean e he) _
  rw [mem_names, decide_eq_true_iff, hrows, Ne, List.flatMap_eq_nil_iff]
  simp

theorem keysUnder_ne_zero_iff (hnew : RdbReader.new input = .ok r) (hclean : r.Clean) (db : Nat)
    (hgeo : tag ≠ .geo) : keysUnder heuristics r db tag ≠ 0 ↔
      ∃ e ∈ r.keys, e.db = db ∧ rowsUnder heuristics tag e ≠ [] := by
  have hwhole := keys_whole hnew hclean
  unfold keysUnder
  rw [← Nat.pos_iff_ne_zero, List.countP_pos_iff]
  constructor
  · rintro ⟨e, he, hc⟩
    rw [Bool.and_eq_true, decide_eq_true_iff, firstPiece_rows (hwhole e he) _ heuristics hgeo] at hc
    exact ⟨e, he, by simpa using hc.1, hc.2⟩
  · rintro ⟨e, he, hsame, hrows⟩
    refine ⟨e, he, ?_⟩
    rw [Bool.and_eq_true, decide_eq_true_iff, firstPiece_rows (hwhole e he) _ heuristics hgeo]
    exact ⟨by simpa using hsame, hrows⟩

/-- The tables of a file are those of the types that `inspect` lists. -/
theorem listed_iff (hnew : RdbReader.new input = .ok r) (hclean : r.Clean) {dict : InspectDict}
    (hd : Describes heuristics r dict) {args : ReadArgs} (hmax : args.maxEntryBytes = none)
    {tables : List (Bytes × List RecordBatch)} (ht : IsTables (args.pipeline heuristics) r tables)
    (hgeo : tag ≠ .geo) :
    tag.asStr ∈ tables.map Prod.fst ↔ ∃ d ∈ dict.dbs, tag.asStr ∈ d.types.map Prod.fst := by
  have hlisted : ∀ d ∈ dict.dbs, (tag.asStr ∈ d.types.map Prod.fst ↔
      ∃ e ∈ r.keys, e.db = d.db ∧ rowsUnder heuristics tag e ≠ []) := by
    intro d hdb
    rw [hd.types d hdb, mem_names, decide_eq_true_iff, keysUnder_ne_zero_iff hnew hclean d.db hgeo]
  rw [table_iff hnew hclean hmax ht hgeo]
  constructor
  · rintro ⟨e, he, hrows⟩
    obtain ⟨d, hdb, hsame⟩ := List.mem_map.mp ((hd.dbs e.db).mpr ⟨e, he, rfl⟩)
    exact ⟨d, hdb, (hlisted d hdb).mpr ⟨e, he, hsame.symm, hrows⟩⟩
  · rintro ⟨d, hdb, hm⟩
    obtain ⟨e, he, -, hrows⟩ := (hlisted d hdb).mp hm
    exact ⟨e, he, hrows⟩

end Listed

section Agreement

variable {ω ε : Type} {errorText : ε → String} {tryNew : TryNew ε} {sys : System ω}

/-- A file has one first fault. -/
theorem FirstFault.unique {noChunking : Bool} {input : Bytes} {f f' : Fault}
    (h : FirstFault noChunking input f) (h' : FirstFault noChunking input f') : f = f' := by
  rcases h with h | ⟨r, hnew, h⟩ <;> rcases h' with h' | ⟨r', hnew', h'⟩
  · rw [h] at h'
    cases h'
    rfl
  · rw [h] at hnew'
    cases hnew'
  · rw [hnew] at h'
    cases h'
  · rw [hnew] at hnew'
    cases hnew'
    rw [h] at h'
    cases h'
    rfl

theorem inspect_fault (errorText : ε → String) {path : Bytes} {heuristic : String}
    {heuristics : Finset Heuristic} (hparse : Heuristic.parseSet heuristic = .ok heuristics) {w w' : ω}
    {source : RdbInput} (hfile : sys.openInput path w = (.ok source, w')) {f : Fault}
    (hf : FirstFault false source.bytes f) :
    inspect errorText sys path heuristic w = (.error (rdbToPyErr (source.fault f)), w') := by
  rcases hf with hnew | ⟨r, hnew, hf⟩
  · simp only [inspect, parseHeuristics, hparse, hfile, hnew, ThreadError.toPyErr]
  · have hsummary : summarizeEntries r heuristics = .error f := by
      have hfirst : (faultsOf r.items.1).head? = some f := hf
      rw [summarizeEntries, summarizeItems_fault heuristics hfirst]
      rfl
    simp only [inspect, parseHeuristics, hparse, hfile, hnew, hsummary, ThreadError.toPyErr]

/-- What `inspect` and `read` have to say of one file. -/
structure Agrees (errorText : ε → String) (tryNew : TryNew ε) (sys : System ω) (path : Bytes)
    (heuristic : String) (heuristics : Finset Heuristic) (w : ω) (source : RdbInput) : Prop where
  complete : ReadsThrough source.bytes → ∃ r dict, RdbReader.new source.bytes = .ok r ∧
    (inspect errorText sys path heuristic w).1 = .ok dict ∧ Describes heuristics r dict ∧
    ∀ args : ReadArgs, args.path = path → args.heuristic = heuristic → args.batchSize ≠ 0 →
      args.maxEntryBytes = none → args.HasRoom source.bytes → ∃ rounds, ∀ n, rounds ≤ n → ∃ tables,
        (read errorText sys tryNew n args w).1 = .ok tables ∧ ∀ tag : TypeTag, tag ≠ .geo →
          (tag.asStr ∈ tables.map Prod.fst ↔ ∃ d ∈ dict.dbs, tag.asStr ∈ d.types.map Prod.fst)
  corrupt : ¬ReadsThrough source.bytes → ∃ e, (inspect errorText sys path heuristic w).1 = .error e ∧
    ∀ args : ReadArgs, args.path = path → args.heuristic = heuristic → args.batchSize ≠ 0 →
      args.noChunking = false → args.HasRoom source.bytes → ∃ rounds, ∀ n, rounds ≤ n →
        (read errorText sys tryNew n args w).1 = .error e
  panicked : ∀ args : ReadArgs, args.path = path → args.heuristic = heuristic → args.batchSize ≠ 0 →
    ¬args.HasRoom source.bytes → ∃ rounds, ∀ n, rounds ≤ n →
      (read errorText sys tryNew n args w).1 = .error .panic

/-- A file that does not read to its end has a first fault. -/
theorem firstFault_exists {input : Bytes} (hr : ¬ReadsThrough input) : ∃ f, FirstFault false input f := by
  cases hnew : RdbReader.new input with
  | error f => exact ⟨f, .inl hnew⟩
  | ok r =>
    have hno : faultsOf r.items.1 ≠ [] := by
      intro hnil
      have hlimit : r.configure (some defaultMaxKeyElements) = r := new_limit hnew
      have hall : ∀ x ∈ (r.configure (some defaultMaxKeyElements)).items.1, ¬Terminal x := by
        rw [hlimit]
        intro x hx hterminal
        cases x with
        | ok e => exact hterminal
        | error f =>
          have hm := Cli.mem_faultsOf.mpr ⟨hx, hterminal⟩
          rw [hnil] at hm
          cases hm
      exact hr ⟨r, hnew, clean_of_configured hnew hall⟩
    obtain ⟨f, fs, hfs⟩ := List.exists_cons_of_ne_nil hno
    exact ⟨f, .inr ⟨r, hnew, by simp [hfs]⟩⟩

/-- On a file that reads to its end `inspect` counts its keys by database and type, and
lists the types that `read` has tables for; on any other file the two raise the same. It
makes no batches, and `read` panics alone where a column cannot hold its bytes. -/
theorem inspect_agrees_with_read (ht : TryNewAccepts tryNew) (errorText : ε → String)
    (sys : System ω) (path : Bytes) (heuristic : String) (heuristics : Finset Heuristic)
    (hparse : Heuristic.parseSet heuristic = .ok heuristics) (w : ω) (source : RdbInput)
    (hinput : (sys.openInput path w).1 = .ok source) :
    Agrees errorText tryNew sys path heuristic heuristics w source := by
  obtain ⟨w', hfile⟩ : ∃ w', sys.openInput path w = (.ok source, w') :=
    ⟨_, Prod.ext hinput rfl⟩
  -- `read` with the arguments of a call that is not refused
  have hread : ∀ args : ReadArgs, args.path = path → args.heuristic = heuristic → args.batchSize ≠ 0 →
      ∃ rounds, ∀ n, rounds ≤ n →
        ReadMeans errorText tryNew sys args w n (read errorText sys tryNew n args w) := by
    rintro args rfl rfl hsize
    rcases read_cases errorText tryNew sys args w with ⟨e, w₁, hbatches, hread, hfault⟩ |
      ⟨heuristics', source', r, w₁, hsize', hparse', hfile', hnew⟩
    · refine ⟨0, fun n _ => ?_⟩
      rw [hread]
      exact .of_error hbatches hfault
    · exact read_opened ht errorText hsize' hparse' hfile' hnew
  refine ⟨fun hr => ?_, fun hr => ?_, fun args hpath hheur hsize hover => ?_⟩
  · obtain ⟨r, hnew, hclean⟩ := hr
    obtain ⟨s, hs, hdescribes⟩ := inspectDict_describes hnew hclean heuristics
    refine ⟨r, inspectDict s, hnew, ?_, hdescribes, fun args hpath hheur hsize hmax hroom => ?_⟩
    · simp only [inspect, parseHeuristics, hparse, hfile, hnew, hs]
    · obtain ⟨rounds, hmeans⟩ := hread args hpath hheur hsize
      subst hpath hheur
      refine ⟨rounds, fun n hn => ?_⟩
      obtain ⟨heuristics', r', tables, hparse', hnew', htables, his⟩ := (hmeans n hn).complete _ source
        (args.config_of_parsed hsize hparse) hinput ⟨r, hnew, hclean⟩ hroom
      rw [hparse] at hparse'
      cases hparse'
      rw [hnew] at hnew'
      cases hnew'
      exact ⟨tables, htables, fun tag hgeo => listed_iff hnew hclean hdescribes hmax his hgeo⟩
  · obtain ⟨f, hf⟩ := firstFault_exists hr
    refine ⟨rdbToPyErr (source.fault f), by rw [inspect_fault errorText hparse hfile hf],
      fun args hpath hheur hsize hchunk hroom => ?_⟩
    obtain ⟨rounds, hmeans⟩ := hread args hpath hheur hsize
    subst hpath hheur
    refine ⟨rounds, fun n hn => ?_⟩
    obtain ⟨e, he, hraised⟩ := (hmeans n hn).corrupt _ source (args.config_of_parsed hsize hparse)
      hinput hr hroom
    rw [hchunk] at he
    rw [hraised, he.unique hf]
  · obtain ⟨rounds, hmeans⟩ := hread args hpath hheur hsize
    subst hpath hheur
    exact ⟨rounds, fun n hn =>
      (hmeans n hn).panicked _ source (args.config_of_parsed hsize hparse) hinput hover⟩

end Agreement

theorem inspect_agrees_with_read_list : ∃ dict,
    (inspect id Cli.listSystem.toSystem (asciiBytes "dump.rdb") "all" ()).1 = .ok dict ∧
      dict.totalKeys = 1 ∧ ∃ rounds, ∀ n, rounds ≤ n → ∃ tables,
        (read id Cli.listSystem.toSystem checkedTryNew n defaultReadArgs ()).1 = .ok tables ∧
        (TypeTag.list.asStr ∈ tables.map Prod.fst ↔
          ∃ d ∈ dict.dbs, TypeTag.list.asStr ∈ d.types.map Prod.fst) := by
  obtain ⟨hnew, hclean, hkeys⟩ := listReader_clean
  obtain ⟨r, dict, hnew', hdict, hd, hread⟩ := (inspect_agrees_with_read checkedTryNew_accepts id
    Cli.listSystem.toSystem (asciiBytes "dump.rdb") "all" Heuristic.all parseSet_all () ⟨listFile, none⟩
    rfl).complete ⟨listReader, hnew, hclean⟩
  cases hnew.symm.trans hnew'
  obtain ⟨rounds, htables⟩ := hread defaultReadArgs rfl rfl (by decide) rfl listFile_room
  refine ⟨dict, hdict, ?_, rounds, fun n hn => ?_⟩
  · rw [hd.total, hkeys]
    rfl
  · obtain ⟨tables, hok, hlisted⟩ := htables n hn
    exact ⟨tables, hok, hlisted .list (by decide)⟩

end Python

end ValkeyRdb
