import ValkeyRdb.Arrow.ChunkSettings
import ValkeyRdb.Arrow.Summarize
import ValkeyRdb.Format.WholeFile
import ValkeyRdb.Reader.ChunkErrors

/-!
# The counters of a summary (summarize.rs:69-121)

Four maps and a counter are kept side by side. What one entry adds to each of them is said
once, and that they agree follows from it.
-/

namespace ValkeyRdb

namespace Totals

/-! ### The quantities -/

def keys (t : Totals) (tag : TypeTag) : Nat := (t.totals.get? tag).elim 0 TypeCount.keys

/-- The keys of all tags but `Geo`, whose keys are counted under another tag as well. -/
def tagSum (t : Totals) : Nat := t.totals.sumBy fun tag tc => if tag = .geo then 0 else tc.keys

def dbKeys (t : Totals) (db : Nat) : Nat := (t.perDbKeys.get? db).getD 0

def dbSum (t : Totals) : Nat := t.perDbKeys.sumBy fun _ n => n

/-- The keys of a database under all tags but `Geo`. -/
def tagSumInDb (t : Totals) (db : Nat) : Nat :=
  (t.perDb.get? db).elim 0 (SortedMap.sumBy fun tag n => if tag = .geo then 0 else n)

def dbSumOf (t : Totals) (tag : TypeTag) : Nat :=
  t.perDb.sumBy fun _ tags => (tags.get? tag).getD 0

/-! ### What the parts of a step add -/

theorem keys_count (t : Totals) (tag : TypeTag) (isFirst : Bool) (n : Nat) (other : TypeTag) :
    (t.count tag isFirst n).keys other = t.keys other + if other = tag then isFirst.toNat else 0 := by
  refine SortedMap.get?_upsert_add (f := fun o => o.elim 0 TypeCount.keys)
    (fun old => ?_) t.totals other
  cases old <;> cases isFirst <;> rfl

theorem tagSum_count (t : Totals) (tag : TypeTag) (isFirst : Bool) (n : Nat) :
    (t.count tag isFirst n).tagSum = t.tagSum + if tag = .geo then 0 else isFirst.toNat := by
  refine SortedMap.sumBy_upsert_add (fun old => ?_) t.totals
  by_cases h : tag = .geo
  · cases old <;> simp [h]
  · cases old <;> cases isFirst <;> simp [h]

theorem dbKeys_countKey (t : Totals) (db other : Nat) :
    (t.countKey db).dbKeys other = t.dbKeys other + if other = db then 1 else 0 :=
  SortedMap.get?_upsert_add (f := fun n => n.getD 0) (fun _ => rfl) t.perDbKeys other

theorem dbSum_countKey (t : Totals) (db : Nat) : (t.countKey db).dbSum = t.dbSum + 1 := by
  refine SortedMap.sumBy_upsert_add (fun old => ?_) t.perDbKeys
  cases old <;> rfl

theorem sumBy_countTag (tags : SortedMap TypeTag Nat) (tag : TypeTag) :
    (tags.upsert tag fun n => n.getD 0 + 1).sumBy (fun tag n => if tag = .geo then 0 else n) =
      tags.sumBy (fun tag n => if tag = .geo then 0 else n) + if tag = .geo then 0 else 1 := by
  refine SortedMap.sumBy_upsert_add (fun old => ?_) tags
  by_cases h : tag = .geo
  · cases old <;> simp [h]
  · cases old <;> simp [h]

theorem tagSumInDb_countInDb (t : Totals) (db : Nat) (tag : TypeTag) (other : Nat) :
    (t.countInDb db tag).tagSumInDb other =
      t.tagSumInDb other + if other = db then (if tag = .geo then 0 else 1) else 0 := by
  refine SortedMap.get?_upsert_add
    (f := fun tags => tags.elim 0 (SortedMap.sumBy fun tag n => if tag = .geo then 0 else n))
    (fun old => ?_) t.perDb other
  rw [Option.elim_some, sumBy_countTag]
  cases old <;> rfl

theorem dbSumOf_countInDb (t : Totals) (db : Nat) (tag other : TypeTag) :
    (t.countInDb db tag).dbSumOf other = t.dbSumOf other + if other = tag then 1 else 0 := by
  refine SortedMap.sumBy_upsert_add (fun old => ?_) t.perDb
  have htag := SortedMap.get?_upsert_add (f := fun n => n.getD 0) (k := tag)
    (g := fun n => n.getD 0 + 1) (fun _ => rfl) (old.getD .empty) other
  rw [htag]
  cases old <;> rfl

/-- What an entry adds under one tag. -/
def addUnder (t : Totals) (db : Nat) (tag : TypeTag) (isFirst : Bool) (n : Nat) : Totals :=
  if isFirst then (t.count tag isFirst n).countInDb db tag else t.count tag isFirst n

/-- What an entry adds to the counts of distinct keys. -/
def addKey (t : Totals) (db : Nat) (isFirst : Bool) : Totals := if isFirst then t.countKey db else t

theorem add_eq {heuristics : Finset Heuristic} {entry : RdbEntry} {tag : TypeTag}
    (htag : typeTagFor entry = some tag) (t : Totals) : t.add heuristics entry =
      let own := (t.addKey entry.db entry.isFirstChunk).addUnder entry.db tag entry.isFirstChunk
        (expectedRowCount entry)
      if shouldEmitGeo heuristics tag entry then
        own.addUnder entry.db .geo entry.isFirstChunk (expectedRowCount entry)
      else own := by
  unfold add
  rw [htag]
  cases entry.isFirstChunk <;> rfl

section AddUnder

variable (t : Totals) (db other : Nat) (tag otherTag : TypeTag) (isFirst : Bool) (n : Nat)

theorem keys_addUnder : (t.addUnder db tag isFirst n).keys otherTag =
    t.keys otherTag + if otherTag = tag then isFirst.toNat else 0 := by
  rw [← keys_count t tag isFirst n otherTag]
  cases isFirst <;> rfl

theorem rows_addUnder : (t.addUnder db tag isFirst n).rows otherTag =
    t.rows otherTag + if otherTag = tag then n else 0 := by
  rw [← rows_count t tag isFirst n otherTag]
  cases isFirst <;> rfl

theorem tagSum_addUnder : (t.addUnder db tag isFirst n).tagSum =
    t.tagSum + if tag = .geo then 0 else isFirst.toNat := by
  rw [← tagSum_count t tag isFirst n]
  cases isFirst <;> rfl

theorem tagSumInDb_addUnder : (t.addUnder db tag isFirst n).tagSumInDb other =
    t.tagSumInDb other + if other = db then (if tag = .geo then 0 else isFirst.toNat) else 0 := by
  cases isFirst with
  | true => exact tagSumInDb_countInDb (t.count tag true n) db tag other
  | false =>
    rw [Bool.toNat_false, ite_self, ite_self]
    rfl

theorem dbSumOf_addUnder : (t.addUnder db tag isFirst n).dbSumOf otherTag =
    t.dbSumOf otherTag + if otherTag = tag then isFirst.toNat else 0 := by
  cases isFirst with
  | true => exact dbSumOf_countInDb (t.count tag true n) db tag otherTag
  | false =>
    rw [Bool.toNat_false, ite_self]
    rfl

theorem contains_addUnder : (t.addUnder db tag isFirst n).perDb.contains other = true ↔
    (isFirst = true ∧ other = db) ∨ t.perDb.contains other = true := by
  cases isFirst with
  | true =>
    rw [eq_self, true_and]
    exact SortedMap.contains_upsert _ _ _ _
  | false =>
    rw [eq_false Bool.false_ne_true, false_and, false_or]
    rfl

@[simp] theorem totalKeys_addUnder : (t.addUnder db tag isFirst n).totalKeys = t.totalKeys := by
  cases isFirst <;> rfl

@[simp] theorem dbSum_addUnder : (t.addUnder db tag isFirst n).dbSum = t.dbSum := by
  cases isFirst <;> rfl

@[simp] theorem perDbKeys_addUnder : (t.addUnder db tag isFirst n).perDbKeys = t.perDbKeys := by
  cases isFirst <;> rfl

@[simp] theorem keys_addKey : (t.addKey db isFirst).keys otherTag = t.keys otherTag := by
  cases isFirst <;> rfl

@[simp] theorem rows_addKey : (t.addKey db isFirst).rows otherTag = t.rows otherTag := by
  cases isFirst <;> rfl

@[simp] theorem tagSum_addKey : (t.addKey db isFirst).tagSum = t.tagSum := by
  cases isFirst <;> rfl

@[simp] theorem perDb_addKey : (t.addKey db isFirst).perDb = t.perDb := by
  cases isFirst <;> rfl

@[simp] theorem tagSumInDb_addKey : (t.addKey db isFirst).tagSumInDb other = t.tagSumInDb other := by
  cases isFirst <;> rfl

@[simp] theorem dbSumOf_addKey : (t.addKey db isFirst).dbSumOf otherTag = t.dbSumOf otherTag := by
  cases isFirst <;> rfl

@[simp] theorem dbKeys_addUnder : (t.addUnder db tag isFirst n).dbKeys other = t.dbKeys other := by
  cases isFirst <;> rfl

theorem totalKeys_addKey : (t.addKey db isFirst).totalKeys = t.totalKeys + isFirst.toNat := by
  cases isFirst <;> rfl

theorem dbSum_addKey : (t.addKey db isFirst).dbSum = t.dbSum + isFirst.toNat := by
  cases isFirst with
  | true => exact dbSum_countKey t db
  | false => rfl

theorem dbKeys_addKey : (t.addKey db isFirst).dbKeys other =
    t.dbKeys other + if other = db then isFirst.toNat else 0 := by
  cases isFirst with
  | true => exact dbKeys_countKey t db other
  | false =>
    rw [Bool.toNat_false, ite_self]
    rfl

theorem contains_addKey : (t.addKey db isFirst).perDbKeys.contains other = true ↔
    (isFirst = true ∧ other = db) ∨ t.perDbKeys.contains other = true := by
  cases isFirst with
  | true =>
    rw [eq_self, true_and]
    exact SortedMap.contains_upsert _ _ _ _
  | false =>
    rw [eq_false Bool.false_ne_true, false_and, false_or]
    rfl

end AddUnder

/-! ### The counters agree -/

structure Consistent (t : Totals) : Prop where
  byDb : t.totalKeys = t.dbSum
  byTag : t.totalKeys = t.tagSum
  inDb : ∀ db, t.dbKeys db = t.tagSumInDb db
  sameDbs : ∀ db, t.perDb.contains db = true ↔ t.perDbKeys.contains db = true
  ofTag : ∀ tag, t.keys tag = t.dbSumOf tag
  rows : ∀ tag, t.keys tag ≤ t.rows tag
  geoKeys : t.keys .geo ≤ t.keys .sortedSet
  geoRows : t.rows .geo ≤ t.rows .sortedSet

theorem new_consistent : Totals.new.Consistent where
  byDb := rfl
  byTag := rfl
  inDb _ := rfl
  sameDbs _ := Iff.rfl
  ofTag _ := rfl
  rows _ := Nat.le_refl 0
  geoKeys := Nat.le_refl 0
  geoRows := Nat.le_refl 0

section Step

variable {t : Totals} {db : Nat} {tag : TypeTag} {isFirst : Bool} {n : Nat}

theorem keys_le_rows_addUnder (h : ∀ other, t.keys other ≤ t.rows other) (hn : 0 < n)
    (other : TypeTag) :
    (t.addUnder db tag isFirst n).keys other ≤ (t.addUnder db tag isFirst n).rows other := by
  have hfirst : isFirst.toNat ≤ n := le_trans (Bool.toNat_le isFirst) hn
  have hother := h other
  rw [keys_addUnder, rows_addUnder]
  split <;> omega

theorem Consistent.own (h : t.Consistent) (hgeo : tag ≠ .geo) (hn : 0 < n) :
    ((t.addKey db isFirst).addUnder db tag isFirst n).Consistent where
  byDb := by rw [dbSum_addUnder, dbSum_addKey, totalKeys_addUnder, totalKeys_addKey, h.byDb]
  byTag := by
    rw [tagSum_addUnder, tagSum_addKey, if_neg hgeo, totalKeys_addUnder, totalKeys_addKey, h.byTag]
  inDb other := by
    rw [dbKeys_addUnder, dbKeys_addKey, tagSumInDb_addUnder, tagSumInDb_addKey, if_neg hgeo, h.inDb]
  sameDbs other := by
    rw [contains_addUnder, perDb_addKey, perDbKeys_addUnder, contains_addKey, h.sameDbs]
  ofTag other := by
    rw [keys_addUnder, keys_addKey, dbSumOf_addUnder, dbSumOf_addKey, h.ofTag]
  rows := by
    refine keys_le_rows_addUnder (fun other => ?_) hn
    rw [keys_addKey, rows_addKey]
    exact h.rows other
  geoKeys := by
    rw [keys_addUnder, keys_addUnder, keys_addKey, keys_addKey, if_neg hgeo.symm, Nat.add_zero]
    exact le_trans h.geoKeys (Nat.le_add_right _ _)
  geoRows := by
    rw [rows_addUnder, rows_addUnder, rows_addKey, rows_addKey, if_neg hgeo.symm, Nat.add_zero]
    exact le_trans h.geoRows (Nat.le_add_right _ _)

/-- An entry under `Geo` as well, once it is under the tag of its type. -/
theorem Consistent.also (h : t.Consistent) (hn : 0 < n)
    (hdb : isFirst = true → t.perDb.contains db = true)
    (hkeys : t.keys .geo + isFirst.toNat ≤ t.keys .sortedSet)
    (hrows : t.rows .geo + n ≤ t.rows .sortedSet) :
    (t.addUnder db .geo isFirst n).Consistent where
  byDb := by rw [dbSum_addUnder, totalKeys_addUnder, h.byDb]
  byTag := by rw [tagSum_addUnder, if_pos rfl, totalKeys_addUnder, h.byTag, Nat.add_zero]
  inDb other := by
    rw [dbKeys_addUnder, tagSumInDb_addUnder, if_pos rfl, ite_self, Nat.add_zero, h.inDb]
  sameDbs other := by
    rw [contains_addUnder, perDbKeys_addUnder, ← h.sameDbs]
    refine or_iff_right_of_imp ?_
    rintro ⟨hfirst, rfl⟩
    exact hdb hfirst
  ofTag other := by rw [keys_addUnder, dbSumOf_addUnder, h.ofTag]
  rows := keys_le_rows_addUnder h.rows hn
  geoKeys := by
    rw [keys_addUnder, keys_addUnder, if_pos rfl, if_neg (by decide), Nat.add_zero]
    exact hkeys
  geoRows := by
    rw [rows_addUnder, rows_addUnder, if_pos rfl, if_neg (by decide), Nat.add_zero]
    exact hrows

end Step

theorem Consistent.add {t : Totals} (h : t.Consistent) (heuristics : Finset Heuristic)
    (entry : RdbEntry) : (t.add heuristics entry).Consistent := by
  obtain ⟨tag, htag⟩ := typeTagFor_isSome entry
  have hgeo : tag ≠ .geo := fun hc => typeTagFor_ne_geo entry (hc ▸ htag)
  have hpos := expectedRowCount_pos entry
  have hown : ((t.addKey entry.db entry.isFirstChunk).addUnder entry.db tag entry.isFirstChunk
      (expectedRowCount entry)).Consistent := h.own hgeo hpos
  rw [add_eq htag]
  dsimp only
  split
  · rename_i hemit
    obtain ⟨-, rfl, -⟩ := shouldEmitGeo_iff.mp hemit
    refine hown.also hpos ?_ ?_ ?_
    · intro hfirst
      rw [contains_addUnder]
      exact .inl ⟨hfirst, rfl⟩
    · rw [keys_addUnder, keys_addUnder, keys_addKey, keys_addKey, if_neg (by decide), if_pos rfl]
      exact Nat.add_le_add_right h.geoKeys _
    · rw [rows_addUnder, rows_addUnder, rows_addKey, rows_addKey, if_neg (by decide), if_pos rfl]
      exact Nat.add_le_add_right h.geoRows _
  · exact hown

theorem totalKeys_add (t : Totals) (heuristics : Finset Heuristic) (entry : RdbEntry) :
    (t.add heuristics entry).totalKeys = t.totalKeys + entry.isFirstChunk.toNat := by
  obtain ⟨tag, htag⟩ := typeTagFor_isSome entry
  rw [add_eq htag]
  dsimp only
  split
  · rw [totalKeys_addUnder, totalKeys_addUnder, totalKeys_addKey]
  · rw [totalKeys_addUnder, totalKeys_addKey]

end Totals

/-- The counters agree after any readable items, and a key is counted where it starts. -/
theorem summarizeItems_consistent (heuristics : Finset Heuristic) {items : List (Res RdbEntry)}
    (hread : Readable items) {t : Totals} (ht : t.Consistent) :
    ∃ t', summarizeItems heuristics items t = .ok t' ∧ t'.Consistent ∧
      t'.totalKeys = t.totalKeys + (entriesOf items).countP RdbEntry.isFirstChunk := by
  induction items generalizing t with
  | nil => exact ⟨t, rfl, ht, rfl⟩
  | cons x xs ih =>
    rcases x with f | entry
    · rcases unknownType_cases f with ⟨c, rfl⟩ | hu
      · exact ih hread ht
      · have hcons : faultsOf (.error f :: xs) = f :: faultsOf xs := by simp [faultsOf, hu]
        rw [Readable, hcons] at hread
        cases hread
    · obtain ⟨t', hrun, hcons, hkeys⟩ := ih hread (ht.add heuristics entry)
      refine ⟨t', hrun, hcons, ?_⟩
      have hentries : entriesOf (.ok entry :: xs) = entry :: entriesOf xs := rfl
      rw [hkeys, Totals.totalKeys_add, hentries, List.countP_cons]
      cases entry.isFirstChunk with
      | false => rfl
      | true => exact Nat.add_right_comm t.totalKeys 1 _

/-! ### The keys of a reader -/

def EntrySummary.counters (s : EntrySummary) : Totals := ⟨s.totals, s.perDb, s.perDbKeys, s.totalKeys⟩

theorem pieces_first {e : RdbEntry} (hw : e.Whole) (limit : Option ℕ+) :
    (e.pieces limit).countP RdbEntry.isFirstChunk = 1 := by
  have hone : [e].countP RdbEntry.isFirstChunk = 1 := by
    simp [RdbEntry.isFirstChunk, hw.2]
  cases limit with
  | none => exact hone
  | some max =>
    rw [RdbEntry.pieces]
    split
    · rename_i hsplits
      have hmax := max.pos
      have hlarge := hsplits.2
      have hn : (e.value.elementCount + max - 1) / max ≠ 0 :=
        Nat.div_ne_zero_iff.mpr ⟨by omega, by omega⟩
      obtain ⟨k, hk⟩ := Nat.exists_eq_succ_of_ne_zero hn
      have hlater : ((List.range k).map Nat.succ).countP
          (RdbEntry.isFirstChunk ∘ fun i => e.chunk (i * max) max) = 0 := by
        rw [List.countP_eq_zero]
        intro i hi
        obtain ⟨j, -, rfl⟩ := List.mem_map.mp hi
        simp [RdbEntry.isFirstChunk, RdbEntry.chunk]
      have hfirst : (e.chunk 0 max).isFirstChunk = true := rfl
      rw [hk, Nat.succ_eq_add_one, List.range_succ_eq_map, List.countP_map, List.countP_cons, hlater]
      simp [hfirst]
    · exact hone

theorem configured_clean {input : Bytes} {r : RdbReader} (hnew : RdbReader.new input = .ok r)
    (hclean : r.Clean) (limit : Option ℕ+) : ∀ x ∈ (r.configure limit).items.1, ¬Terminal x := by
  obtain ⟨r', hy⟩ := configured_yields hnew hclean limit
  rw [(((Reachable.new hnew).configure limit).yields.unique hy).1]
  intro x hx
  obtain ⟨y, hy, hx⟩ := List.mem_flatMap.mp hx
  cases y with
  | error f =>
    rw [List.mem_singleton.mp hx]
    exact hclean _ hy
  | ok e =>
    obtain ⟨piece, -, rfl⟩ := List.mem_map.mp hx
    exact id

theorem configured_first {input : Bytes} {r : RdbReader} (hnew : RdbReader.new input = .ok r)
    (hclean : r.Clean) (limit : Option ℕ+) :
    (entriesOf (r.configure limit).items.1).countP RdbEntry.isFirstChunk = r.keys.length := by
  obtain ⟨r', hy⟩ := configured_yields hnew hclean limit
  have hitems := ((Reachable.new hnew).configure limit).yields.unique hy
  have hwhole := keys_whole hnew hclean
  rw [hitems.1, entriesOf_pieceItems]
  change (r.keys.flatMap (·.pieces limit)).countP _ = _
  have hones : ∀ e ∈ r.keys, (List.countP RdbEntry.isFirstChunk ∘ (·.pieces limit)) e = 1 :=
    fun e he => pieces_first (hwhole e he) limit
  rw [List.countP_flatMap, List.map_congr_left hones]
  simp

theorem summarizeEntries_keys {input : Bytes} {r : RdbReader} (hnew : RdbReader.new input = .ok r)
    (limit : Option ℕ+) (heuristics : Finset Heuristic)
    (h : ∀ x ∈ (r.configure limit).items.1, ¬Terminal x) :
    ∃ s, summarizeEntries (r.configure limit) heuristics = .ok s ∧ s.counters.Consistent ∧
      s.totalKeys = r.keys.length := by
  obtain ⟨t, hrun, hcons, hkeys⟩ :=
    summarizeItems_consistent heuristics (readable_of_not_terminal h) Totals.new_consistent
  rw [configured_first hnew (clean_of_configured hnew h) limit] at hkeys
  have hs : ∃ s, summarizeEntries (r.configure limit) heuristics = .ok s ∧ s.counters = t := by
    rw [summarizeEntries, hrun]
    exact ⟨_, rfl, rfl⟩
  obtain ⟨s, hs, rfl⟩ := hs
  exact ⟨s, hs, hcons, hkeys.trans (Nat.zero_add _)⟩

def Record.isKey : Record → Bool
  | .key _ => true
  | _ => false

theorem entriesOf_recordItems (past records : List Record) :
    (entriesOf (recordItems past records)).length = records.countP Record.isKey := by
  induction records generalizing past with
  | nil => rfl
  | cons t ts ih =>
    have hrest := ih (t :: past)
    rw [List.countP_cons]
    cases t with
    | key k => exact congrArg Nat.succ hrest
    | _ => exact hrest

/-- The counters agree; of a reader under any chunk setting, they count its keys, and of a
file the key objects in it. -/
theorem summary_consistent (heuristics : Finset Heuristic) :
    (∀ items : List (Res RdbEntry),
      (∀ x ∈ items, (∃ entry, x = .ok entry) ∨ ∃ t, x = .error (.error (.unknownType t))) →
      ∃ t, summarizeItems heuristics items .new = .ok t ∧ t.Consistent) ∧
    (∀ (input : Bytes) (r : RdbReader), RdbReader.new input = .ok r → ∀ limit : Option ℕ+,
      (∀ x ∈ (r.configure limit).items.1, ¬Terminal x) →
      ∃ s, summarizeEntries (r.configure limit) heuristics = .ok s ∧ s.counters.Consistent ∧
        s.totalKeys = r.keys.length) ∧
    ∀ (f : FileForm) (trailer : Bytes), 5 ≤ f.header.version → f.TrailerOk trailer →
      (∀ t ∈ f.records, t.Fits) →
      ∃ r, RdbReader.new (f.body ++ trailer) = .ok r ∧ ∀ limit : Option ℕ+,
        ∃ s, summarizeEntries (r.configure limit) heuristics = .ok s ∧
          s.totalKeys = f.records.countP Record.isKey := by
  refine ⟨?_, ?_, ?_⟩
  · intro items hitems
    have hread : Readable items := by
      refine readable_of_not_terminal fun x hx => ?_
      rcases hitems x hx with ⟨entry, rfl⟩ | ⟨t, rfl⟩ <;> exact id
    obtain ⟨t, hrun, hcons, -⟩ :=
      summarizeItems_consistent heuristics hread Totals.new_consistent
    exact ⟨t, hrun, hcons⟩
  · intro input r hnew limit h
    exact summarizeEntries_keys hnew limit heuristics h
  · intro f trailer hv ht hfit
    obtain ⟨r, s, hnew, hy⟩ := f.new_items hv ht hfit
    have hitems := ((Reachable.new hnew).withoutChunking.yields.unique hy).1
    have hclean : r.Clean := by
      unfold RdbReader.Clean
      rw [hitems]
      exact recordItems_not_terminal [] f.records
    refine ⟨r, hnew, fun limit => ?_⟩
    obtain ⟨s, hs, -, hkeys⟩ :=
      summarizeEntries_keys hnew limit heuristics (configured_clean hnew hclean limit)
    refine ⟨s, hs, ?_⟩
    rw [hkeys, RdbReader.keys, hitems, entriesOf_recordItems]

theorem summary_consistent_select :
    (∃ t, summarizeItems {.geo} [.error (.error (.unknownType 9)), .ok selectEntry] .new = .ok t ∧
      t.Consistent) ∧
    (∃ s, summarizeEntries (listReader.configure (some 2)) {.geo} = .ok s ∧
      s.counters.Consistent ∧ s.totalKeys = 1) ∧
    ∃ r, RdbReader.new (selectFile.body ++ List.replicate 8 0) = .ok r ∧
      ∃ s, summarizeEntries (r.configure (some 2)) {.geo} = .ok s ∧ s.totalKeys = 1 := by
  obtain ⟨hitems, hreader, hfile⟩ := summary_consistent {.geo}
  obtain ⟨hnew, hclean, hkeys⟩ := listReader_clean
  refine ⟨hitems _ (by simp), ?_, ?_⟩
  · obtain ⟨s, hs, hcons, htotal⟩ := hreader listFile listReader hnew (some 2)
      (configured_clean hnew hclean (some 2))
    rw [hkeys] at htotal
    exact ⟨s, hs, hcons, htotal⟩
  · obtain ⟨r, hr, hall⟩ := hfile selectFile (List.replicate 8 0) (by decide)
      ⟨rfl, .inl (by decide)⟩ (by
        simp [selectFile, Record.Fits, Opcode.Fits, KeyForm.Fits, ValueForm.Fits,
          ValueForm.WithinCaps, ValueForm.Near, StringForm.Fits, maxAllocBytes])
    exact ⟨r, hr, hall (some 2)⟩

end ValkeyRdb
