import ValkeyRdb.Arrow.ChunkSettings

/-!
# The entry size limit (batcher.rs:185-190)

The size is checked for every piece of a key on its own, so a split key is exported in
part when its pieces fall on both sides of the limit.
-/

namespace ValkeyRdb

/-! ### Leaving out some of the parts -/

section Parts

variable {α β : Type} {drop : α → Bool} {f : α → List β}

theorem kept_length_le (xs : List α) :
    (xs.flatMap fun x => if drop x = true then [] else f x).length ≤ (xs.flatMap f).length := by
  induction xs with
  | nil => exact Nat.le_refl _
  | cons x xs ih =>
    simp only [List.flatMap_cons, List.length_append]
    split
    · simp only [List.length_nil]
      omega
    · omega

theorem kept_eq_all_iff {xs : List α} (hf : ∀ x ∈ xs, f x ≠ []) :
    (xs.flatMap fun x => if drop x = true then [] else f x) = xs.flatMap f ↔
      ∀ x ∈ xs, drop x = false := by
  induction xs with
  | nil => simp
  | cons x xs ih =>
    have hxs := ih fun y hy => hf y (List.mem_cons_of_mem _ hy)
    simp only [List.flatMap_cons, List.forall_mem_cons]
    cases hd : drop x with
    | false => simp [hxs]
    | true =>
      have hle := @kept_length_le α β drop f xs
      have hpos := List.length_pos_of_ne_nil (hf x List.mem_cons_self)
      constructor
      · intro heq
        have hlen := congrArg List.length heq
        simp only [if_true, List.nil_append, List.length_append] at hlen
        omega
      · rintro ⟨h, -⟩
        cases h

theorem kept_eq_nil_iff {xs : List α} (hf : ∀ x ∈ xs, f x ≠ []) :
    (xs.flatMap fun x => if drop x = true then [] else f x) = [] ↔ ∀ x ∈ xs, drop x = true := by
  rw [List.flatMap_eq_nil_iff]
  constructor
  · intro h x hx
    have hnil := h x hx
    split at hnil
    · assumption
    · exact absurd hnil (hf x hx)
  · intro h x hx
    simp [h x hx]

end Parts

/-! ### The pieces of one key -/

/-- The pieces of a key are all within the limit, or all above it: the windows of `max`
elements of a key that is split, and any other key as it is. -/
def BatcherConfig.OneSide (config : BatcherConfig) (max : ℕ+) (e : RdbEntry) : Prop :=
  ∀ limit, config.maxEntryBytes = some limit → e.Splits max →
    (∀ i, i * max < e.value.elementCount → estimateEntryBytes (e.chunk (i * max) max) ≤ limit) ∨
    (∀ i, i * max < e.value.elementCount → limit < estimateEntryBytes (e.chunk (i * max) max))

section Key

variable {config : BatcherConfig} {max : ℕ+} {e : RdbEntry}

theorem forall_pieces_iff (hs : e.Splits max) {P : RdbEntry → Prop} :
    (∀ p ∈ e.pieces (some max), P p) ↔
      ∀ i, i * max < e.value.elementCount → P (e.chunk (i * max) max) := by
  have hpos := max.pos
  simp only [RdbEntry.pieces, if_pos hs, List.mem_map, List.mem_range]
  constructor
  · intro h i hi
    apply h
    refine ⟨i, ?_, rfl⟩
    rw [Nat.lt_iff_add_one_le, Nat.le_div_iff_mul_le hpos, Nat.succ_mul]
    omega
  · rintro h _ ⟨i, hi, rfl⟩
    exact h i (window_start hi)

theorem oneSide_iff : config.OneSide max e ↔
    (∀ p ∈ e.pieces (some max), config.oversized p = false) ∨
      (∀ p ∈ e.pieces (some max), config.oversized p = true) := by
  unfold BatcherConfig.OneSide
  cases hm : config.maxEntryBytes with
  | none => simp [BatcherConfig.oversized, hm]
  | some limit =>
    by_cases hs : e.Splits max
    · rw [forall_pieces_iff hs, forall_pieces_iff hs]
      simp [BatcherConfig.oversized, hm, hs]
    · cases ho : config.oversized e <;> simp [RdbEntry.pieces, hs, ho]

theorem typeTagFor_piece {p : RdbEntry} (hp : p ∈ e.pieces (some max)) :
    typeTagFor p = typeTagFor e := by
  unfold RdbEntry.pieces at hp
  dsimp only at hp
  split at hp
  · obtain ⟨i, hi, rfl⟩ := List.mem_map.mp hp
    exact typeTagFor_chunk (window_start (List.mem_range.mp hi))
  · rw [List.mem_singleton.mp hp]

/-- The rows of a key are exported as a whole or not at all exactly when its pieces are on
one side of the limit. -/
theorem keyRows_all_or_none (hw : e.Whole) {tag : TypeTag} (htag : typeTagFor e = some tag) :
    config.keyRows (some max) tag e = rowsUnder config.heuristics tag e ∨
        config.keyRows (some max) tag e = [] ↔ config.OneSide max e := by
  have hgeo : tag ≠ .geo := fun h => typeTagFor_ne_geo e (h ▸ htag)
  have hne : ∀ p ∈ e.pieces (some max), rowsUnder config.heuristics tag p ≠ [] := by
    intro p hp
    have hptag := (typeTagFor_piece hp).trans htag
    rw [rowsUnder_of_ne_geo hgeo hptag, if_pos rfl]
    exact entryRows_ne_nil hptag
  rw [oneSide_iff, ← kept_eq_all_iff hne, ← kept_eq_nil_iff hne,
    pieces_rows config.heuristics hgeo hw (some max)]
  rfl

end Key

/-- Under a limit and a chunk setting a run comes to its end, with the rows of every key of
the file all there or none of them, exactly when the builders have room for the pieces of the
keys and the pieces of each key are on one side of the limit. As far as there is room, the
batches hold the rows of the keys in order, and the sizes of its pieces decide for each. -/
theorem entry_limit_all_or_none {ε : Type} (tryNew : TryNew ε) (ht : TryNewAccepts tryNew)
    (input : Bytes) (r : RdbReader) (hnew : RdbReader.new input = .ok r) (hclean : r.Clean)
    (max : ℕ+) (config : BatcherConfig) :
    ((∃ rounds batches last, (∀ n, rounds ≤ n → Yields (BatchIterator.next tryNew RdbReader.next n)
          ((ArrowBatcher.new config).process (r.withMaxKeyElements max)) (batches.map .ok) last) ∧
        (∀ tag, tagRows tag batches = r.keys.flatMap (config.keyRows (some max) tag)) ∧
        ∀ e ∈ r.keys, ∀ tag, typeTagFor e = some tag →
          config.keyRows (some max) tag e = rowsUnder config.heuristics tag e ∨
            config.keyRows (some max) tag e = []) ↔
      config.Fits (r.keyPieces (some max)) ∧ ∀ e ∈ r.keys, config.OneSide max e) ∧
    (config.Fits (r.keyPieces (some max)) →
      ∃ rounds batches last, (∀ n, rounds ≤ n → Yields (BatchIterator.next tryNew RdbReader.next n)
          ((ArrowBatcher.new config).process (r.withMaxKeyElements max)) (batches.map .ok) last) ∧
        (∀ tag, tagRows tag batches = r.keys.flatMap (config.keyRows (some max) tag)) ∧
        ∀ e ∈ r.keys, ∀ tag, typeTagFor e = some tag →
          (config.keyRows (some max) tag e = rowsUnder config.heuristics tag e ∨
            config.keyRows (some max) tag e = [] ↔ config.OneSide max e)) := by
  have hwhole := keys_whole hnew hclean
  constructor
  · constructor
    · rintro ⟨rounds, batches, last, hy, -, hkeys⟩
      refine ⟨fits_of_configured ht hnew hclean (some max) hy, fun e he => ?_⟩
      obtain ⟨tag, htag⟩ := typeTagFor_isSome e
      exact (keyRows_all_or_none (hwhole e he) htag).mp (hkeys e he tag htag)
    · rintro ⟨hfits, hside⟩
      obtain ⟨rounds, batches, last, hy, -, hrows⟩ :=
        configured_batches ht hnew hclean (some max) hfits
      exact ⟨rounds, batches, last, hy, hrows,
        fun e he tag htag => (keyRows_all_or_none (hwhole e he) htag).mpr (hside e he)⟩
  · intro hfits
    obtain ⟨rounds, batches, last, hy, -, hrows⟩ :=
      configured_batches ht hnew hclean (some max) hfits
    exact ⟨rounds, batches, last, hy, hrows,
      fun e he tag htag => keyRows_all_or_none (hwhole e he) htag⟩

/-- "REDIS0011", the list "k" with the elements "a" and "bbbb", and the end. -/
def splitFile : Bytes := magicRedis ++
  [48, 49, 49, 1, 1, 107, 2, 1, 97, 4, 98, 98, 98, 98, 255, 0, 0, 0, 0, 0, 0, 0, 0]

def splitReader : RdbReader :=
  { RdbReader.afterHeader ⟨splitFile.drop 10, crc64 0 (splitFile.take 10)⟩ ⟨.redis, 11⟩ with
    preambleByte := some rdbTypeList }

def splitEntry : RdbEntry :=
  keyEntry 0 rdbTypeList (none, none, none) [107] (.list [[97], [98, 98, 98, 98]]) none none

def splitConfig : BatcherConfig := { BatcherConfig.default with maxEntryBytes := some 3 }

/-- With one element a chunk and a limit of three bytes the first row of the key is
exported, and the second one is not. -/
theorem entry_limit_drops_part : RdbReader.new splitFile = .ok splitReader ∧
    splitReader.keys = [splitEntry] ∧
    ∃ rounds batches last, (∀ n, rounds ≤ n →
      Yields (BatchIterator.next checkedTryNew RdbReader.next n)
        ((ArrowBatcher.new splitConfig).process (splitReader.withMaxKeyElements 1))
        (batches.map .ok) last) ∧
      tagRows .list batches = (TypeTag.list.entryRows splitEntry).take 1 ∧
      tagRows .list batches ≠ [] ∧
      tagRows .list batches ≠ TypeTag.list.entryRows splitEntry := by
  have hnew : RdbReader.new splitFile = .ok splitReader := by decide +kernel
  have hitems : splitReader.withoutChunking.items.1 = [splitEntry].map .ok := by decide +kernel
  obtain ⟨hclean, hkeys⟩ := clean_of_items hitems
  have hfits : splitConfig.Fits (splitReader.keyPieces (some 1)) := by
    rw [← eachFits_iff_fits checkedTryNew_accepts, RdbReader.keyPieces, hkeys]
    decide +kernel
  obtain ⟨rounds, batches, last, hy, -, hrows⟩ :=
    configured_batches checkedTryNew_accepts hnew hclean (some 1) hfits
  have hlist := hrows .list
  rw [hkeys] at hlist
  refine ⟨hnew, hkeys, rounds, batches, last, hy, ?_, ?_, ?_⟩ <;> rw [hlist] <;> decide +kernel

/-- Both chunks of "k" with "a", "b" and "c" are within four bytes. -/
theorem entry_limit_all_or_none_list : ∃ rounds batches last, (∀ n, rounds ≤ n →
    Yields (BatchIterator.next checkedTryNew RdbReader.next n)
      ((ArrowBatcher.new { splitConfig with maxEntryBytes := some 4 }).process
        (listReader.withMaxKeyElements 2)) (batches.map .ok) last) ∧
    tagRows .list batches = TypeTag.list.entryRows listEntry := by
  obtain ⟨hnew, hclean, hkeys⟩ := listReader_clean
  have hfits : { splitConfig with maxEntryBytes := some 4 }.Fits (listReader.keyPieces (some 2)) := by
    rw [← eachFits_iff_fits checkedTryNew_accepts, RdbReader.keyPieces, hkeys]
    decide +kernel
  obtain ⟨rounds, batches, last, hy, hrows, -⟩ := (entry_limit_all_or_none checkedTryNew
    checkedTryNew_accepts listFile listReader hnew hclean 2 _).2 hfits
  refine ⟨rounds, batches, last, hy, ?_⟩
  rw [hrows, hkeys]
  decide +kernel

end ValkeyRdb
