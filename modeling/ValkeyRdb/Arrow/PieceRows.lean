import ValkeyRdb.Reader.Pieces
import ValkeyRdb.Arrow.BatchRun

/-!
# Rows of the pieces of a key

The rows of a chunk are a window of the rows of its key, under every tag that does not
depend on whether the key was split.
-/

namespace ValkeyRdb

/-! ### One chunk -/

theorem listCells_window (elements : List Bytes) (start count : Nat) :
    listCells start ((elements.drop start).take count) =
      ((listCells 0 elements).drop start).take count := by
  apply List.ext_getElem
  · simp [listCells]
  · intro i hi hi'
    simp [listCells, satAdd64]

theorem collectionRows_window (e : RdbEntry) (typeStr : String) (n width : Nat)
    {cells : List (List Cell)} {start count : Nat} (hstart : start < cells.length)
    (hcount : 0 < count) :
    collectionRows (e.chunk start count) typeStr n width ((cells.drop start).take count) =
      ((collectionRows e typeStr n width cells).drop start).take count := by
  have hne : cells ≠ [] := List.ne_nil_of_length_pos (by omega)
  have hne' : (cells.drop start).take count ≠ [] := by
    apply List.ne_nil_of_length_pos
    simp only [List.length_take, List.length_drop]
    omega
  unfold collectionRows
  simp only [List.isEmpty_iff, hne, hne', if_false]
  rw [← List.map_drop, ← List.map_take]
  rfl

section Chunk

variable {e : RdbEntry} {start count : Nat}

theorem typeTagFor_chunk (hstart : start < e.value.elementCount) :
    typeTagFor (e.chunk start count) = typeTagFor e := by
  unfold typeTagFor RdbEntry.chunk RdbValue.slice
  cases hv : e.value with
  | string _ | module _ | stream _ => simp [hv, RdbValue.elementCount] at hstart
  | _ => rfl

theorem expectedRowCount_collection (h : 0 < e.value.elementCount) :
    expectedRowCount e = e.value.elementCount := by
  unfold expectedRowCount
  cases hv : e.value with
  | string _ | module _ | stream _ => simp [hv, RdbValue.elementCount] at h
  | _ =>
    simp only [hv, RdbValue.elementCount] at h ⊢
    omega

theorem entryRows_chunk (hw : e.Whole) (hstart : start < e.value.elementCount) (hcount : 0 < count)
    (tag : TypeTag) :
    tag.entryRows (e.chunk start count) = ((tag.entryRows e).drop start).take count := by
  obtain ⟨ht, ho⟩ := hw
  unfold TypeTag.entryRows
  cases hv : e.value with
  | string _ | module _ | stream _ => simp [hv, RdbValue.elementCount] at hstart
  | list elements =>
    rw [hv] at hstart
    have hlen : start < elements.length := hstart
    cases tag with
    | list =>
      simp only [RdbEntry.chunk, hv, RdbValue.slice, ht, ho, Option.getD_some, Option.getD_none]
      rw [listCells_window]
      exact collectionRows_window e _ _ _ (by simpa [listCells] using hlen) hcount
    | _ => simp [RdbEntry.chunk, hv, RdbValue.slice]
  | set members =>
    rw [hv] at hstart
    have hlen : start < members.length := hstart
    cases tag with
    | set =>
      simp only [RdbEntry.chunk, hv, RdbValue.slice, ht, Option.getD_some, Option.getD_none, setCells,
        List.map_take, List.map_drop]
      exact collectionRows_window e _ _ _ (by simpa using hlen) hcount
    | _ => simp [RdbEntry.chunk, hv, RdbValue.slice]
  | sortedSet pairs =>
    rw [hv] at hstart
    have hlen : start < pairs.length := hstart
    cases tag with
    | sortedSet =>
      simp only [RdbEntry.chunk, hv, RdbValue.slice, ht, Option.getD_some, Option.getD_none,
        sortedSetCells, List.map_take, List.map_drop]
      exact collectionRows_window e _ _ _ (by simpa using hlen) hcount
    | geo =>
      simp only [RdbEntry.chunk, hv, RdbValue.slice, ht, Option.getD_some, Option.getD_none,
        geoCells, List.map_take, List.map_drop]
      exact collectionRows_window e _ _ _ (by simpa using hlen) hcount
    | _ => simp [RdbEntry.chunk, hv, RdbValue.slice]
  | hash fields =>
    rw [hv] at hstart
    have hlen : start < fields.length := hstart
    cases tag with
    | hash =>
      simp only [RdbEntry.chunk, hv, RdbValue.slice, ht, Option.getD_some, Option.getD_none,
        hashCells, List.map_take, List.map_drop]
      exact collectionRows_window e _ _ _ (by simpa using hlen) hcount
    | _ => simp [RdbEntry.chunk, hv, RdbValue.slice]

end Chunk

theorem rowsUnder_of_ne_geo {heuristics : Finset Heuristic} {tag primary : TypeTag} {e : RdbEntry}
    (hgeo : tag ≠ .geo) (hp : typeTagFor e = some primary) :
    rowsUnder heuristics tag e = if tag = primary then primary.entryRows e else [] := by
  unfold rowsUnder
  simp [hp, hgeo]

theorem rowsUnder_geo_chunk (heuristics : Finset Heuristic) (e : RdbEntry) (start count : Nat) :
    rowsUnder heuristics .geo (e.chunk start count) = [] := by
  obtain ⟨primary, hp⟩ := typeTagFor_isSome (e.chunk start count)
  have hne : TypeTag.geo ≠ primary := fun h => typeTagFor_ne_geo _ (h ▸ hp)
  have hno : isGeoEntry (e.chunk start count) = false := rfl
  simp [rowsUnder, hp, hne, shouldEmitGeo, hno]

theorem rowsUnder_chunk (heuristics : Finset Heuristic) {tag : TypeTag} (hgeo : tag ≠ .geo)
    {e : RdbEntry} (hw : e.Whole) {start count : Nat} (hstart : start < e.value.elementCount)
    (hcount : 0 < count) :
    rowsUnder heuristics tag (e.chunk start count) =
      ((rowsUnder heuristics tag e).drop start).take count := by
  obtain ⟨primary, hp⟩ := typeTagFor_isSome e
  rw [rowsUnder_of_ne_geo hgeo hp, rowsUnder_of_ne_geo hgeo ((typeTagFor_chunk hstart).trans hp)]
  split
  · exact entryRows_chunk hw hstart hcount primary
  · simp

/-! ### All the pieces -/

theorem rowsUnder_length_le {heuristics : Finset Heuristic} {tag : TypeTag} (hgeo : tag ≠ .geo)
    {e : RdbEntry} (h : 0 < e.value.elementCount) :
    (rowsUnder heuristics tag e).length ≤ e.value.elementCount := by
  obtain ⟨primary, hp⟩ := typeTagFor_isSome e
  rw [rowsUnder_of_ne_geo hgeo hp]
  split
  · rw [entryRows_length hp, expectedRowCount_collection h]
  · simp

theorem pieces_rows (heuristics : Finset Heuristic) {tag : TypeTag} (hgeo : tag ≠ .geo)
    {e : RdbEntry} (hw : e.Whole) (limit : Option ℕ+) :
    (e.pieces limit).flatMap (rowsUnder heuristics tag) = rowsUnder heuristics tag e := by
  unfold RdbEntry.pieces
  cases limit with
  | none => simp
  | some max =>
    dsimp only
    split
    · rename_i hsplits
      have hlarge := hsplits.2
      have hchunk : ∀ i ∈ List.range ((e.value.elementCount + max - 1) / max),
          rowsUnder heuristics tag (e.chunk (i * max) max) =
            ((rowsUnder heuristics tag e).drop (i * max)).take max := by
        intro i hi
        exact rowsUnder_chunk heuristics hgeo hw (window_start (List.mem_range.mp hi)) max.pos
      have hlen := @rowsUnder_length_le heuristics tag hgeo e (by omega)
      rw [List.flatMap_map, List.flatMap_def, List.map_congr_left hchunk, windows_join hlen]
    · simp

end ValkeyRdb
