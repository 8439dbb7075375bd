import ValkeyRdb.Lib.Windows
import ValkeyRdb.Reader.Chunking

/-!
# The pieces of a key

Which entries a reader yields for a key is a function of the key and the limit: the
windows of its elements, or the key as it is.
-/

namespace ValkeyRdb

/-- `count` elements of a collection, from the one at `start`. -/
def RdbValue.slice (start count : Nat) : RdbValue → RdbValue
  | .list elements => .list ((elements.drop start).take count)
  | .set members => .set ((members.drop start).take count)
  | .sortedSet pairs => .sortedSet ((pairs.drop start).take count)
  | .hash fields => .hash ((fields.drop start).take count)
  | value => value

namespace RdbEntry

/-- The chunk of a key with `count` elements from the one at `start`. -/
def chunk (e : RdbEntry) (start count : Nat) : RdbEntry :=
  { e with
    value := e.value.slice start count
    totalElements := some e.value.elementCount
    elementOffset := some start }

/-- Whether the key is split under the limit. -/
def Splits (e : RdbEntry) (max : ℕ+) : Prop :=
  isPlainType e.typeCode = true ∧ (max : Nat) < e.value.elementCount

instance (e : RdbEntry) (max : ℕ+) : Decidable (e.Splits max) :=
  inferInstanceAs (Decidable (_ ∧ _))

/-- The entries in the place of a key under a chunk setting. -/
def pieces (e : RdbEntry) : Option ℕ+ → List RdbEntry
  | none => [e]
  | some max =>
    if e.Splits max then
      (List.range ((e.value.elementCount + max - 1) / max)).map fun i => e.chunk (i * max) max
    else [e]

/-- An entry that is not a chunk. -/
def Whole (e : RdbEntry) : Prop := e.totalElements = none ∧ e.elementOffset = none

end RdbEntry

/-- The items in the place of an item under a chunk setting. -/
def pieceItems (limit : Option ℕ+) : Res RdbEntry → List (Res RdbEntry)
  | .ok e => (e.pieces limit).map .ok
  | .error f => [.error f]

/-! ### Chunks are windows -/

/-- Parts of one kind, all full but the last, are windows of what they join to. -/
theorem parts_windows {α : Type} {mk : List α → RdbValue}
    (hcount : ∀ xs, (mk xs).elementCount = xs.length)
    (hslice : ∀ xs start n, (mk xs).slice start n = mk ((xs.drop start).take n))
    {parts : List (List α)} {pre : List RdbValue} {last : RdbValue} {max : ℕ+}
    (hmap : parts.map mk = pre ++ [last]) (hpre : ∀ v ∈ pre, v.elementCount = (max : Nat))
    (hpos : 0 < last.elementCount) (hle : last.elementCount ≤ (max : Nat)) :
    parts.map mk = (List.range (((mk parts.flatten).elementCount + max - 1) / max)).map fun i =>
      (mk parts.flatten).slice (i * max) max := by
  have hwin : windows max parts.flatten = parts := by
    obtain ⟨ps, qs, rfl, hps, hqs⟩ := List.map_eq_append_iff.mp hmap
    obtain ⟨q, rfl, hq⟩ := List.map_eq_singleton_iff.mp hqs
    subst hps hq
    apply windows_unique
    · intro p hp
      rw [← hcount]
      exact hpre _ (List.mem_map_of_mem hp)
    · rw [hcount] at hpos
      exact List.ne_nil_of_length_pos hpos
    · rwa [← hcount]
  calc parts.map mk = (windows max parts.flatten).map mk := by rw [hwin]
    _ = _ := by simp [windows, hcount, hslice]

theorem joins_windows {values : List RdbValue} {value : RdbValue} {pre : List RdbValue}
    {last : RdbValue} {max : ℕ+} (h : RdbValue.Joins values value) (hv : values = pre ++ [last])
    (hpre : ∀ v ∈ pre, v.elementCount = (max : Nat)) (hpos : 0 < last.elementCount)
    (hle : last.elementCount ≤ (max : Nat)) :
    values = (List.range ((value.elementCount + max - 1) / max)).map fun i =>
      value.slice (i * max) max := by
  cases h with
  | list parts => exact parts_windows (fun _ => rfl) (fun _ _ _ => rfl) hv hpre hpos hle
  | set parts => exact parts_windows (fun _ => rfl) (fun _ _ _ => rfl) hv hpre hpos hle
  | sortedSet parts => exact parts_windows (fun _ => rfl) (fun _ _ _ => rfl) hv hpre hpos hle
  | hash parts => exact parts_windows (fun _ => rfl) (fun _ _ _ => rfl) hv hpre hpos hle

theorem ChunksOf.values {max : ℕ+} {e : RdbEntry} {chunks : List RdbEntry}
    (h : ChunksOf max e chunks) :
    chunks.map RdbEntry.value = (List.range ((e.value.elementCount + max - 1) / max)).map fun i =>
      e.value.slice (i * max) max := by
  obtain ⟨pre, last, hchunks, hpre, hpos, hle⟩ := h.sizes
  have hvalues : chunks.map RdbEntry.value = pre.map RdbEntry.value ++ [last.value] := by
    simp [hchunks]
  apply joins_windows h.joins hvalues
  · intro v hv
    obtain ⟨c, hc, rfl⟩ := List.mem_map.mp hv
    exact hpre c hc
  · exact hpos
  · exact hle

/-- The chunk at position `i` starts at the element `i * max`. -/
theorem ChunksOf.offset {max : ℕ+} {e : RdbEntry} {chunks : List RdbEntry}
    (h : ChunksOf max e chunks) {i : Nat} (hi : i < chunks.length) :
    chunks[i].elementOffset = some (i * max) := by
  obtain ⟨pre, last, hchunks, hpre, -, -⟩ := h.sizes
  have hsplit : chunks = chunks.take i ++ chunks[i] :: chunks.drop (i + 1) := by
    rw [← List.drop_eq_getElem_cons hi, List.take_append_drop]
  have hfull : ∀ c ∈ chunks.take i, c.value.elementCount = (max : Nat) := by
    intro c hc
    have hle : i ≤ pre.length := by
      rw [hchunks, List.length_append, List.length_singleton] at hi
      omega
    rw [hchunks, List.take_append_of_le_length hle] at hc
    exact hpre c (List.mem_of_mem_take hc)
  have hsum : ((chunks.take i).map fun c => c.value.elementCount).sum = i * max := by
    have hmap : (chunks.take i).map (fun c => c.value.elementCount) = List.replicate i (max : Nat) := by
      rw [List.eq_replicate_iff]
      refine ⟨by simp; omega, fun n hn => ?_⟩
      obtain ⟨c, hc, rfl⟩ := List.mem_map.mp hn
      exact hfull c hc
    rw [hmap, List.sum_replicate_nat]
  rw [h.offsets _ _ _ hsplit, hsum]

theorem ChunksOf.eq_pieces {max : ℕ+} {e : RdbEntry} {chunks : List RdbEntry}
    (h : ChunksOf max e chunks) : chunks = e.pieces (some max) := by
  have hsplits : e.Splits max := ⟨h.plain, h.large⟩
  unfold RdbEntry.pieces
  simp only [if_pos hsplits]
  apply List.ext_getElem
  · simpa using h.count
  · intro i hi hi'
    obtain ⟨hsame, htotal⟩ := h.fields chunks[i] (List.getElem_mem hi)
    have hvalue : chunks[i].value = e.value.slice (i * max) max := by
      have hlen : i < (chunks.map RdbEntry.value).length := by simpa using hi
      have hmap : (chunks.map RdbEntry.value)[i] = e.value.slice (i * max) max := by
        simp [h.values]
      rwa [List.getElem_map] at hmap
    have hoffset := h.offset hi
    rw [List.getElem_map, List.getElem_range]
    generalize chunks[i] = c at hsame htotal hvalue hoffset
    obtain ⟨h1, h2, h3, h4, h5, h6⟩ := hsame
    cases c
    simp only at h1 h2 h3 h4 h5 h6 htotal hvalue hoffset
    simp [RdbEntry.chunk, h1, h2, h3, h4, h5, h6, htotal, hvalue, hoffset]

theorem Rechunked.eq_pieceItems {max : ℕ+} {x : Res RdbEntry} {group : List (Res RdbEntry)}
    (h : Rechunked max x group) : group = pieceItems (some max) x := by
  cases h with
  | fault f => rfl
  | @whole e hsmall _ _ =>
    have hsplits : ¬e.Splits max := fun hs => absurd (hsmall hs.1) (by have := hs.2; omega)
    simp [pieceItems, RdbEntry.pieces, hsplits]
  | chunks hc => rw [hc.eq_pieces]; rfl

theorem rechunked_all {max : ℕ+} {items : List (Res RdbEntry)} {groups : List (List (Res RdbEntry))}
    (h : List.Forall₂ (Rechunked max) items groups) :
    groups = items.map (pieceItems (some max)) ∧
      ∀ x ∈ items, Rechunked max x (pieceItems (some max) x) := by
  induction h with
  | nil => exact ⟨rfl, fun x hx => by cases hx⟩
  | @cons x group xs groups hx _ ih =>
    have heq := hx.eq_pieceItems
    refine ⟨by rw [heq, ih.1]; rfl, fun y hy => ?_⟩
    rcases List.mem_cons.mp hy with rfl | hy
    · rwa [← heq]
    · exact ih.2 y hy

/-! ### Whole files -/

theorem whole_of_yields {r r' : RdbReader} {items : List (Res RdbEntry)} (hr : r.Unchunked)
    (hy : Yields RdbReader.next r items r') (hx : ∀ x ∈ items, ¬Terminal x) :
    ∀ e, .ok e ∈ items → e.Whole := by
  intro e he
  -- under a limit above its size the entry is yielded as it is
  obtain ⟨-, groups, -, hgroups⟩ := yields_rechunked hr e.value.elementCount.succPNat hy hx
  have hgroup := (rechunked_all hgroups).2 _ he
  generalize pieceItems _ _ = group at hgroup
  cases hgroup with
  | whole _ ht ho => exact ⟨ht, ho⟩
  | chunks hc =>
    have hlarge := hc.large
    rw [Nat.succPNat_coe] at hlarge
    omega

theorem configured_yields {input : Bytes} {r : RdbReader} (hnew : RdbReader.new input = .ok r)
    (hclean : ∀ x ∈ r.withoutChunking.items.1, ¬Terminal x) (limit : Option ℕ+) :
    ∃ r', Yields RdbReader.next (r.configure limit)
      (r.withoutChunking.items.1.flatMap (pieceItems limit)) r' := by
  have hy := (Reachable.new hnew).withoutChunking.yields
  cases limit with
  | none =>
    have hsame : r.withoutChunking.items.1.flatMap (pieceItems none) = r.withoutChunking.items.1 := by
      have hone : pieceItems none = fun x => [x] := by
        funext x
        cases x <;> rfl
      simp [hone]
    rw [hsame]
    exact ⟨_, hy⟩
  | some max =>
    obtain ⟨groups, hys, hgroups⟩ := rechunked_yields max hnew hy hclean
    rw [(rechunked_all hgroups).1] at hys
    exact ⟨_, hys⟩

end ValkeyRdb
