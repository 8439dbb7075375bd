import Mathlib.Algebra.BigOperators.Group.Finset.Basic
import Mathlib.Data.Fintype.Basic
import ValkeyRdb.Cli.ExportOutcome

/-!
# Exports that share a file (filter.rs, export.rs:63-117)

The filters of an export pick the keys and the tags it takes. Exports that take each key
under each tag once have, tag by tag, the rows of one export without filters.
-/

namespace ValkeyRdb

open scoped BigOperators in
/-- What every element counts for is counted by the one party that takes it. -/
theorem sum_taken {ι α : Type} [Fintype ι] (p : ι → α → Bool) (f : α → Nat) (xs : List α)
    (h : ∀ x ∈ xs, f x ≠ 0 → ∃! i, p i x = true) :
    ∑ i, ((xs.filter (p i)).map f).sum = (xs.map f).sum := by
  induction xs with
  | nil => simp
  | cons x xs ih =>
    rw [List.forall_mem_cons] at h
    have hcons : ∀ i, (((x :: xs).filter (p i)).map f).sum =
        (if p i x = true then f x else 0) + ((xs.filter (p i)).map f).sum := by
      intro i
      by_cases hp : p i x = true
      · rw [List.filter_cons_of_pos hp, if_pos hp, List.map_cons, List.sum_cons]
      · rw [List.filter_cons_of_neg hp, if_neg hp, Nat.zero_add]
    have hone : ∑ i, (if p i x = true then f x else 0) = f x := by
      by_cases hzero : f x = 0
      · simp [hzero]
      · obtain ⟨i, hi, hunique⟩ := h.1 hzero
        rw [Finset.sum_eq_single i]
        · exact if_pos hi
        · intro j _ hj
          exact if_neg fun hp => hj (hunique j hp)
        · exact fun hm => absurd (Finset.mem_univ i) hm
    simp only [hcons]
    rw [Finset.sum_add_distrib, hone, ih h.2, List.map_cons, List.sum_cons]

namespace ExportArgs

/-- The export takes the rows of an entry under a tag. -/
def takes (globMatch : Bytes → Bytes → Bool) (args : ExportArgs) (tag : TypeTag) (e : RdbEntry) : Bool :=
  args.typeTags.all (fun tags => decide (tag ∈ tags)) &&
    EntryFilter.matchesEntry globMatch ⟨args.db, none, args.keyPattern, args.heuristics⟩ e

/-- The rows that the export takes of a file, under a tag. -/
def share (globMatch : Bytes → Bytes → Bool) (args : ExportArgs) (r : RdbReader) (tag : TypeTag) :
    List Row :=
  ((entriesOf (Cli.readerItems args r)).filter (args.takes globMatch tag)).flatMap
    (rowsUnder args.heuristics tag)

end ExportArgs

section Rows

variable {globMatch : Bytes → Bytes → Bool} {args : ExportArgs}

/-- For an entry with rows under a requested tag the type filter makes no difference. -/
theorem matchesEntry_of_takes {tag : TypeTag} {e : RdbEntry}
    (htag : ∀ tags, args.typeTags = some tags → tag ∈ tags)
    (hrows : rowsUnder args.heuristics tag e ≠ []) :
    args.filter.matchesEntry globMatch e = args.takes globMatch tag e := by
  have hall : args.typeTags.all (fun tags => decide (tag ∈ tags)) = true := by
    cases ht : args.typeTags with
    | none => rfl
    | some tags => exact decide_eq_true (htag tags ht)
  have htyped : (args.typeTags.any fun tags => !args.filter.matchesAnyType e tags) = false := by
    cases ht : args.typeTags with
    | none => rfl
    | some tags =>
      cases hm : args.filter.matchesAnyType e tags with
      | true => simp [hm]
      | false => exact absurd (rowsUnder_of_not_matches hm (htag tags ht)) hrows
  unfold ExportArgs.takes EntryFilter.matchesEntry
  rw [hall, Bool.true_and]
  have hfilter : args.filter.typeTags = args.typeTags := rfl
  rw [hfilter, htyped]
  rfl

theorem matchesEntry_takes {tag : TypeTag} {e : RdbEntry}
    (h : args.filter.matchesEntry globMatch e = true)
    (htag : ∀ tags, args.typeTags = some tags → tag ∈ tags) : args.takes globMatch tag e = true := by
  have hall : args.typeTags.all (fun tags => decide (tag ∈ tags)) = true := by
    cases ht : args.typeTags with
    | none => rfl
    | some tags => exact decide_eq_true (htag tags ht)
  unfold ExportArgs.takes
  rw [hall, Bool.true_and]
  unfold EntryFilter.matchesEntry at h ⊢
  split at h
  · cases h
  · rename_i hdb
    split at h
    · cases h
    · have hdb' : ¬(args.db.any fun db => e.db != db) = true := hdb
      rw [if_neg hdb']
      exact h

/-- The rows of the entries that an export keeps are those of its share. -/
theorem kept_share (hmax : args.maxEntryBytes = none) (r : RdbReader) {tag : TypeTag}
    (htag : ∀ tags, args.typeTags = some tags → tag ∈ tags) :
    (Cli.keptEntries globMatch args r).flatMap (args.config.taken tag) = args.share globMatch r tag := by
  have hunlimited : args.config.maxEntryBytes = none := hmax
  have hconfig : args.config.taken tag = rowsUnder args.heuristics tag := taken_unlimited hunlimited tag
  rw [hconfig]
  apply flatMap_filter_of_nil
  · intro e _ htakes hno
    by_contra hrows
    rw [matchesEntry_of_takes htag hrows, htakes] at hno
    cases hno
  · exact fun e _ hm => matchesEntry_takes hm htag

theorem share_unrequested (r : RdbReader) {tags : Finset TypeTag} (htags : args.typeTags = some tags)
    {tag : TypeTag} (hnot : tag ∉ tags) : args.share globMatch r tag = [] := by
  have hnone : ∀ e, args.takes globMatch tag e = false := by
    intro e
    unfold ExportArgs.takes
    rw [htags]
    simp [hnot]
  unfold ExportArgs.share
  simp [hnone]

theorem tagRows_unrequested {tags : Finset TypeTag} {tag : TypeTag} (hnot : tag ∉ tags)
    {batches : List TypedBatch} (h : ∀ t ∈ batches, t.tag ∈ tags) : tagRows tag batches = [] := by
  unfold tagRows
  rw [List.flatMap_eq_nil_iff]
  intro t hm
  obtain ⟨hm, heq⟩ := List.mem_filter.mp hm
  exact absurd (beq_iff_eq.mp heq ▸ h t hm) hnot

variable {ε : Type} {tryNew : TryNew ε}

/-- What an export is handed is the first of its share, under every tag. -/
theorem handed_share (ht : TryNewAccepts tryNew) (globMatch : Bytes → Bytes → Bool) {input : Bytes}
    {r : RdbReader} (hr : Reachable input r) (hmax : args.maxEntryBytes = none) (tag : TypeTag) :
    tagRows tag (Cli.handed tryNew globMatch args r) <+: args.share globMatch r tag := by
  obtain ⟨-, htags, hrows⟩ := Cli.handed_leading ht globMatch hr args
  by_cases htag : ∀ tags, args.typeTags = some tags → tag ∈ tags
  · rw [← kept_share hmax r htag]
    exact hrows tag htag
  · simp only [not_forall] at htag
    obtain ⟨tags, hsome, hnot⟩ := htag
    rw [tagRows_unrequested hnot (htags tags hsome)]
    exact List.nil_prefix

theorem handed_share_whole (ht : TryNewAccepts tryNew) {input : Bytes} {r : RdbReader}
    (hr : Reachable input r) (hmax : args.maxEntryBytes = none)
    (hfits : args.config.Fits (Cli.keptEntries globMatch args r))
    (hread : faultsOf (Cli.readerItems args r) = []) (tag : TypeTag) :
    tagRows tag (Cli.handed tryNew globMatch args r) = args.share globMatch r tag := by
  obtain ⟨-, htags, -⟩ := Cli.handed_leading ht globMatch hr args
  by_cases htag : ∀ tags, args.typeTags = some tags → tag ∈ tags
  · rw [(Cli.handed_whole ht hfits hread).2 tag htag, kept_share hmax r htag]
  · simp only [not_forall] at htag
    obtain ⟨tags, hsome, hnot⟩ := htag
    rw [tagRows_unrequested hnot (htags tags hsome), share_unrequested r hsome hnot]

/-- The pieces of a key are taken with it. -/
theorem filter_pieces (limit : Option ℕ+) (tag : TypeTag) (keys : List RdbEntry) :
    (keys.flatMap (·.pieces limit)).filter (args.takes globMatch tag) =
      (keys.filter (args.takes globMatch tag)).flatMap (·.pieces limit) := by
  have hpiece : ∀ e : RdbEntry, ∀ p ∈ e.pieces limit,
      args.takes globMatch tag p = args.takes globMatch tag e := by
    intro e p hp
    unfold RdbEntry.pieces at hp
    cases limit with
    | none =>
      rw [List.mem_singleton.mp hp]
    | some max =>
      dsimp only at hp
      split at hp
      · obtain ⟨i, -, rfl⟩ := List.mem_map.mp hp
        rfl
      · rw [List.mem_singleton.mp hp]
  induction keys with
  | nil => rfl
  | cons e keys ih =>
    rw [List.flatMap_cons, List.filter_append, ih]
    by_cases ht : args.takes globMatch tag e = true
    · have hall : (e.pieces limit).filter (args.takes globMatch tag) = e.pieces limit :=
        List.filter_eq_self.mpr fun p hp => by rw [hpiece e p hp, ht]
      rw [List.filter_cons_of_pos ht, List.flatMap_cons, hall]
    · have hnone : (e.pieces limit).filter (args.takes globMatch tag) = [] :=
        List.filter_eq_nil_iff.mpr fun p hp => by rw [hpiece e p hp]; exact ht
      rw [List.filter_cons_of_neg ht, hnone, List.nil_append]

/-- The share of a file that reads to its end. -/
theorem share_length (globMatch : Bytes → Bytes → Bool) {input : Bytes} {r : RdbReader}
    (hnew : RdbReader.new input = .ok r) (hclean : r.Clean) (tag : TypeTag) :
    (args.share globMatch r tag).length =
      keyCount args.heuristics args.limit tag (r.keys.filter (args.takes globMatch tag)) := by
  obtain ⟨r', hy⟩ := configured_yields hnew hclean args.limit
  have hitems : Cli.readerItems args r = r.withoutChunking.items.1.flatMap (pieceItems args.limit) := by
    unfold Cli.readerItems
    rw [args_reader hnew]
    exact (((Reachable.new hnew).configure args.limit).yields.unique hy).1
  unfold ExportArgs.share
  rw [hitems, entriesOf_pieceItems, filter_pieces]
  exact keyRows_length args.heuristics args.limit tag _

end Rows

end ValkeyRdb
