import ValkeyRdb.Arrow.Schema
import ValkeyRdb.Lib.LossyText

/-!
# Parquet files by name (io.rs:107-143, export.rs:119-134)

An export names a file by its tag and shard id; `validate` finds the files of a tag again
by their names. A file name is its bytes, which need not be UTF-8.
-/

namespace ValkeyRdb

def asciiBytes (s : String) : Bytes := s.toList.map fun c => UInt8.ofNat c.toNat

/-- schema.rs:123 -/
def TypeTag.asStr : TypeTag → Bytes
  | .string => asciiBytes "string"
  | .list => asciiBytes "list"
  | .set => asciiBytes "set"
  | .sortedSet => asciiBytes "zset"
  | .hash => asciiBytes "hash"
  | .geo => asciiBytes "geo"
  | .hyperLogLog => asciiBytes "hyperloglog"
  | .module => asciiBytes "module"
  | .stream => asciiBytes "stream"

def dot : Bytes := asciiBytes "."

def parquetSuffix : Bytes := asciiBytes ".parquet"

/-- io.rs:107 -/
def shardSuffix : Option Bytes → Bytes
  | some s => dot ++ s
  | none => []

/-- The name of the file that an export to Parquet creates for a tag (export.rs:129). -/
def exportFilename (tag : TypeTag) (shardId : Option Bytes) : Bytes :=
  tag.asStr ++ shardSuffix shardId ++ parquetSuffix

/-- A directory that can be read, by the names of its files in the order of `read_dir`. -/
structure Directory where
  names : List Bytes
  nodup : names.Nodup

/-- io.rs:120, as far as file names go. -/
def findParquetFiles (dir : Directory) (tag : TypeTag) : List Bytes :=
  let base := tag.asStr ++ parquetSuffix
  let isShard (name : Bytes) : Bool :=
    let nameStr := fromUtf8Lossy name
    (tag.asStr ++ dot).isPrefixOf nameStr && parquetSuffix.isSuffixOf nameStr && nameStr != base
  (if base ∈ dir.names then [base] else []) ++ dir.names.filter isShard

/-- A name of the form `tag.parquet` or `tag.<anything>.parquet`. -/
def HasForm (tag : TypeTag) (name : Bytes) : Prop :=
  name = tag.asStr ++ parquetSuffix ∨ ∃ mid, name = tag.asStr ++ dot ++ mid ++ parquetSuffix

/-! ### Prefixes and suffixes of names -/

theorem asStr_ascii (tag : TypeTag) : IsAscii (tag.asStr ++ dot) ∧ IsAscii (tag.asStr ++ parquetSuffix) := by
  unfold IsAscii
  cases tag <;> decide +kernel

theorem parquetSuffix_ascii : IsAscii parquetSuffix := by
  unfold IsAscii
  decide +kernel

theorem tag_unique {tag other : TypeTag} {name : Bytes} (h : tag.asStr ++ dot <+: name)
    (h' : other.asStr ++ dot <+: name) : tag = other := by
  have hcases : ∀ s ∈ TypeTag.all, ∀ t ∈ TypeTag.all, s.asStr ++ dot <+: t.asStr ++ dot → s = t := by
    decide
  rcases List.prefix_or_prefix_of_prefix h h' with hp | hp
  · exact hcases _ (TypeTag.mem_all tag) _ (TypeTag.mem_all other) hp
  · exact (hcases _ (TypeTag.mem_all other) _ (TypeTag.mem_all tag) hp).symm

/-- The dot after a tag is the only overlap of it with the suffix. -/
theorem overlap_eq_dot {tag : TypeTag} {q : Bytes} (hq : q ≠ []) (h : q <:+ tag.asStr ++ dot)
    (h' : q <+: parquetSuffix) : q = dot := by
  have hcases : ∀ t ∈ TypeTag.all, ∀ k ≤ 8, parquetSuffix.take k <:+ t.asStr ++ dot →
      parquetSuffix.take k = [] ∨ parquetSuffix.take k = dot := by
    decide
  have htake : q = parquetSuffix.take q.length := List.prefix_iff_eq_take.mp h'
  have hlen : q.length ≤ 8 := h'.length_le
  have hor := hcases tag (TypeTag.mem_all tag) q.length hlen (htake ▸ h)
  rw [← htake] at hor
  exact hor.resolve_left hq

theorem hasForm_of_affixes {tag : TypeTag} {name : Bytes} (hp : tag.asStr ++ dot <+: name)
    (hs : parquetSuffix <:+ name) : HasForm tag name := by
  obtain ⟨rest, rfl⟩ := hp
  have hrest : rest <:+ tag.asStr ++ dot ++ rest := List.suffix_append _ _
  rcases List.suffix_or_suffix_of_suffix hs hrest with h | h
  · obtain ⟨mid, rfl⟩ := h
    exact .inr ⟨mid, (List.append_assoc _ _ _).symm⟩
  · -- the suffix begins before the rest does, so they share the dot
    obtain ⟨q, hq⟩ := h
    by_cases hnil : q = []
    · rw [hnil, List.nil_append] at hq
      exact .inr ⟨[], by rw [hq, List.append_nil]⟩
    · obtain ⟨t, ht⟩ := hs
      rw [← hq, ← List.append_assoc] at ht
      have hsuffix : q <:+ tag.asStr ++ dot := ⟨t, List.append_cancel_right ht⟩
      have hdot : q = dot := overlap_eq_dot hnil hsuffix ⟨rest, hq⟩
      rw [hdot] at hq
      exact .inl (by rw [List.append_assoc, hq])

/-! ### What the search finds -/

theorem mem_findParquetFiles {dir : Directory} {tag : TypeTag} {name : Bytes} :
    name ∈ findParquetFiles dir tag ↔ name ∈ dir.names ∧ HasForm tag name := by
  have hlossy := lossy_fromUtf8Lossy name
  have hshard : ((tag.asStr ++ dot).isPrefixOf (fromUtf8Lossy name) &&
      parquetSuffix.isSuffixOf (fromUtf8Lossy name) &&
        fromUtf8Lossy name != tag.asStr ++ parquetSuffix) = true ↔
      tag.asStr ++ dot <+: name ∧ parquetSuffix <:+ name ∧ name ≠ tag.asStr ++ parquetSuffix := by
    rw [Bool.and_eq_true, Bool.and_eq_true, List.isPrefixOf_iff_prefix, List.isSuffixOf_iff_suffix,
      bne_iff_ne, ne_eq, ← hlossy.prefix_iff (asStr_ascii tag).1,
      ← hlossy.suffix_iff parquetSuffix_ascii, ← hlossy.eq_iff (asStr_ascii tag).2, and_assoc]
  unfold findParquetFiles
  simp only [List.mem_append, List.mem_filter, hshard]
  constructor
  · rintro (hbase | ⟨hmem, hp, hs, -⟩)
    · split at hbase
      · rename_i hmem
        obtain rfl := List.mem_singleton.mp hbase
        exact ⟨hmem, .inl rfl⟩
      · cases hbase
    · exact ⟨hmem, hasForm_of_affixes hp hs⟩
  · rintro ⟨hmem, hform⟩
    by_cases hbase : name = tag.asStr ++ parquetSuffix
    · subst hbase
      exact .inl (by rw [if_pos hmem]; exact List.mem_singleton_self _)
    · obtain ⟨mid, rfl⟩ := hform.resolve_left hbase
      refine .inr ⟨hmem, ?_, List.suffix_append _ _, hbase⟩
      rw [List.append_assoc]
      exact List.prefix_append _ _

theorem findParquetFiles_nodup (dir : Directory) (tag : TypeTag) :
    (findParquetFiles dir tag).Nodup := by
  have hlossy := lossy_fromUtf8Lossy (tag.asStr ++ parquetSuffix)
  have hbase : fromUtf8Lossy (tag.asStr ++ parquetSuffix) = tag.asStr ++ parquetSuffix :=
    (hlossy.eq_iff (asStr_ascii tag).2).mp rfl
  unfold findParquetFiles
  refine List.Nodup.append ?_ (dir.nodup.filter _) ?_
  · split
    · exact List.nodup_singleton _
    · exact List.nodup_nil
  · intro name hname hshard
    split at hname
    · obtain rfl := List.mem_singleton.mp hname
      simp [hbase] at hshard
    · cases hname

/-! ### The files of an export -/

theorem prefix_exportFilename (tag : TypeTag) (shardId : Option Bytes) :
    tag.asStr ++ dot <+: exportFilename tag shardId := by
  unfold exportFilename
  cases shardId with
  | none => exact ⟨asciiBytes "parquet", by cases tag <;> decide⟩
  | some s =>
    rw [shardSuffix, ← List.append_assoc, List.append_assoc]
    exact List.prefix_append _ _

theorem exportFilename_hasForm (tag : TypeTag) (shardId : Option Bytes) :
    HasForm tag (exportFilename tag shardId) := by
  cases shardId with
  | none => exact .inl (by rw [exportFilename, shardSuffix, List.append_nil])
  | some s => exact .inr ⟨s, by rw [exportFilename, shardSuffix, ← List.append_assoc]⟩

theorem tag_of_hasForm {tag other : TypeTag} {shardId : Option Bytes}
    (h : HasForm tag (exportFilename other shardId)) : tag = other := by
  refine tag_unique ?_ (prefix_exportFilename other shardId)
  rcases h with h | ⟨mid, h⟩
  · rw [h]
    exact (prefix_exportFilename tag none).trans (by rw [exportFilename, shardSuffix, List.append_nil])
  · rw [h, List.append_assoc]
    exact List.prefix_append _ _

theorem exportFilename_injective (tag : TypeTag) : Function.Injective (exportFilename tag) := by
  intro s s' h
  have hsuffix : shardSuffix s = shardSuffix s' :=
    List.append_cancel_left (List.append_cancel_right h)
  cases s with
  | none =>
    cases s' with
    | none => rfl
    | some id' => cases hsuffix
  | some id =>
    cases s' with
    | none => cases hsuffix
    | some id' => rw [List.append_cancel_left hsuffix]

/-- In a directory with exported files of any tags and shard ids, and others whose names
have the form of no tag, the search for a tag finds the files exported for it, each once. -/
theorem parquet_files_exact (dir : Directory) (exported : List (TypeTag × Option Bytes))
    (others : List Bytes) (hothers : ∀ name ∈ others, ∀ tag, ¬ HasForm tag name)
    (hdir : ∀ name, name ∈ dir.names ↔
      name ∈ others ∨ ∃ file ∈ exported, name = exportFilename file.1 file.2) (tag : TypeTag) :
    (findParquetFiles dir tag).Nodup ∧
    (∀ name, name ∈ findParquetFiles dir tag ↔
      ∃ shardId, (tag, shardId) ∈ exported ∧ name = exportFilename tag shardId) ∧
    Function.Injective (exportFilename tag) := by
  refine ⟨findParquetFiles_nodup dir tag, fun name => ?_, exportFilename_injective tag⟩
  rw [mem_findParquetFiles, hdir]
  constructor
  · rintro ⟨hother | ⟨⟨other, shardId⟩, hmem, rfl⟩, hform⟩
    · exact absurd hform (hothers name hother tag)
    · obtain rfl := tag_of_hasForm hform
      exact ⟨shardId, hmem, rfl⟩
  · rintro ⟨shardId, hmem, rfl⟩
    exact ⟨.inr ⟨(tag, shardId), hmem, rfl⟩, exportFilename_hasForm tag shardId⟩

/-- "zset.parquet", "set.parquet", "set.zset.parquet", "set.parquet.parquet" and a note. -/
def sampleDirectory : Directory where
  names := [exportFilename .sortedSet none, exportFilename .set none, asciiBytes "notes.txt",
    exportFilename .set (some (asciiBytes "zset")), exportFilename .set (some (asciiBytes "parquet"))]
  nodup := by decide

theorem parquet_files_exact_set : exportFilename .set (some (asciiBytes "parquet")) ∈
    findParquetFiles sampleDirectory .set := by
  have hothers : ∀ name ∈ [asciiBytes "notes.txt"], ∀ tag, ¬ HasForm tag name := by
    intro name hname tag hform
    obtain rfl := List.mem_singleton.mp hname
    have hsuffix : parquetSuffix <:+ asciiBytes "notes.txt" := by
      rcases hform with h | ⟨mid, h⟩ <;> rw [h] <;> exact List.suffix_append _ _
    exact absurd hsuffix (by decide)
  obtain ⟨-, hmem, -⟩ := parquet_files_exact sampleDirectory
    [(.sortedSet, none), (.set, none), (.set, some (asciiBytes "zset")),
      (.set, some (asciiBytes "parquet"))] [asciiBytes "notes.txt"] hothers
    (by intro name; simp [sampleDirectory]; tauto) .set
  exact (hmem _).mpr ⟨_, by simp, rfl⟩

end ValkeyRdb
