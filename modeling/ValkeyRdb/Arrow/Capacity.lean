import ValkeyRdb.Arrow.Thresholds

/-!
# What the builders have room for

The builder of a tag holds the entries that went to it since they last reached a threshold
together, its open group. So the configuration and the entries alone say whether all the
pushes of a run return: in each column the open group and the next entry have to stay
within the offsets.
-/

namespace ValkeyRdb

open ArrowBatcher (EachFits)

/-! ### Groups of entries -/

def groupRows (group : List RdbEntry) : Nat := (group.map expectedRowCount).sum

namespace TypeTag

def groupAccounted (tag : TypeTag) (group : List RdbEntry) : Nat := (group.map tag.accounted).sum

/-- The bytes of some entries in the column of a tag at place `i`. -/
def groupBytes (tag : TypeTag) (group : List RdbEntry) (i : Nat) : Nat :=
  (group.map fun entry => (tag.addedBytes entry).getD i 0).sum

/-- The builder of a tag after the pushes of some entries, whatever its offsets can say. -/
def after (tag : TypeTag) (group : List RdbEntry) : BatchBuilder :=
  group.foldl tag.pushed tag.newBuilder

end TypeTag

namespace BatcherConfig

/-- Some entries together reach a threshold. -/
def Reached (config : BatcherConfig) (tag : TypeTag) (group : List RdbEntry) : Prop :=
  config.batchSize ≤ groupRows group ∨
    (config.batchBytes.any fun max => decide (max ≤ tag.groupAccounted group)) = true

instance (config : BatcherConfig) (tag : TypeTag) (group : List RdbEntry) :
    Decidable (config.Reached tag group) :=
  inferInstanceAs (Decidable (_ ∨ _))

/-- The open group of a tag after one more entry. -/
def extend (config : BatcherConfig) (tag : TypeTag) (group : List RdbEntry) (entry : RdbEntry) :
    List RdbEntry :=
  if tag ∈ config.feeds entry then
    if config.Reached tag (group ++ [entry]) then [] else group ++ [entry]
  else group

/-- The entries that went to a tag since they last reached a threshold together. -/
def openGroup (config : BatcherConfig) (tag : TypeTag) (entries : List RdbEntry) : List RdbEntry :=
  entries.foldl (config.extend tag) []

/-- In each column of each builder that an entry goes to, the open group and the entry are
together within the offsets. -/
def Fits (config : BatcherConfig) (entries : List RdbEntry) : Prop :=
  ∀ before entry, before ++ [entry] <+: entries → ∀ tag ∈ config.feeds entry, ∀ i,
    tag.groupBytes (config.openGroup tag before ++ [entry]) i ≤ maxOffset

variable {config : BatcherConfig}

theorem Fits.of_isPrefix {entries entries' : List RdbEntry} (h : config.Fits entries)
    (hsub : entries' <+: entries) : config.Fits entries' :=
  fun before entry hb => h before entry (hb.trans hsub)

end BatcherConfig

/-- When every entry reaches a threshold on its own, no group stays open. -/
theorem openGroup_eq_nil {config : BatcherConfig} {tag : TypeTag} {entries : List RdbEntry}
    (h : ∀ entry ∈ entries, tag ∈ config.feeds entry → config.Reached tag [entry]) :
    config.openGroup tag entries = [] := by
  induction entries using List.reverseRecOn with
  | nil => rfl
  | append_singleton entries entry ih =>
    have hrest := ih fun e he => h e (List.mem_append_left _ he)
    rw [BatcherConfig.openGroup, List.foldl_append]
    change config.extend tag (config.openGroup tag entries) entry = []
    rw [hrest]
    unfold BatcherConfig.extend
    split
    · rename_i htag
      exact if_pos (h entry (by simp) htag)
    · rfl

theorem fits_of_reached {config : BatcherConfig} {entries : List RdbEntry}
    (h : ∀ entry ∈ entries, ∀ tag ∈ config.feeds entry,
      config.Reached tag [entry] ∧ ∀ x ∈ tag.addedBytes entry, x ≤ maxOffset) :
    config.Fits entries := by
  intro before entry hb tag htag i
  have hsub : ∀ e ∈ before ++ [entry], e ∈ entries := fun e he => hb.subset he
  have hopen : config.openGroup tag before = [] :=
    openGroup_eq_nil fun e he hfed => (h e (hsub e (by simp [he])) tag hfed).1
  have hadded := (h entry (hsub entry (by simp)) tag htag).2
  rw [hopen, List.nil_append, TypeTag.groupBytes, List.map_singleton, List.sum_singleton]
  rcases Nat.lt_or_ge i (tag.addedBytes entry).length with hi | hi
  · rw [List.getD_eq_getElem _ _ hi]
    exact hadded _ (List.getElem_mem hi)
  · rw [List.getD_eq_default _ _ hi]
    exact Nat.zero_le _

theorem forall_snoc_prefix_cons {α : Type} {P : List α → α → Prop} {y : α} {ys : List α} :
    (∀ before x, before ++ [x] <+: y :: ys → P before x) ↔
      P [] y ∧ ∀ before x, before ++ [x] <+: ys → P (y :: before) x := by
  constructor
  · intro h
    exact ⟨h [] y (by simp), fun before x hb => h (y :: before) x (by simpa using hb)⟩
  · rintro ⟨hfirst, hrest⟩ before x hb
    cases before with
    | nil =>
      obtain ⟨rfl, -⟩ := List.cons_prefix_cons.mp hb
      exact hfirst
    | cons z before =>
      obtain ⟨rfl, htail⟩ := List.cons_prefix_cons.mp hb
      exact hrest before x htail

theorem feeds_rows {config : BatcherConfig} {entry : RdbEntry} {tag : TypeTag}
    (h : tag ∈ config.feeds entry) : (tag.entryRows entry).length = expectedRowCount entry := by
  obtain ⟨primary, hprimary⟩ := typeTagFor_isSome entry
  simp only [BatcherConfig.feeds, hprimary] at h
  split at h
  · cases h
  split at h
  · rename_i hgeo
    rcases List.mem_pair.mp h with rfl | rfl
    · exact entryRows_length hprimary
    · exact entryRows_geo_length (shouldEmitGeo_iff.mp hgeo).2.2
  · obtain rfl := List.mem_singleton.mp h
    exact entryRows_length hprimary

/-! ### The builder of a group -/

section After

variable {config : BatcherConfig} {tag : TypeTag} {group : List RdbEntry}

theorem after_append (tag : TypeTag) (group : List RdbEntry) (entry : RdbEntry) :
    tag.after (group ++ [entry]) = tag.pushed (tag.after group) entry := by
  rw [TypeTag.after, List.foldl_append]
  rfl

theorem after_holds (tag : TypeTag) (group : List RdbEntry) :
    (tag.after group).Holds tag (group.flatMap tag.entryRows) := by
  induction group using List.reverseRecOn with
  | nil => exact newBuilder_holds tag
  | append_singleton group entry ih =>
    rw [after_append, List.flatMap_append]
    simpa using pushed_holds ih entry

theorem after_len (hg : ∀ entry ∈ group, tag ∈ config.feeds entry) :
    (tag.after group).len = groupRows group := by
  have hrows := (after_holds tag group).len
  rw [List.length_flatMap] at hrows
  exact hrows.trans (congrArg List.sum (List.map_congr_left fun entry he => feeds_rows (hg entry he)))

theorem after_dataBytes (tag : TypeTag) (group : List RdbEntry) :
    (tag.after group).dataBytes = tag.groupAccounted group := by
  induction group using List.reverseRecOn with
  | nil => cases tag <;> rfl
  | append_singleton group entry ih =>
    rw [after_append, pushed_dataBytes, ih]
    simp [TypeTag.groupAccounted]

theorem after_bytesAt (hg : ∀ entry ∈ group, tag ∈ config.feeds entry) (i : Nat) :
    (tag.after group).bytesAt i = tag.groupBytes group i := by
  induction group using List.reverseRecOn with
  | nil =>
    have hempty : tag.newBuilder.allColumns.getD i [] = [] := by
      have hcols : tag.newBuilder.allColumns = List.replicate (8 + tag.valueFields.length) [] := by
        cases tag <;> rfl
      rw [hcols, List.getD_eq_getElem?_getD, List.getElem?_replicate]
      split <;> rfl
    exact congrArg columnBytes hempty
  | append_singleton group entry ih =>
    have hg' : ∀ e ∈ group, tag ∈ config.feeds e := fun e he => hg e (by simp [he])
    have hentry := feeds_rows (hg entry (by simp))
    rw [after_append, pushed_bytesAt entry (after_holds tag group).width hentry, ih hg']
    simp [TypeTag.groupBytes]

theorem after_fits_iff (hg : ∀ entry ∈ group, tag ∈ config.feeds entry) :
    (tag.after group).OffsetsFit ↔ ∀ i, tag.groupBytes group i ≤ maxOffset := by
  rw [BatchBuilder.offsetsFit_iff]
  exact forall_congr' fun i => by rw [after_bytesAt hg]

theorem reached_after_iff (hg : ∀ entry ∈ group, tag ∈ config.feeds entry) :
    config.Reached tag group ↔ ¬ (tag.after group).Below config := by
  rw [← reached_iff, after_len hg, after_dataBytes]
  rfl

end After

/-! ### Runs -/

namespace ArrowBatcher

/-- The builders hold these groups of entries. -/
structure Grouped (b : ArrowBatcher) (groups : TypeTag → List RdbEntry) : Prop where
  builder : ∀ tag, b.builder tag = tag.after (groups tag)
  fed : ∀ tag, ∀ entry ∈ groups tag, tag ∈ b.config.feeds entry

section Run

variable {ε : Type} {tryNew : TryNew ε} {b : ArrowBatcher} {groups : TypeTag → List RdbEntry}
  {entry : RdbEntry}

theorem new_grouped (config : BatcherConfig) : (new config).Grouped fun _ => [] :=
  ⟨new_builder config, fun _ _ h => by cases h⟩

theorem Grouped.fed_snoc (h : b.Grouped groups) {tag : TypeTag} (htag : tag ∈ b.config.feeds entry) :
    ∀ e ∈ groups tag ++ [entry], tag ∈ b.config.feeds e := by
  intro e he
  rcases List.mem_append.mp he with he | he
  · exact h.fed tag e he
  · rw [List.mem_singleton.mp he]
    exact htag

theorem Grouped.entryFits_iff (h : b.Grouped groups) :
    b.EntryFits entry ↔
      ∀ tag ∈ b.config.feeds entry, ∀ i, tag.groupBytes (groups tag ++ [entry]) i ≤ maxOffset := by
  unfold EntryFits
  refine forall₂_congr fun tag htag => ?_
  rw [h.builder, ← after_append, after_fits_iff (h.fed_snoc htag)]

theorem Settles.after {config : BatcherConfig} {tag : TypeTag} {group : List RdbEntry}
    {rows : List Row} {out : List TypedBatch} {x' : BatchBuilder}
    (hg : ∀ e ∈ group, tag ∈ config.feeds e)
    (h : Settles config tag (tag.after group) rows out x') :
    x' = tag.after (if config.Reached tag group then [] else group) := by
  rw [apply_ite tag.after]
  cases h with
  | keep hbelow =>
    rw [if_neg fun hreached => (reached_after_iff hg).mp hreached hbelow]
  | flush hfull =>
    rw [if_pos ((reached_after_iff hg).mpr hfull)]
    rfl

theorem Pushed.grouped {b' : ArrowBatcher} {out : List TypedBatch} (h : b.Grouped groups)
    (hpushed : b.Pushed entry out b') :
    b'.Grouped fun tag => b.config.extend tag (groups tag) entry := by
  constructor
  · intro tag
    unfold BatcherConfig.extend
    by_cases htag : tag ∈ b.config.feeds entry
    · have hsettles := hpushed.fed tag htag
      rw [h.builder, ← after_append] at hsettles
      rw [if_pos htag]
      exact hsettles.after (h.fed_snoc htag)
    · rw [if_neg htag, (hpushed.others tag htag).1]
      exact h.builder tag
  · intro tag e he
    rw [hpushed.config]
    unfold BatcherConfig.extend at he
    split at he
    · rename_i htag
      split at he
      · cases he
      · exact h.fed_snoc htag e he
    · exact h.fed tag e he

theorem Grouped.eachFits_iff (ht : TryNewAccepts tryNew) (entries : List RdbEntry) (hv : b.Valid)
    (h : b.Grouped groups) :
    b.EachFits tryNew entries ↔
      ∀ before entry, before ++ [entry] <+: entries → ∀ tag ∈ b.config.feeds entry, ∀ i,
        tag.groupBytes (before.foldl (b.config.extend tag) (groups tag) ++ [entry]) i ≤ maxOffset := by
  induction entries generalizing b groups with
  | nil =>
    refine iff_of_true trivial fun before entry hb => ?_
    have hnil := List.prefix_nil.mp hb
    simp at hnil
  | cons entry entries ih =>
    rw [forall_snoc_prefix_cons]
    unfold EachFits
    rw [h.entryFits_iff]
    refine and_congr_right fun hentry => ?_
    obtain ⟨out, b', hpush, hv', hpushed⟩ := push_pushed ht hv (h.entryFits_iff.mpr hentry)
    rw [hpush]
    have hrest := ih hv' (hpushed.grouped h)
    rw [hpushed.config] at hrest
    exact hrest

end Run

end ArrowBatcher

/-- A run from a fresh batcher returns as far as the configuration and the entries fit. -/
theorem eachFits_iff_fits {ε : Type} {tryNew : TryNew ε} (ht : TryNewAccepts tryNew)
    (config : BatcherConfig) (entries : List RdbEntry) :
    (ArrowBatcher.new config).EachFits tryNew entries ↔ config.Fits entries :=
  (ArrowBatcher.new_grouped config).eachFits_iff ht entries (ArrowBatcher.new_valid config).1

/-! ### A key that is too long for four elements -/

def fourEntry (key : Bytes) : RdbEntry :=
  ⟨0, key, .list [[], [], [], []], rdbTypeList, none, none, none, none, none⟩

theorem fourEntry_feeds {config : BatcherConfig} (hmax : config.maxEntryBytes = none) (key : Bytes) :
    config.feeds (fourEntry key) = [.list] := by
  simp [BatcherConfig.feeds, fourEntry, typeTagFor, BatcherConfig.oversized, hmax, shouldEmitGeo]

theorem fourEntry_addedBytes (key : Bytes) :
    (TypeTag.list.addedBytes (fourEntry key)).getD 1 0 = 4 * key.length := rfl

/-- A key of the longest length that the reader takes. -/
def wideKey : Bytes := List.replicate maxAllocBytes 107

/-- Whatever the thresholds, no entry can come after four rows with that key. -/
theorem wideEntry_overflows {config : BatcherConfig} (hmax : config.maxEntryBytes = none)
    (entries : List RdbEntry) : ¬ config.Fits (fourEntry wideKey :: entries) := by
  intro hfits
  have hle := hfits [] (fourEntry wideKey) (by simp) .list (by simp [fourEntry_feeds hmax]) 1
  have hbytes : TypeTag.list.groupBytes (config.openGroup .list [] ++ [fourEntry wideKey]) 1 =
      4 * wideKey.length := by
    change TypeTag.list.groupBytes [fourEntry wideKey] 1 = _
    rw [TypeTag.groupBytes, List.map_singleton, fourEntry_addedBytes, List.sum_singleton]
  have hlong : maxOffset < 4 * wideKey.length := by
    rw [wideKey, List.length_replicate]
    decide
  omega

end ValkeyRdb
