import ValkeyRdb.Arrow.Batcher
import ValkeyRdb.Arrow.ColumnBytes
import ValkeyRdb.Reader.Iterator

/-!
# Row conservation

At every point of a run the rows emitted under a tag, followed by the rows its builder
holds, are the rows that the pushed entries contribute to the tag. A push returns when the
builders that its entry goes to have room for the rows, and panics otherwise.
-/

namespace ValkeyRdb

open StateAction (run_bind_ok run_bind_error run_get_bind)

def tagRows (tag : TypeTag) (out : List TypedBatch) : List Row :=
  (out.filter fun t => t.tag == tag).flatMap fun t => t.batch.rows

@[simp] theorem tagRows_nil (tag : TypeTag) : tagRows tag [] = [] := rfl

@[simp] theorem tagRows_append (tag : TypeTag) (xs ys : List TypedBatch) :
    tagRows tag (xs ++ ys) = tagRows tag xs ++ tagRows tag ys := by
  simp [tagRows]

@[simp] theorem tagRows_singleton_self (tag : TypeTag) (batch : RecordBatch) :
    tagRows tag [⟨tag, batch⟩] = batch.rows := by
  simp [tagRows]

theorem tagRows_singleton_of_ne {tag other : TypeTag} (batch : RecordBatch) (h : other ≠ tag) :
    tagRows other [⟨tag, batch⟩] = [] := by
  simp [tagRows, Ne.symm h]

/-- A batch that is not empty and has the schema of its tag. -/
def TypedBatch.WellFormed (t : TypedBatch) : Prop :=
  t.batch.rows ≠ [] ∧ t.batch.schema = schemaFor t.tag

theorem tagRows_eq_nil_iff {tag : TypeTag} {out : List TypedBatch} (h : ∀ t ∈ out, t.WellFormed) :
    tagRows tag out = [] ↔ ∀ t ∈ out, t.tag ≠ tag := by
  unfold tagRows
  rw [List.flatMap_eq_nil_iff]
  constructor
  · intro hnil t ht htag
    exact (h t ht).1 (hnil t (by simp [ht, htag]))
  · intro hne t ht
    rw [List.mem_filter] at ht
    exact absurd (by simpa using ht.2) (hne t ht.1)

/-- The rows that the batcher takes over from an entry. -/
def BatcherConfig.taken (config : BatcherConfig) (tag : TypeTag) (entry : RdbEntry) : List Row :=
  if config.oversized entry = true then [] else rowsUnder config.heuristics tag entry

/-- The tags whose builders an entry goes to. -/
def BatcherConfig.feeds (config : BatcherConfig) (entry : RdbEntry) : List TypeTag :=
  match typeTagFor entry with
  | none => []
  | some tag =>
    if config.oversized entry = true then []
    else if shouldEmitGeo config.heuristics tag entry = true then [tag, .geo]
    else [tag]

theorem feeds_eq {config : BatcherConfig} {tag : TypeTag} {entry : RdbEntry}
    (htag : typeTagFor entry = some tag) (hsize : config.oversized entry = false) :
    config.feeds entry =
      if shouldEmitGeo config.heuristics tag entry = true then [tag, .geo] else [tag] := by
  simp [BatcherConfig.feeds, htag, hsize]

/-! ### The invariant -/

namespace ArrowBatcher

def held (b : ArrowBatcher) (tag : TypeTag) : List Row :=
  rowsOf (b.builder tag).len ((b.builder tag).common.columns ++ (b.builder tag).columns)

/-- Every builder is a table of rows of its schema, within its offsets. -/
def Valid (b : ArrowBatcher) : Prop :=
  ∀ tag, (b.builder tag).Holds tag (b.held tag) ∧ (b.builder tag).OffsetsFit

/-- The builders that the entry goes to have room for its rows. -/
def EntryFits (b : ArrowBatcher) (entry : RdbEntry) : Prop :=
  ∀ tag ∈ b.config.feeds entry, (tag.pushed (b.builder tag) entry).OffsetsFit

instance (b : ArrowBatcher) (entry : RdbEntry) : Decidable (b.EntryFits entry) :=
  inferInstanceAs (Decidable (∀ tag ∈ b.config.feeds entry, (tag.pushed (b.builder tag) entry).OffsetsFit))

/-- From `b` to `b'` the rows `added` came in and the batches `out` went out. -/
structure Emits (b : ArrowBatcher) (added : TypeTag → List Row) (out : List TypedBatch)
    (b' : ArrowBatcher) : Prop where
  valid : b'.Valid
  config : b'.config = b.config
  rows : ∀ tag, tagRows tag out ++ b'.held tag = b.held tag ++ added tag
  batches : ∀ t ∈ out, t.WellFormed

theorem held_of_holds {b : ArrowBatcher} {tag : TypeTag} {rows : List Row}
    (h : (b.builder tag).Holds tag rows) : b.held tag = rows := by
  unfold held BatchBuilder.len
  rw [h.len, h.rows_eq]

theorem held_of_builder_eq {b b' : ArrowBatcher} {tag : TypeTag}
    (h : b'.builder tag = b.builder tag) : b'.held tag = b.held tag := by
  unfold held
  rw [h]

theorem valid_setBuilder {b : ArrowBatcher} (hv : b.Valid) {tag : TypeTag} {x : BatchBuilder}
    {rows : List Row} (hx : x.Holds tag rows) (hfit : x.OffsetsFit) :
    (b.setBuilder tag x).Valid ∧ (b.setBuilder tag x).held tag = rows ∧
      ∀ other, other ≠ tag → (b.setBuilder tag x).held other = b.held other := by
  have hself : (b.setBuilder tag x).held tag = rows := by
    apply held_of_holds
    rw [builder_setBuilder_self]
    exact hx
  have hother : ∀ other, other ≠ tag → (b.setBuilder tag x).held other = b.held other :=
    fun other hne => held_of_builder_eq (builder_setBuilder_of_ne b x hne)
  refine ⟨fun other => ?_, hself, hother⟩
  by_cases hne : other = tag
  · subst hne
    rw [hself, builder_setBuilder_self]
    exact ⟨hx, hfit⟩
  · rw [hother other hne, builder_setBuilder_of_ne b x hne]
    exact hv other

theorem new_valid (config : BatcherConfig) : (new config).Valid ∧ ∀ tag, (new config).held tag = [] := by
  have hnil : ∀ tag, (new config).held tag = [] := by
    intro tag
    apply held_of_holds
    rw [new_builder]
    exact newBuilder_holds tag
  refine ⟨fun tag => ?_, hnil⟩
  rw [hnil, new_builder]
  exact ⟨newBuilder_holds tag, (newBuilder_holds tag).offsetsFit⟩

theorem Emits.refl {b : ArrowBatcher} (hv : b.Valid) : b.Emits (fun _ => []) [] b :=
  ⟨hv, rfl, fun tag => by simp, fun t ht => by cases ht⟩

theorem Emits.trans {b b₁ b₂ : ArrowBatcher} {a₁ a₂ : TypeTag → List Row}
    {o₁ o₂ : List TypedBatch} (h₁ : b.Emits a₁ o₁ b₁) (h₂ : b₁.Emits a₂ o₂ b₂) :
    b.Emits (fun tag => a₁ tag ++ a₂ tag) (o₁ ++ o₂) b₂ where
  valid := h₂.valid
  config := h₂.config.trans h₁.config
  rows := by
    intro tag
    calc tagRows tag (o₁ ++ o₂) ++ b₂.held tag
        = tagRows tag o₁ ++ (tagRows tag o₂ ++ b₂.held tag) := by simp
      _ = tagRows tag o₁ ++ b₁.held tag ++ a₂ tag := by rw [h₂.rows, List.append_assoc]
      _ = b.held tag ++ (a₁ tag ++ a₂ tag) := by rw [h₁.rows, List.append_assoc]
  batches := by
    intro t ht
    rcases List.mem_append.mp ht with ht | ht
    · exact h₁.batches t ht
    · exact h₂.batches t ht

/-! ### One operation -/

section Step

variable {ε : Type} {tryNew : TryNew ε}

theorem flushTag_emits (ht : TryNewAccepts tryNew) {b : ArrowBatcher} (hv : b.Valid) (tag : TypeTag)
    (out : List TypedBatch) : ∃ more b', flushTag tryNew tag out b = (.ok (out ++ more), b') ∧
      b.Emits (fun _ => []) more b' ∧ b'.held tag = [] ∧
      ∀ other, b.held other = [] → b'.held other = [] := by
  cases he : (b.builder tag).isEmpty with
  | true =>
    have hlen : (b.builder tag).len = 0 := by simpa [BatchBuilder.isEmpty, BatchBuilder.len] using he
    have hnil : b.held tag = [] := by
      unfold held
      rw [hlen]
      rfl
    refine ⟨[], b, ?_, .refl hv, hnil, fun _ h => h⟩
    unfold flushTag
    rw [if_pos he, List.append_nil]
  | false =>
    obtain ⟨batch, empty, hfinish, hschema, hrows, hempty⟩ := finish_holds ht (hv tag).1
    obtain ⟨hvalid, hself, hother⟩ := valid_setBuilder hv hempty hempty.offsetsFit
    refine ⟨[⟨tag, batch⟩], b.setBuilder tag empty, ?_, ⟨hvalid, by simp, fun other => ?_, ?_⟩,
      hself, fun other hnil => ?_⟩
    · unfold flushTag
      simp [he, hfinish]
    · by_cases hne : other = tag
      · subst hne
        simp [hself, hrows]
      · simp [tagRows_singleton_of_ne batch hne, hother other hne]
    · intro t hm
      rw [List.mem_singleton.mp hm]
      have hlen : (b.held tag).length ≠ 0 := by
        rw [← (hv tag).1.len]
        simpa [BatchBuilder.isEmpty] using he
      refine ⟨?_, hschema⟩
      rw [hrows]
      exact fun hnil => hlen (by rw [hnil]; rfl)
    · by_cases hne : other = tag
      · rw [hne, hself]
      · rw [hother other hne, hnil]

theorem maybeFlushTag_emits (ht : TryNewAccepts tryNew) {b : ArrowBatcher} (hv : b.Valid)
    (tag : TypeTag) (out : List TypedBatch) :
    ∃ more b', maybeFlushTag tryNew tag out b = (.ok (out ++ more), b') ∧
      b.Emits (fun _ => []) more b' := by
  unfold maybeFlushTag
  rw [run_get_bind]
  split
  · obtain ⟨more, b', hrun, hemits, -⟩ := flushTag_emits ht hv tag out
    exact ⟨more, b', hrun, hemits⟩
  · exact ⟨[], b, by rw [List.append_nil]; rfl, .refl hv⟩

theorem Valid.width {b : ArrowBatcher} (hv : b.Valid) (tag : TypeTag) :
    (b.builder tag).columns.length = tag.valueFields.length := (hv tag).1.width

theorem pushTo_ok {b : ArrowBatcher} (hv : b.Valid) {tag : TypeTag} {entry : RdbEntry}
    (hfits : (tag.pushed (b.builder tag) entry).OffsetsFit) :
    (pushTo tag entry : BatcherM ε Unit) b =
      (.ok (), b.setBuilder tag (tag.pushed (b.builder tag) entry)) := by
  unfold pushTo
  rw [(push_fits_or_panics entry (hv.width tag) (hv tag).2).1 hfits]

theorem pushTo_panics {b : ArrowBatcher} (hv : b.Valid) {tag : TypeTag} {entry : RdbEntry}
    (hover : ¬ (tag.pushed (b.builder tag) entry).OffsetsFit) :
    ∃ b', (pushTo tag entry : BatcherM ε Unit) b = (.error (.fault .panic), b') := by
  obtain ⟨x, hx⟩ := (push_fits_or_panics entry (hv.width tag) (hv tag).2).2 hover
  unfold pushTo
  rw [hx]
  exact ⟨_, rfl⟩

theorem pushTo_emits {b : ArrowBatcher} (hv : b.Valid) {tag : TypeTag} {entry : RdbEntry}
    (hfits : (tag.pushed (b.builder tag) entry).OffsetsFit) :
    b.Emits (fun other => if other = tag then tag.entryRows entry else []) []
      (b.setBuilder tag (tag.pushed (b.builder tag) entry)) := by
  obtain ⟨hvalid, hself, hother⟩ := valid_setBuilder hv (pushed_holds (hv tag).1 entry) hfits
  refine ⟨hvalid, by simp, fun other => ?_, fun t hm => by cases hm⟩
  by_cases hne : other = tag
  · subst hne
    simp [hself]
  · simp [hother other hne, hne]

theorem Emits.congr {b b' : ArrowBatcher} {a a' : TypeTag → List Row} {out : List TypedBatch}
    (h : b.Emits a out b') (ha : ∀ tag, a tag = a' tag) : b.Emits a' out b' :=
  ⟨h.valid, h.config, fun tag => by rw [h.rows, ha], h.batches⟩

section Tagged

variable {b : ArrowBatcher} {tag : TypeTag} {entry : RdbEntry}

/-- The builder of `Geo` when its turn comes: the push to the other builder left it alone. -/
theorem builder_geo_after (htag : typeTagFor entry = some tag) (x : BatchBuilder) :
    (b.setBuilder tag x).builder .geo = b.builder .geo := by
  have hgeo : tag ≠ .geo := fun h => typeTagFor_ne_geo entry (h ▸ htag)
  exact builder_setBuilder_of_ne b x (Ne.symm hgeo)

theorem pushTagged_emits (ht : TryNewAccepts tryNew) (hv : b.Valid)
    (htag : typeTagFor entry = some tag) (hsize : b.config.oversized entry = false)
    (hfits : b.EntryFits entry) :
    ∃ out b', pushTagged tryNew tag entry b = (.ok out, b') ∧
      b.Emits (fun other => rowsUnder b.config.heuristics other entry) out b' := by
  have hgeo : tag ≠ .geo := fun h => typeTagFor_ne_geo entry (h ▸ htag)
  unfold EntryFits at hfits
  rw [feeds_eq htag hsize] at hfits
  unfold pushTagged
  cases hg : shouldEmitGeo b.config.heuristics tag entry with
  | false =>
    rw [hg] at hfits
    have hown := hfits tag (by simp)
    have hb₁ := pushTo_emits hv hown
    obtain ⟨more, b₂, hflush, hb₂⟩ := maybeFlushTag_emits ht hb₁.valid tag []
    refine ⟨more, b₂, ?_, (hb₁.trans hb₂).congr fun other => ?_⟩
    · rw [run_bind_ok (pushTo_ok hv hown), run_get_bind, setBuilder_config, hg]
      simp only [Bool.false_eq_true, if_false]
      rw [run_bind_ok hflush]
      rfl
    · by_cases hne : other = tag
      · simp [rowsUnder, htag, hne]
      · simp [rowsUnder, htag, hne, hg]
  | true =>
    rw [hg] at hfits
    have hown := hfits tag (by simp)
    have hgeoFits := hfits .geo (by simp)
    have hb₁ := pushTo_emits hv hown
    rw [← builder_geo_after htag (tag.pushed (b.builder tag) entry)] at hgeoFits
    have hb₂ := pushTo_emits hb₁.valid hgeoFits
    obtain ⟨more, b₃, hflush, hb₃⟩ := maybeFlushTag_emits ht hb₂.valid tag []
    obtain ⟨more', b₄, hflush', hb₄⟩ := maybeFlushTag_emits ht hb₃.valid .geo ([] ++ more)
    refine ⟨[] ++ more ++ more', b₄, ?_,
      (((hb₁.trans hb₂).trans hb₃).trans hb₄).congr fun other => ?_⟩
    · rw [run_bind_ok (pushTo_ok hv hown), run_get_bind, setBuilder_config, hg]
      simp only [if_true]
      rw [run_bind_ok (pushTo_ok hb₁.valid hgeoFits), run_bind_ok hflush]
      exact hflush'
    · by_cases hne : other = tag
      · subst hne
        simp [rowsUnder, htag, hgeo]
      · by_cases hother : other = .geo
        · subst hother
          simp [rowsUnder, htag, hg, Ne.symm hgeo]
        · simp [rowsUnder, htag, hne, hother]

theorem pushTagged_panics (hv : b.Valid) (htag : typeTagFor entry = some tag)
    (hsize : b.config.oversized entry = false) (hover : ¬ b.EntryFits entry) :
    ∃ b', pushTagged tryNew tag entry b = (.error (.fault .panic), b') := by
  unfold EntryFits at hover
  rw [feeds_eq htag hsize] at hover
  unfold pushTagged
  by_cases hown : (tag.pushed (b.builder tag) entry).OffsetsFit
  · have hvalid := (pushTo_emits hv hown).valid
    rw [run_bind_ok (pushTo_ok hv hown), run_get_bind, setBuilder_config]
    cases hg : shouldEmitGeo b.config.heuristics tag entry with
    | false =>
      rw [hg] at hover
      exact absurd (by simpa using hown) hover
    | true =>
      rw [hg] at hover
      have hgeoOver : ¬ (TypeTag.geo.pushed (b.builder .geo) entry).OffsetsFit :=
        fun hgeo => hover (by simpa using ⟨hown, hgeo⟩)
      rw [← builder_geo_after htag (tag.pushed (b.builder tag) entry)] at hgeoOver
      obtain ⟨b', hpanic⟩ := pushTo_panics hvalid hgeoOver
      simp only [if_true]
      exact ⟨b', run_bind_error hpanic⟩
  · obtain ⟨b', hpanic⟩ := pushTo_panics hv hown
    exact ⟨b', run_bind_error hpanic⟩

end Tagged

/-- What one push does: the entry's rows come in, unless it is dropped for its size. -/
theorem push_emits (ht : TryNewAccepts tryNew) {b : ArrowBatcher} (hv : b.Valid)
    {entry : RdbEntry} (hfits : b.EntryFits entry) :
    ∃ out b', push tryNew entry b = (.ok out, b') ∧
      b.Emits (fun tag => b.config.taken tag entry) out b' := by
  obtain ⟨tag, htag⟩ := typeTagFor_isSome entry
  unfold push
  simp only [htag]
  rw [run_get_bind]
  cases ho : b.config.oversized entry with
  | true =>
    refine ⟨[], _, rfl, hv, rfl, fun other => ?_, fun t hm => by cases hm⟩
    simp [BatcherConfig.taken, ho]
    rfl
  | false =>
    obtain ⟨out, b', hrun, hb'⟩ := pushTagged_emits ht hv htag ho hfits
    refine ⟨out, b', hrun, hb'.congr fun other => ?_⟩
    simp [BatcherConfig.taken, ho]

theorem push_panics {b : ArrowBatcher} (hv : b.Valid) {entry : RdbEntry}
    (hover : ¬ b.EntryFits entry) :
    ∃ b', push tryNew entry b = (.error (.fault .panic), b') := by
  obtain ⟨tag, htag⟩ := typeTagFor_isSome entry
  unfold push
  simp only [htag]
  rw [run_get_bind]
  cases ho : b.config.oversized entry with
  | true =>
    have hfeeds : b.config.feeds entry = [] := by simp [BatcherConfig.feeds, htag, ho]
    refine absurd (fun other hother => ?_) hover
    rw [hfeeds] at hother
    cases hother
  | false => exact pushTagged_panics hv htag ho hover

theorem entryFits_of_ok {b b' : ArrowBatcher} (hv : b.Valid) {entry : RdbEntry}
    {out : List TypedBatch} (h : push tryNew entry b = (.ok out, b')) : b.EntryFits entry := by
  by_contra hover
  obtain ⟨b₁, hpanic⟩ := @push_panics _ tryNew _ hv _ hover
  cases h.symm.trans hpanic

theorem flushTags_emits (ht : TryNewAccepts tryNew) (tags : List TypeTag) {b : ArrowBatcher}
    (hv : b.Valid) (out : List TypedBatch) :
    ∃ more b', flushTags tryNew tags out b = (.ok (out ++ more), b') ∧
      b.Emits (fun _ => []) more b' ∧
      ∀ tag, tag ∈ tags ∨ b.held tag = [] → b'.held tag = [] := by
  induction tags generalizing b out with
  | nil =>
    refine ⟨[], b, by rw [List.append_nil]; rfl, .refl hv, fun tag h => ?_⟩
    rcases h with h | h
    · cases h
    · exact h
  | cons tag tags ih =>
    obtain ⟨more, b₁, hflush, hb₁, hself, hother⟩ := flushTag_emits ht hv tag out
    obtain ⟨more', b₂, hrest, hb₂, hempty⟩ := ih hb₁.valid (out ++ more)
    refine ⟨more ++ more', b₂, ?_, hb₁.trans hb₂, fun other h => hempty other ?_⟩
    · unfold flushTags
      rw [run_bind_ok hflush, hrest, List.append_assoc]
    · rcases h with h | h
      · rcases List.mem_cons.mp h with rfl | h
        · exact .inr hself
        · exact .inl h
      · exact .inr (hother other h)

theorem flush_emits (ht : TryNewAccepts tryNew) {b : ArrowBatcher} (hv : b.Valid) :
    ∃ out b', flush tryNew b = (.ok out, b') ∧ b.Emits (fun _ => []) out b' ∧
      ∀ tag, b'.held tag = [] := by
  obtain ⟨out, b', hrun, hb', hempty⟩ := flushTags_emits ht TypeTag.all hv []
  exact ⟨out, b', hrun, hb', fun tag => hempty tag (.inl (TypeTag.mem_all tag))⟩

/-! ### A whole run -/

variable (tryNew) in
/-- The entries pushed in order, and the batches of all the pushes. -/
def pushAll : List RdbEntry → BatcherM ε (List TypedBatch)
  | [] => pure []
  | entry :: entries => do
    let out ← push tryNew entry
    let rest ← pushAll entries
    pure (out ++ rest)

variable (tryNew) in
/-- The entries pushed in order, and a flush at the end. -/
def pushAllAndFlush (entries : List RdbEntry) : BatcherM ε (List TypedBatch) := do
  let out ← pushAll tryNew entries
  let rest ← flush tryNew
  pure (out ++ rest)

variable (tryNew) in
/-- Each entry fits when its turn to be pushed comes. -/
def EachFits : List RdbEntry → ArrowBatcher → Prop
  | [], _ => True
  | entry :: entries, b => b.EntryFits entry ∧ EachFits entries (push tryNew entry b).2

instance decidableEachFits : ∀ (entries : List RdbEntry) (b : ArrowBatcher),
    Decidable (b.EachFits tryNew entries)
  | [], _ => isTrue trivial
  | entry :: entries, b =>
    haveI := decidableEachFits entries (push tryNew entry b).2
    inferInstanceAs (Decidable (b.EntryFits entry ∧ EachFits tryNew entries (push tryNew entry b).2))

theorem pushAll_emits (ht : TryNewAccepts tryNew) (entries : List RdbEntry) {b : ArrowBatcher}
    (hv : b.Valid) (hfits : b.EachFits tryNew entries) :
    ∃ out b', pushAll tryNew entries b = (.ok out, b') ∧
      b.Emits (fun tag => entries.flatMap (b.config.taken tag)) out b' := by
  induction entries generalizing b with
  | nil => exact ⟨[], b, rfl, .refl hv⟩
  | cons entry entries ih =>
    obtain ⟨out, b₁, hpush, hb₁⟩ := push_emits ht hv hfits.1
    have hrestFits := hfits.2
    rw [hpush] at hrestFits
    obtain ⟨rest, b₂, hrest, hb₂⟩ := ih hb₁.valid hrestFits
    refine ⟨out ++ rest, b₂, ?_, (hb₁.trans hb₂).congr fun tag => ?_⟩
    · unfold pushAll
      rw [run_bind_ok hpush, run_bind_ok hrest]
      rfl
    · rw [hb₁.config, List.flatMap_cons]

theorem pushAll_panics (ht : TryNewAccepts tryNew) (entries : List RdbEntry) {b : ArrowBatcher}
    (hv : b.Valid) (hover : ¬ b.EachFits tryNew entries) :
    ∃ b', pushAll tryNew entries b = (.error (.fault .panic), b') := by
  induction entries generalizing b with
  | nil => exact absurd trivial hover
  | cons entry entries ih =>
    unfold pushAll
    by_cases hentry : b.EntryFits entry
    · obtain ⟨out, b₁, hpush, hb₁⟩ := push_emits ht hv hentry
      have hrestOver : ¬ b₁.EachFits tryNew entries := by
        intro hrest
        refine hover ⟨hentry, ?_⟩
        rw [hpush]
        exact hrest
      obtain ⟨b₂, hrest⟩ := ih hb₁.valid hrestOver
      exact ⟨b₂, by rw [run_bind_ok hpush, run_bind_error hrest]⟩
    · obtain ⟨b₁, hpanic⟩ := push_panics hv hentry
      exact ⟨b₁, run_bind_error hpanic⟩

theorem eachFits_of_ok (ht : TryNewAccepts tryNew) {entries : List RdbEntry} {b b' : ArrowBatcher}
    (hv : b.Valid) {out : List TypedBatch} (h : pushAll tryNew entries b = (.ok out, b')) :
    b.EachFits tryNew entries := by
  by_contra hover
  obtain ⟨b₁, hpanic⟩ := pushAll_panics ht entries hv hover
  cases h.symm.trans hpanic

theorem pushAllAndFlush_rows (ht : TryNewAccepts tryNew) {config : BatcherConfig}
    {entries : List RdbEntry} (hfits : (new config).EachFits tryNew entries) :
    ∃ out b', pushAllAndFlush tryNew entries (new config) = (.ok out, b') ∧
      (∀ t ∈ out, t.WellFormed) ∧
      ∀ tag, tagRows tag out = entries.flatMap (config.taken tag) := by
  obtain ⟨hv, hnil⟩ := new_valid config
  obtain ⟨out, b₁, hpush, hb₁⟩ := pushAll_emits ht entries hv hfits
  obtain ⟨rest, b₂, hflush, hb₂, hempty⟩ := flush_emits ht hb₁.valid
  have hall := hb₁.trans hb₂
  refine ⟨out ++ rest, b₂, ?_, hall.batches, fun tag => ?_⟩
  · unfold pushAllAndFlush
    rw [run_bind_ok hpush, run_bind_ok hflush]
    rfl
  · have hrows := hall.rows tag
    have hconfig : (new config).config = config := rfl
    rw [hempty, hnil, hconfig] at hrows
    simpa using hrows

theorem pushAllAndFlush_panics (ht : TryNewAccepts tryNew) {config : BatcherConfig}
    {entries : List RdbEntry} (hover : ¬ (new config).EachFits tryNew entries) :
    ∃ b', pushAllAndFlush tryNew entries (new config) = (.error (.fault .panic), b') := by
  obtain ⟨b', hpanic⟩ := pushAll_panics ht entries (new_valid config).1 hover
  exact ⟨b', run_bind_error hpanic⟩

end Step

end ArrowBatcher

theorem taken_unlimited {config : BatcherConfig} (h : config.maxEntryBytes = none) (tag : TypeTag) :
    config.taken tag = rowsUnder config.heuristics tag := by
  funext entry
  simp [BatcherConfig.taken, BatcherConfig.oversized, h]

open ArrowBatcher in
/-- Nothing is lost, duplicated, reordered or put under another tag, whatever the
thresholds: the rows emitted under a tag are the rows that the entries contribute to it,
in push order. A run that does not return has panicked. -/
theorem row_conservation {ε : Type} (tryNew : TryNew ε) (ht : TryNewAccepts tryNew)
    (config : BatcherConfig) (hmax : config.maxEntryBytes = none) (entries : List RdbEntry) :
    (∀ out b, pushAllAndFlush tryNew entries (new config) = (.ok out, b) →
      (∀ t ∈ out, t.batch.rows ≠ [] ∧ t.batch.schema = schemaFor t.tag) ∧
      (∀ tag, tagRows tag out = entries.flatMap (rowsUnder config.heuristics tag)) ∧
      ∀ other : BatcherConfig, other.maxEntryBytes = none → other.heuristics = config.heuristics →
        ∀ out' b', pushAllAndFlush tryNew entries (new other) = (.ok out', b') →
          ∀ tag, tagRows tag out' = tagRows tag out) ∧
      ∀ e b, pushAllAndFlush tryNew entries (new config) = (.error e, b) → e = .fault .panic := by
  have hreturned : ∀ (config : BatcherConfig) out b,
      pushAllAndFlush tryNew entries (new config) = (.ok out, b) →
      (∀ t ∈ out, t.WellFormed) ∧ ∀ tag, tagRows tag out = entries.flatMap (config.taken tag) := by
    intro config out b hrun
    by_cases hfits : (new config).EachFits tryNew entries
    · obtain ⟨out₁, b₁, hrun₁, hbatches, hrows⟩ := pushAllAndFlush_rows ht hfits
      rw [hrun] at hrun₁
      obtain ⟨hout, -⟩ := Prod.mk.inj hrun₁
      cases hout
      exact ⟨hbatches, hrows⟩
    · obtain ⟨b', hpanic⟩ := pushAllAndFlush_panics ht hfits
      rw [hrun] at hpanic
      cases hpanic
  refine ⟨fun out b hrun => ?_, fun e b hrun => ?_⟩
  · obtain ⟨hbatches, hrows⟩ := hreturned config out b hrun
    refine ⟨hbatches, fun tag => ?_, fun other hother hheuristics out' b' hrun' tag => ?_⟩
    · rw [hrows, taken_unlimited hmax]
    · rw [hrows, (hreturned other out' b' hrun').2, taken_unlimited hmax, taken_unlimited hother,
        hheuristics]
  · by_cases hfits : (new config).EachFits tryNew entries
    · obtain ⟨out, b', hok, -⟩ := pushAllAndFlush_rows ht hfits
      rw [hrun] at hok
      cases hok
    · obtain ⟨b', hpanic⟩ := pushAllAndFlush_panics ht hfits
      rw [hrun] at hpanic
      cases hpanic
      rfl

def letterEntry : RdbEntry :=
  keyEntry 0 rdbTypeList (none, none, none) [107] (.list [[97], [98]]) none none

/-- A list pushed twice: in one batch with the default thresholds, in two with one row. -/
theorem row_conservation_list : ∃ out b out' b',
    ArrowBatcher.pushAllAndFlush checkedTryNew [letterEntry, letterEntry]
      (.new BatcherConfig.default) = (.ok out, b) ∧
    ArrowBatcher.pushAllAndFlush checkedTryNew [letterEntry, letterEntry]
      (.new { BatcherConfig.default with batchSize := 1 }) = (.ok out', b') ∧
    tagRows .list out = TypeTag.list.entryRows letterEntry ++ TypeTag.list.entryRows letterEntry ∧
    tagRows .list out' = tagRows .list out := by
  obtain ⟨out, b, hrun, -⟩ := @ArrowBatcher.pushAllAndFlush_rows _ checkedTryNew checkedTryNew_accepts
    BatcherConfig.default [letterEntry, letterEntry] (by decide +kernel)
  obtain ⟨out', b', hrun', -⟩ := @ArrowBatcher.pushAllAndFlush_rows _ checkedTryNew
    checkedTryNew_accepts { BatcherConfig.default with batchSize := 1 } [letterEntry, letterEntry]
    (by decide +kernel)
  obtain ⟨-, hrows, hother⟩ := (row_conservation checkedTryNew checkedTryNew_accepts
    BatcherConfig.default rfl [letterEntry, letterEntry]).1 out b hrun
  exact ⟨out, b, out', b', hrun, hrun', hrows .list,
    hother { BatcherConfig.default with batchSize := 1 } rfl rfl out' b' hrun' .list⟩

end ValkeyRdb
