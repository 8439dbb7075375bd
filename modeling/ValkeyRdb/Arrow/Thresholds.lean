import ValkeyRdb.Arrow.BuilderRun
import ValkeyRdb.Arrow.Conservation

/-!
# The flush thresholds (batcher.rs:176-262)

Between two pushes every builder is below both thresholds: a push that returns touches one
builder or two, and each of them is flushed when it has reached a threshold.
-/

namespace ValkeyRdb

open StateAction (run_bind_ok run_get_bind)

/-- Fewer rows and fewer accounted bytes than the thresholds. -/
def BatchBuilder.Below (config : BatcherConfig) (x : BatchBuilder) : Prop :=
  x.len < config.batchSize ∧ ∀ max, config.batchBytes = some max → x.dataBytes < max

def BatcherConfig.Positive (config : BatcherConfig) : Prop :=
  0 < config.batchSize ∧ ∀ max, config.batchBytes = some max → 0 < max

theorem BatcherConfig.Positive.below {config : BatcherConfig} (h : config.Positive)
    (tag : TypeTag) : tag.newBuilder.Below config := by
  have hlen : tag.newBuilder.len = 0 := by cases tag <;> rfl
  have hbytes : tag.newBuilder.dataBytes = 0 := by cases tag <;> rfl
  refine ⟨?_, fun max hmax => ?_⟩
  · rw [hlen]
    exact h.1
  · rw [hbytes]
    exact h.2 max hmax

/-- The test of `maybe_flush_tag`. -/
theorem reached_iff {config : BatcherConfig} {x : BatchBuilder} :
    (config.batchSize ≤ x.len ∨
      (config.batchBytes.any fun max => decide (max ≤ x.dataBytes)) = true) ↔ ¬ x.Below config := by
  unfold BatchBuilder.Below
  cases config.batchBytes with
  | none => simp
  | some max =>
    simp only [Option.any_some, decide_eq_true_eq, Option.some.injEq, forall_eq', not_and_or,
      Nat.not_lt]

namespace ArrowBatcher

theorem setBuilder_builder (b : ArrowBatcher) (tag : TypeTag) :
    b.setBuilder tag (b.builder tag) = b := by
  cases tag <;> rfl

/-- What the check of one builder comes to: `x` stays as it is, or it has reached a
threshold and all its rows go out in one batch. -/
inductive Settles (config : BatcherConfig) (tag : TypeTag) (x : BatchBuilder) (rows : List Row) :
    List TypedBatch → BatchBuilder → Prop where
  | keep (h : x.Below config) : Settles config tag x rows [] x
  | flush (h : ¬ x.Below config) (batch : RecordBatch) (hrows : batch.rows = rows) :
      Settles config tag x rows [⟨tag, batch⟩] tag.newBuilder

section Step

variable {ε : Type} {tryNew : TryNew ε}

theorem maybeFlushTag_settles (ht : TryNewAccepts tryNew) {b : ArrowBatcher} {tag : TypeTag}
    {x : BatchBuilder} (hb : b.builder tag = x) {rows : List Row} (hx : x.Holds tag rows)
    (hlen : x.len ≠ 0) (out : List TypedBatch) :
    ∃ more x', maybeFlushTag tryNew tag out b = (.ok (out ++ more), b.setBuilder tag x') ∧
      Settles b.config tag x rows more x' := by
  unfold maybeFlushTag
  rw [run_get_bind, hb]
  split
  · rename_i hreached
    obtain ⟨batch, empty, hfinish, -, hrows, -⟩ := finish_holds ht hx
    have hempty : empty = tag.newBuilder := by
      rw [← finish_eq_new tryNew hx, hfinish]
    subst hempty
    have hsome : x.isEmpty = false := by simpa [BatchBuilder.isEmpty, BatchBuilder.len] using hlen
    refine ⟨[⟨tag, batch⟩], tag.newBuilder, ?_, .flush (reached_iff.mp hreached) batch hrows⟩
    unfold flushTag
    simp [hb, hsome, hfinish]
  · rename_i hreached
    have hbelow : x.Below b.config := by
      by_contra hfull
      exact hreached (reached_iff.mpr hfull)
    refine ⟨[], x, ?_, .keep hbelow⟩
    rw [← hb, setBuilder_builder, List.append_nil]
    rfl

/-- What a push does to the builders: those that the entry feeds take its rows and settle,
the others stay as they are. -/
structure Pushed (b : ArrowBatcher) (entry : RdbEntry) (out : List TypedBatch)
    (b' : ArrowBatcher) : Prop where
  config : b'.config = b.config
  fed : ∀ tag ∈ b.config.feeds entry, Settles b.config tag (tag.pushed (b.builder tag) entry)
    (b.held tag ++ tag.entryRows entry) (out.filter fun t => t.tag == tag) (b'.builder tag)
  others : ∀ tag, tag ∉ b.config.feeds entry →
    b'.builder tag = b.builder tag ∧ (out.filter fun t => t.tag == tag) = []

theorem Settles.filter_self {config : BatcherConfig} {tag : TypeTag} {x x' : BatchBuilder}
    {rows : List Row} {out : List TypedBatch} (h : Settles config tag x rows out x') :
    (out.filter fun t => t.tag == tag) = out := by
  cases h with
  | keep => rfl
  | flush => simp

theorem Settles.filter_of_ne {config : BatcherConfig} {tag other : TypeTag} {x x' : BatchBuilder}
    {rows : List Row} {out : List TypedBatch} (h : Settles config tag x rows out x')
    (hne : other ≠ tag) : (out.filter fun t => t.tag == other) = [] := by
  cases h with
  | keep => rfl
  | flush => simp [hne.symm]

theorem pushed_len_ne_zero {tag : TypeTag} {entry : RdbEntry} (x : BatchBuilder) {rows : List Row}
    (hx : x.Holds tag rows) (hne : tag.entryRows entry ≠ []) : (tag.pushed x entry).len ≠ 0 := by
  have hlen := (pushed_holds hx entry).len
  have hpos := List.length_pos_of_ne_nil hne
  rw [List.length_append] at hlen
  unfold BatchBuilder.len
  omega

theorem geo_entryRows_ne_nil {heuristics : Finset Heuristic} {tag : TypeTag} {entry : RdbEntry}
    (hg : shouldEmitGeo heuristics tag entry = true) : TypeTag.geo.entryRows entry ≠ [] := by
  have hpos := expectedRowCount_pos entry
  rw [← entryRows_geo_length (shouldEmitGeo_iff.mp hg).2.2] at hpos
  exact List.ne_nil_of_length_pos hpos

section Tagged

variable {b : ArrowBatcher} {tag : TypeTag} {entry : RdbEntry}

theorem pushTagged_own (ht : TryNewAccepts tryNew) (hv : b.Valid)
    (htag : typeTagFor entry = some tag) (hsize : b.config.oversized entry = false)
    (hg : shouldEmitGeo b.config.heuristics tag entry = false) (hfits : b.EntryFits entry) :
    ∃ out b', pushTagged tryNew tag entry b = (.ok out, b') ∧ b.Pushed entry out b' := by
  have hfeeds : b.config.feeds entry = [tag] := by simp [feeds_eq htag hsize, hg]
  have hpush := pushTo_ok (ε := ε) hv (hfits tag (by simp [hfeeds]))
  obtain ⟨more, x', hflush, hsettles⟩ :=
    maybeFlushTag_settles ht (builder_setBuilder_self b tag (tag.pushed (b.builder tag) entry))
      (pushed_holds (hv tag).1 entry) (pushed_len_ne_zero _ (hv tag).1 (entryRows_ne_nil htag)) []
  rw [setBuilder_config] at hsettles
  refine ⟨more, (b.setBuilder tag (tag.pushed (b.builder tag) entry)).setBuilder tag x', ?_,
    by simp, fun other ho => ?_, fun other ho => ?_⟩
  · unfold pushTagged
    rw [run_bind_ok hpush, run_get_bind, setBuilder_config, hg]
    simp only [Bool.false_eq_true, if_false]
    rw [run_bind_ok hflush]
    rfl
  · rw [hfeeds] at ho
    obtain rfl : other = tag := by simpa using ho
    rw [hsettles.filter_self, builder_setBuilder_self]
    exact hsettles
  · rw [hfeeds] at ho
    have hne : other ≠ tag := by simpa using ho
    refine ⟨?_, hsettles.filter_of_ne hne⟩
    rw [builder_setBuilder_of_ne _ _ hne, builder_setBuilder_of_ne _ _ hne]

/-- An entry that goes to the `Geo` builder as well. Both are pushed to before either is
checked. -/
theorem pushTagged_geo (ht : TryNewAccepts tryNew) (hv : b.Valid)
    (htag : typeTagFor entry = some tag) (hsize : b.config.oversized entry = false)
    (hg : shouldEmitGeo b.config.heuristics tag entry = true) (hfits : b.EntryFits entry) :
    ∃ out b', pushTagged tryNew tag entry b = (.ok out, b') ∧ b.Pushed entry out b' := by
  have hgeo : tag ≠ .geo := fun h => typeTagFor_ne_geo entry (h ▸ htag)
  have hfeeds : b.config.feeds entry = [tag, .geo] := by simp [feeds_eq htag hsize, hg]
  have hown := hfits tag (by simp [hfeeds])
  have hpush := pushTo_ok (ε := ε) hv hown
  have hv₁ := (pushTo_emits hv hown).valid
  have hgeoFits := hfits .geo (by simp [hfeeds])
  obtain ⟨b₁, hb₁⟩ : ∃ b₁, b.setBuilder tag (tag.pushed (b.builder tag) entry) = b₁ := ⟨_, rfl⟩
  have hconfig₁ : b₁.config = b.config := by rw [← hb₁, setBuilder_config]
  have hgeo₁ : b₁.builder .geo = b.builder .geo := by rw [← hb₁, builder_geo_after htag]
  have hpush₂ : (pushTo .geo entry : BatcherM ε Unit) b₁ =
      (.ok (), b₁.setBuilder .geo (TypeTag.geo.pushed (b.builder .geo) entry)) := by
    rw [← hgeo₁]
    exact pushTo_ok (hb₁ ▸ hv₁) (hgeo₁ ▸ hgeoFits)
  obtain ⟨b₂, hb₂⟩ : ∃ b₂, b₁.setBuilder .geo (TypeTag.geo.pushed (b.builder .geo) entry) = b₂ :=
    ⟨_, rfl⟩
  have hconfig₂ : b₂.config = b.config := by rw [← hb₂, setBuilder_config, hconfig₁]
  have htag₂ : b₂.builder tag = tag.pushed (b.builder tag) entry := by
    rw [← hb₂, builder_setBuilder_of_ne _ _ hgeo, ← hb₁, builder_setBuilder_self]
  obtain ⟨more, x', hflush, hsettles⟩ :=
    maybeFlushTag_settles ht htag₂ (pushed_holds (hv tag).1 entry)
      (pushed_len_ne_zero _ (hv tag).1 (entryRows_ne_nil htag)) []
  have hgeo₃ : (b₂.setBuilder tag x').builder .geo = TypeTag.geo.pushed (b.builder .geo) entry := by
    rw [builder_setBuilder_of_ne _ _ (Ne.symm hgeo), ← hb₂, builder_setBuilder_self]
  obtain ⟨more', y', hflush', hsettles'⟩ :=
    maybeFlushTag_settles ht hgeo₃ (pushed_holds (hv .geo).1 entry)
      (pushed_len_ne_zero _ (hv .geo).1 (geo_entryRows_ne_nil hg)) ([] ++ more)
  rw [hconfig₂] at hsettles
  rw [setBuilder_config, hconfig₂] at hsettles'
  refine ⟨more ++ more', (b₂.setBuilder tag x').setBuilder .geo y', ?_,
    by simp [hconfig₂], fun other ho => ?_, fun other ho => ?_⟩
  · unfold pushTagged
    rw [run_bind_ok hpush, run_get_bind, setBuilder_config, hg, hb₁]
    simp only [if_true]
    rw [hb₂] at hpush₂
    rw [run_bind_ok hpush₂, run_bind_ok hflush]
    exact hflush'
  · rw [hfeeds] at ho
    rw [List.filter_append]
    rcases List.mem_pair.mp ho with rfl | rfl
    · rw [hsettles.filter_self, hsettles'.filter_of_ne hgeo, List.append_nil,
        builder_setBuilder_of_ne _ _ hgeo, builder_setBuilder_self]
      exact hsettles
    · rw [hsettles.filter_of_ne (Ne.symm hgeo), hsettles'.filter_self, List.nil_append,
        builder_setBuilder_self]
      exact hsettles'
  · rw [hfeeds] at ho
    have hne : other ≠ tag ∧ other ≠ .geo := by simpa using ho
    refine ⟨?_, ?_⟩
    · rw [builder_setBuilder_of_ne _ _ hne.2, builder_setBuilder_of_ne _ _ hne.1, ← hb₂,
        builder_setBuilder_of_ne _ _ hne.2, ← hb₁, builder_setBuilder_of_ne _ _ hne.1]
    · rw [List.filter_append, hsettles.filter_of_ne hne.1, hsettles'.filter_of_ne hne.2]
      rfl

end Tagged

/-- A push feeds the builders of its entry, when they have room for its rows. -/
theorem push_pushed (ht : TryNewAccepts tryNew) {b : ArrowBatcher} (hv : b.Valid)
    {entry : RdbEntry} (hfits : b.EntryFits entry) :
    ∃ out b', push tryNew entry b = (.ok out, b') ∧ b'.Valid ∧ b.Pushed entry out b' := by
  obtain ⟨tag, htag⟩ := typeTagFor_isSome entry
  obtain ⟨out, b', hrun, hemits⟩ := push_emits ht hv hfits
  refine ⟨out, b', hrun, hemits.valid, ?_⟩
  unfold push at hrun
  simp only [htag] at hrun
  rw [run_get_bind] at hrun
  cases ho : b.config.oversized entry with
  | true =>
    rw [ho] at hrun
    obtain ⟨hout, rfl⟩ := Prod.mk.inj hrun
    cases hout
    have hfeeds : b.config.feeds entry = [] := by simp [BatcherConfig.feeds, htag, ho]
    refine ⟨rfl, fun other hother => ?_, fun other _ => ⟨?_, rfl⟩⟩
    · rw [hfeeds] at hother
      cases hother
    · cases other <;> rfl
  | false =>
    obtain ⟨out₁, b₁, hrun₁, hpushed⟩ :
        ∃ out b', pushTagged tryNew tag entry b = (.ok out, b') ∧ b.Pushed entry out b' := by
      cases hg : shouldEmitGeo b.config.heuristics tag entry with
      | false => exact pushTagged_own ht hv htag ho hg hfits
      | true => exact pushTagged_geo ht hv htag ho hg hfits
    rw [ho] at hrun
    simp only [Bool.false_eq_true, if_false] at hrun
    obtain ⟨hout, rfl⟩ := Prod.mk.inj (hrun₁.symm.trans hrun)
    cases hout
    exact hpushed

/-- An oversized entry goes to no builder and is only counted. -/
theorem push_oversized {b : ArrowBatcher} {entry : RdbEntry} (h : b.config.oversized entry = true) :
    push tryNew entry b =
      (.ok [], { b with skippedOversized := satAdd64 b.skippedOversized 1 }) := by
  obtain ⟨tag, htag⟩ := typeTagFor_isSome entry
  unfold push
  simp only [htag]
  rw [run_get_bind, h]
  rfl

/-! ### Below the thresholds -/

def AllBelow (b : ArrowBatcher) : Prop := ∀ tag, (b.builder tag).Below b.config

theorem Settles.below {config : BatcherConfig} (hpos : config.Positive) {tag : TypeTag}
    {x x' : BatchBuilder} {rows : List Row} {out : List TypedBatch}
    (h : Settles config tag x rows out x') : x'.Below config := by
  cases h with
  | keep h => exact h
  | flush => exact hpos.below tag

theorem Pushed.allBelow {b b' : ArrowBatcher} {entry : RdbEntry} {out : List TypedBatch}
    (h : b.Pushed entry out b') (hpos : b.config.Positive) (hb : b.AllBelow) : b'.AllBelow := by
  intro tag
  rw [h.config]
  by_cases hfed : tag ∈ b.config.feeds entry
  · exact (h.fed tag hfed).below hpos
  · rw [(h.others tag hfed).1]
    exact hb tag

theorem new_allBelow {config : BatcherConfig} (hpos : config.Positive) : (new config).AllBelow := by
  intro tag
  rw [new_builder]
  exact hpos.below tag

theorem pushAll_allBelow (ht : TryNewAccepts tryNew) (entries : List RdbEntry) {b : ArrowBatcher}
    (hv : b.Valid) (hpos : b.config.Positive) (hb : b.AllBelow)
    (hfits : b.EachFits tryNew entries) :
    ∃ out b', pushAll tryNew entries b = (.ok out, b') ∧ b'.Valid ∧ b'.config = b.config ∧
      b'.AllBelow := by
  induction entries generalizing b with
  | nil => exact ⟨[], b, rfl, hv, rfl, hb⟩
  | cons entry entries ih =>
    obtain ⟨out, b₁, hpush, hv₁, hpushed⟩ := push_pushed ht hv hfits.1
    have hpos₁ : b₁.config.Positive := hpushed.config ▸ hpos
    have hrestFits := hfits.2
    rw [hpush] at hrestFits
    obtain ⟨rest, b₂, hrest, hv₂, hconfig, hb₂⟩ :=
      ih hv₁ hpos₁ (hpushed.allBelow hpos hb) hrestFits
    refine ⟨out ++ rest, b₂, ?_, hv₂, hconfig.trans hpushed.config, hb₂⟩
    unfold pushAll
    rw [run_bind_ok hpush, run_bind_ok hrest]
    rfl

theorem Settles.of_mem {config : BatcherConfig} {tag : TypeTag} {x x' : BatchBuilder}
    {rows : List Row} {out : List TypedBatch} (h : Settles config tag x rows out x')
    {t : TypedBatch} (ht : t ∈ out) : t.batch.rows = rows ∧ ¬ x.Below config := by
  cases h with
  | keep => cases ht
  | flush hfull batch hrows =>
    obtain rfl := List.mem_singleton.mp ht
    exact ⟨hrows, hfull⟩

/-- A batch that a push emits comes from a builder that the entry took over a threshold. -/
theorem Pushed.batch {b b' : ArrowBatcher} {entry : RdbEntry} {out : List TypedBatch}
    (h : b.Pushed entry out b') {t : TypedBatch} (ht : t ∈ out) :
    t.tag ∈ b.config.feeds entry ∧ t.batch.rows = b.held t.tag ++ t.tag.entryRows entry ∧
      ¬ (t.tag.pushed (b.builder t.tag) entry).Below b.config := by
  have hmem : t ∈ out.filter fun u => u.tag == t.tag := by simp [ht]
  have hfed : t.tag ∈ b.config.feeds entry := by
    by_contra hnot
    rw [(h.others t.tag hnot).2] at hmem
    cases hmem
  exact ⟨hfed, (h.fed t.tag hfed).of_mem hmem⟩

end Step

end ArrowBatcher

open ArrowBatcher in
/-- After each push that returns every builder is below both thresholds. A batch that a push
emits has reached one of them, which without the rows of the entry it had not; builders
that the entry does not go to stay as they are, and an oversized entry is only counted. A
push that does not return has panicked. -/
theorem threshold_discipline {ε : Type} (tryNew : TryNew ε) (ht : TryNewAccepts tryNew)
    (config : BatcherConfig) (hpos : config.Positive) (entries : List RdbEntry)
    (out : List TypedBatch) (b : ArrowBatcher)
    (hrun : pushAll tryNew entries (new config) = (.ok out, b)) :
    (∀ tag, (b.builder tag).Below config) ∧
      ∀ entry,
        (∀ out' b', push tryNew entry b = (.ok out', b') →
          (∀ tag, (b'.builder tag).Below config) ∧
          (∀ t ∈ out', (b.builder t.tag).Below config ∧ t.tag ∈ config.feeds entry ∧
            t.batch.rows = b.held t.tag ++ t.tag.entryRows entry ∧
            (config.batchSize ≤ t.batch.rows.length ∨ ∃ max, config.batchBytes = some max ∧
              max ≤ (b.builder t.tag).dataBytes + t.tag.accounted entry)) ∧
          ∀ tag, tag ∉ config.feeds entry → b'.builder tag = b.builder tag) ∧
        (config.oversized entry = true → push tryNew entry b =
          (.ok [], { b with skippedOversized := satAdd64 b.skippedOversized 1 })) ∧
        ∀ e b', push tryNew entry b = (.error e, b') → e = .fault .panic := by
  have hnew := new_valid config
  obtain ⟨out₁, b₁, hrun₁, hv, hconfig, hb⟩ := pushAll_allBelow ht entries hnew.1 hpos
    (new_allBelow hpos) (eachFits_of_ok ht hnew.1 hrun)
  obtain ⟨-, rfl⟩ := Prod.mk.inj (hrun.symm.trans hrun₁)
  have hconfig : b.config = config := hconfig
  subst hconfig
  refine ⟨hb, fun entry => ⟨fun out' b' hpush => ?_, push_oversized, fun e b' hpush => ?_⟩⟩
  · obtain ⟨out₂, b₂, hpush₂, -, hpushed⟩ := push_pushed ht hv (entryFits_of_ok hv hpush)
    obtain ⟨hout, rfl⟩ := Prod.mk.inj (hpush.symm.trans hpush₂)
    cases hout
    refine ⟨fun tag => ?_, fun t htm => ?_, fun tag hnot => (hpushed.others tag hnot).1⟩
    · have hbelow := hpushed.allBelow hpos hb tag
      rwa [hpushed.config] at hbelow
    · obtain ⟨hfed, hrows, hfull⟩ := hpushed.batch htm
      have hlen : (t.tag.pushed (b.builder t.tag) entry).len =
          (b.held t.tag ++ t.tag.entryRows entry).length := (pushed_holds (hv t.tag).1 entry).len
      refine ⟨hb t.tag, hfed, hrows, ?_⟩
      rcases reached_iff.mpr hfull with hsize | hbytes
      · rw [hlen, ← hrows] at hsize
        exact .inl hsize
      · obtain ⟨max, hmax, hle⟩ := (Option.any_eq_true _ _).mp hbytes
        rw [pushed_dataBytes] at hle
        exact .inr ⟨max, hmax, by simpa using hle⟩
  · by_cases hfits : b.EntryFits entry
    · obtain ⟨out', b₂, hok, -⟩ := push_emits ht hv hfits
      cases hpush.symm.trans hok
    · obtain ⟨b₂, hpanic⟩ := @push_panics _ tryNew _ hv _ hfits
      obtain ⟨he, -⟩ := Prod.mk.inj (hpush.symm.trans hpanic)
      cases he
      rfl

def fiveEntry : RdbEntry :=
  ⟨0, [107], .list [[], [], [], [], []], rdbTypeList, none, none, none, none, none⟩

/-- Five elements under a threshold of four rows, pushed three times: the last push finds the
builder empty and emits a batch. -/
theorem threshold_discipline_list : ∃ out b out' b',
    ArrowBatcher.pushAll checkedTryNew [fiveEntry, fiveEntry]
      (.new { BatcherConfig.default with batchSize := 4 }) = (.ok out, b) ∧
    ArrowBatcher.push checkedTryNew fiveEntry b = (.ok out', b') ∧ out'.length = 1 ∧
    (∀ t ∈ out', t.batch.rows = b.held t.tag ++ t.tag.entryRows fiveEntry) ∧
    (b'.builder .list).Below { BatcherConfig.default with batchSize := 4 } := by
  have hpos : { BatcherConfig.default with batchSize := 4 }.Positive :=
    ⟨by decide, fun max hmax => by cases hmax; decide⟩
  have hv := (ArrowBatcher.new_valid { BatcherConfig.default with batchSize := 4 }).1
  obtain ⟨out, b, hrun, hb⟩ := ArrowBatcher.pushAll_emits checkedTryNew_accepts
    [fiveEntry, fiveEntry] hv (by decide +kernel)
  have hfits : (ArrowBatcher.pushAll checkedTryNew [fiveEntry, fiveEntry]
      (.new { BatcherConfig.default with batchSize := 4 })).2.EntryFits fiveEntry := by
    decide +kernel
  have hone : (ArrowBatcher.push checkedTryNew fiveEntry
      (ArrowBatcher.pushAll checkedTryNew [fiveEntry, fiveEntry]
        (.new { BatcherConfig.default with batchSize := 4 })).2).1.toOption.map List.length =
      some 1 := by
    decide +kernel
  rw [hrun] at hfits hone
  obtain ⟨out', b', hpush, -⟩ := ArrowBatcher.push_emits checkedTryNew_accepts hb.valid hfits
  rw [hpush] at hone
  obtain ⟨hbelow, hbatches, -⟩ := ((threshold_discipline checkedTryNew checkedTryNew_accepts
    { BatcherConfig.default with batchSize := 4 } hpos [fiveEntry, fiveEntry] out b hrun).2
    fiveEntry).1 out' b' hpush
  exact ⟨out, b, out', b', hrun, hpush, by simpa [Except.toOption] using hone,
    fun t ht => (hbatches t ht).2.2.1, hbelow .list⟩

end ValkeyRdb
