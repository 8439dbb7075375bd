import ValkeyRdb.Arrow.Writer

/-!
# The calls for one file (writer.rs:52-99)

The trace of the pipeline, read tag by tag: a file is created, opened, written to batch by
batch and closed, in this order.
-/

namespace ValkeyRdb

section Calls

variable {ω W R E C : Type}

namespace WriterEvent

def tag : WriterEvent E C → TypeTag
  | .factory t _ | .opened t _ | .wrote t _ _ | .closed t _ => t

/-- The calls for one tag. -/
def forTag (tag : TypeTag) (log : List (WriterEvent E C)) : List (WriterEvent E C) :=
  log.filter fun e => e.tag == tag

theorem forTag_append (tag : TypeTag) (log log' : List (WriterEvent E C)) :
    forTag tag (log ++ log') = forTag tag log ++ forTag tag log' := List.filter_append _ _

end WriterEvent

open WriterEvent (forTag forTag_append)

/-- A call of `write` for a batch, with the error it failed with. -/
abbrev Attempt (E : Type) := TypedBatch × Option E

/-- The calls before the writers are closed, for a tag with some attempts. -/
def tagCalls (tag : TypeTag) (attempts : List (Attempt E)) : List (WriterEvent E C) :=
  match attempts.filter fun a => a.1.tag == tag with
  | [] => []
  | a :: as => .factory tag none :: .opened tag none ::
      (a :: as).map fun a => .wrote tag a.1.batch a.2

theorem tagCalls_append_of_ne {tag : TypeTag} {a : Attempt E} (h : a.1.tag ≠ tag)
    (attempts : List (Attempt E)) :
    tagCalls (C := C) tag (attempts ++ [a]) = tagCalls tag attempts := by
  unfold tagCalls
  rw [List.filter_append]
  simp [h]

theorem tagCalls_append_new {a : Attempt E} {attempts : List (Attempt E)}
    (h : ∀ b ∈ attempts, b.1.tag ≠ a.1.tag) :
    tagCalls (C := C) a.1.tag (attempts ++ [a]) =
      [.factory a.1.tag none, .opened a.1.tag none, .wrote a.1.tag a.1.batch a.2] := by
  have hnil : attempts.filter (fun b => b.1.tag == a.1.tag) = [] := by
    apply List.filter_eq_nil_iff.mpr
    intro b hb
    simp [h b hb]
  unfold tagCalls
  rw [List.filter_append, hnil]
  simp

theorem tagCalls_append_old {a b : Attempt E} {attempts : List (Attempt E)} (hb : b ∈ attempts)
    (h : b.1.tag = a.1.tag) :
    tagCalls (C := C) a.1.tag (attempts ++ [a]) =
      tagCalls a.1.tag attempts ++ [.wrote a.1.tag a.1.batch a.2] := by
  have hmem : b ∈ attempts.filter (fun b => b.1.tag == a.1.tag) :=
    List.mem_filter.mpr ⟨hb, by simp [h]⟩
  unfold tagCalls
  rw [List.filter_append]
  cases hf : attempts.filter (fun b => b.1.tag == a.1.tag) with
  | nil =>
    rw [hf] at hmem
    cases hmem
  | cons c cs => simp

theorem tagCalls_nil {tag : TypeTag} {attempts : List (Attempt E)}
    (h : ∀ b ∈ attempts, b.1.tag ≠ tag) : tagCalls (C := C) tag attempts = [] := by
  have hnil : attempts.filter (fun b => b.1.tag == tag) = [] := by
    apply List.filter_eq_nil_iff.mpr
    intro b hb
    simp [h b hb]
  unfold tagCalls
  rw [hnil]

/-! ### The loop over the batches -/

/-- The writers, the trace and the attempts at a point of the loop; `last` are the calls
for a file that could not be opened. -/
structure Ordered (writers : SortedMap TypeTag (TypeTag × R)) (log : List (WriterEvent E C))
    (attempts : List (Attempt E)) (last : List (WriterEvent E C)) : Prop where
  own : ∀ tag writer, writers.get? tag = some writer → writer.1 = tag
  opened : ∀ tag, writers.contains tag = true ↔ ∃ a ∈ attempts, a.1.tag = tag
  calls : ∀ tag, forTag tag log = tagCalls tag attempts ++ forTag tag last

variable {writers : SortedMap TypeTag (TypeTag × R)} {log : List (WriterEvent E C)}
  {attempts : List (Attempt E)}

theorem Ordered.empty : Ordered (.empty : SortedMap TypeTag (TypeTag × R))
    ([] : List (WriterEvent E C)) [] [] where
  own := by
    intro tag writer h
    cases h
  opened := by simp [SortedMap.contains]
  calls := fun _ => rfl

theorem Ordered.unopened (h : Ordered writers log attempts []) {tag : TypeTag}
    (hg : writers.get? tag = none) : ∀ b ∈ attempts, b.1.tag ≠ tag := by
  intro b hb heq
  have hopen := (h.opened tag).mpr ⟨b, hb, heq⟩
  unfold SortedMap.contains at hopen
  rw [hg] at hopen
  cases hopen

theorem Ordered.own_insert (h : Ordered writers log attempts []) (tag : TypeTag) (writer : R) :
    ∀ t x, (writers.insert tag (tag, writer)).get? t = some x → x.1 = t := by
  intro t x hx
  by_cases hne : t = tag
  · subst hne
    rw [SortedMap.get?_insert_self] at hx
    cases hx
    rfl
  · rw [SortedMap.get?_insert_of_ne _ _ hne] at hx
    exact h.own t x hx

theorem Ordered.opened_insert (h : Ordered writers log attempts []) (a : Attempt E) (x : TypeTag × R)
    (tag : TypeTag) : (writers.insert a.1.tag x).contains tag = true ↔
      ∃ b ∈ attempts ++ [a], b.1.tag = tag := by
  rw [SortedMap.contains_insert, h.opened]
  constructor
  · rintro (rfl | ⟨b, hb, rfl⟩)
    · exact ⟨a, by simp, rfl⟩
    · exact ⟨b, by simp [hb], rfl⟩
  · rintro ⟨b, hb, rfl⟩
    rcases List.mem_append.mp hb with hb | hb
    · exact .inr ⟨b, hb, rfl⟩
    · obtain rfl := List.mem_singleton.mp hb
      exact .inl rfl

/-- One more batch for a writer that is open. -/
theorem Ordered.write_open (h : Ordered writers log attempts []) {t : TypedBatch}
    {writer : TypeTag × R} (hg : writers.get? t.tag = some writer) (writer' : R)
    (failed : Option E) :
    Ordered (writers.insert t.tag (t.tag, writer')) (log ++ [.wrote t.tag t.batch failed])
      (attempts ++ [(t, failed)]) [] := by
  have hopen : writers.contains t.tag = true := by
    unfold SortedMap.contains
    rw [hg]
    rfl
  obtain ⟨b, hb, htag⟩ := (h.opened t.tag).mp hopen
  refine ⟨h.own_insert t.tag writer', h.opened_insert (t, failed) _, fun tag => ?_⟩
  have hold := h.calls tag
  rw [forTag_append, hold]
  by_cases hne : t.tag = tag
  · subst hne
    have hcalls := tagCalls_append_old (C := C) (a := (t, failed)) hb htag
    rw [hcalls]
    simp [forTag, WriterEvent.tag]
  · rw [tagCalls_append_of_ne hne]
    simp [forTag, WriterEvent.tag, hne]

/-- The first batch of a tag, when its writer could be opened. -/
theorem Ordered.write_new (h : Ordered writers log attempts []) {t : TypedBatch}
    (hg : writers.get? t.tag = none) (writer' : R) (failed : Option E) :
    Ordered (writers.insert t.tag (t.tag, writer'))
      (log ++ [.factory t.tag none] ++ [.opened t.tag none] ++ [.wrote t.tag t.batch failed])
      (attempts ++ [(t, failed)]) [] := by
  have hnew : ∀ b ∈ attempts, b.1.tag ≠ t.tag := h.unopened hg
  refine ⟨h.own_insert t.tag writer', h.opened_insert (t, failed) _, fun tag => ?_⟩
  have hold := h.calls tag
  simp only [forTag_append, hold]
  by_cases hne : t.tag = tag
  · subst hne
    have hcalls := tagCalls_append_new (C := C) (a := (t, failed)) hnew
    rw [hcalls, tagCalls_nil hnew]
    simp [forTag, WriterEvent.tag]
  · rw [tagCalls_append_of_ne hne]
    simp [forTag, WriterEvent.tag, hne]

theorem Ordered.fail (h : Ordered writers log attempts []) (last : List (WriterEvent E C)) :
    Ordered writers (log ++ last) attempts last := by
  refine ⟨h.own, h.opened, fun tag => ?_⟩
  rw [forTag_append, h.calls]
  simp [forTag]

/-- The end of the loop over `batches`. -/
structure PopulateEnd (batches : List (Except E TypedBatch)) (result : Except E Unit)
    (writers : SortedMap TypeTag (TypeTag × R)) (log : List (WriterEvent E C))
    (attempts : List (Attempt E)) (last : List (WriterEvent E C)) : Prop extends
    Ordered writers log attempts last where
  attempted : attempts.map (fun a => (.ok a.1 : Except E TypedBatch)) <+: batches
  stopped : ∀ a ∈ attempts.dropLast, a.2 = none
  all : result = .ok () → batches = attempts.map (fun a => .ok a.1) ∧ last = [] ∧
    ∀ a ∈ attempts, a.2 = none
  last_new : last = [] ∨ ∃ tag, (∀ a ∈ attempts, a.1.tag ≠ tag) ∧ ∃ e,
    last = [.factory tag (some e)] ∨ last = [.factory tag none, .opened tag (some e)]

/-- The loop, from any point of it. -/
theorem populate_ordered (cb : Callbacks ω W R E C) (batches : List (Except E TypedBatch))
    (h : Ordered writers log attempts []) (hok : ∀ a ∈ attempts, a.2 = none) (w : ω) :
    ∃ result writers' w' log' attempts' last,
      populate cb.traced batches writers (w, log) = (result, writers', w', log') ∧
      PopulateEnd (attempts.map (fun a => .ok a.1) ++ batches) result writers' log' attempts' last := by
  induction batches generalizing writers log attempts w with
  | nil =>
    have hdrop : ∀ a ∈ attempts.dropLast, a.2 = none := fun a ha => hok a (List.mem_of_mem_dropLast ha)
    refine ⟨_, _, _, _, attempts, [], rfl, ⟨h, ?_, hdrop, fun _ => ⟨?_, rfl, hok⟩, .inl rfl⟩⟩
    · rw [List.append_nil]
    · rw [List.append_nil]
  | cons x batches ih =>
    have hdrop : ∀ a ∈ attempts.dropLast, a.2 = none := fun a ha => hok a (List.mem_of_mem_dropLast ha)
    cases x with
    | error e =>
      refine ⟨_, _, _, _, attempts, [], rfl, ⟨h, List.prefix_append _ _, hdrop, ?_, .inl rfl⟩⟩
      rintro ⟨⟩
    | ok t =>
      -- the attempt at this batch, once its writer is there
      have hwrite : ∀ (writer : R) (w₁ : ω) (log₁ : List (WriterEvent E C)),
          writerFor cb.traced t.tag writers (w, log) = (.ok (t.tag, writer), w₁, log₁) →
          (∀ writer' failed, Ordered (writers.insert t.tag (t.tag, writer'))
            (log₁ ++ [.wrote t.tag t.batch failed]) (attempts ++ [(t, failed)]) []) →
          ∃ result writers' w' log' attempts' last,
            populate cb.traced (.ok t :: batches) writers (w, log) = (result, writers', w', log') ∧
            PopulateEnd (attempts.map (fun a => .ok a.1) ++ .ok t :: batches) result writers' log'
              attempts' last := by
        intro writer w₁ log₁ ht hnext
        rcases hx : cb.write writer t.batch w₁ with ⟨e | u, writer', w₂⟩
        · refine ⟨_, _, _, _, attempts ++ [(t, some e)], [],
            populate_write_error ht (traced_write hx log₁) batches, hnext writer' (some e), ?_, ?_, ?_, .inl rfl⟩
          · exact ⟨batches, by simp⟩
          · rw [List.dropLast_concat]
            exact hok
          · rintro ⟨⟩
        · have hok' : ∀ a ∈ attempts ++ [(t, none)], a.2 = none := by
            intro a ha
            rcases List.mem_append.mp ha with ha | ha
            · exact hok a ha
            · rw [List.mem_singleton.mp ha]
          obtain ⟨result, writers', w', log', attempts', last, hrun, hend⟩ :=
            ih (hnext writer' none) hok' w₂
          refine ⟨result, writers', w', log', attempts', last, ?_, ?_⟩
          · rw [populate_write_ok ht (traced_write hx log₁) batches]
            exact hrun
          · rw [List.map_append, List.append_assoc] at hend
            exact hend
      rcases writerFor_traced cb t.tag writers w log with ⟨writer, hg, ht, -⟩ |
        ⟨hg, e, w', ht, -⟩ | ⟨hg, e, w', ht, -⟩ | ⟨hg, writer, w', ht, -⟩
      · have hown := h.own t.tag writer hg
        obtain ⟨tag, writer⟩ := writer
        cases hown
        exact hwrite writer w log ht fun writer' failed => h.write_open hg writer' failed
      · refine ⟨_, _, _, _, attempts, _, populate_unopened ht batches, h.fail _,
          List.prefix_append _ _, hdrop, ?_, .inr ⟨t.tag, h.unopened hg, e, .inl rfl⟩⟩
        rintro ⟨⟩
      · refine ⟨_, _, _, _, attempts, [.factory t.tag none, .opened t.tag (some e)],
          populate_unopened ht batches, ?_, List.prefix_append _ _, hdrop, ?_,
          .inr ⟨t.tag, h.unopened hg, e, .inr rfl⟩⟩
        · rw [List.append_assoc]
          exact h.fail _
        · rintro ⟨⟩
      · exact hwrite writer w' _ ht fun writer' failed => h.write_new hg writer' failed

/-! ### Closing -/

/-- The closing calls have each tag of the writers once. -/
theorem forTag_closes {closes : List (WriterEvent E C)} {tags : List TypeTag}
    (h : closes.map WriterEvent.closedTag = tags.map some) (hnodup : tags.Nodup) (tag : TypeTag) :
    ∃ closed, (closed.isSome = true → closed ∈ closes.map WriterEvent.closeFailure) ∧
      forTag tag closes = if tag ∈ tags then [.closed tag closed] else [] := by
  induction closes generalizing tags with
  | nil =>
    cases tags with
    | nil => exact ⟨none, nofun, rfl⟩
    | cons t ts => cases h
  | cons e closes ih =>
    cases tags with
    | nil => cases h
    | cons t ts =>
      rw [List.map_cons, List.map_cons] at h
      obtain ⟨he, hrest⟩ := List.cons.inj h
      obtain ⟨hnot, hnodup'⟩ := List.nodup_cons.mp hnodup
      obtain ⟨closed, hclosed, hlog⟩ := ih hrest hnodup'
      cases e with
      | closed t' failed =>
        cases he
        by_cases ht : t = tag
        · subst ht
          rw [if_neg hnot] at hlog
          refine ⟨failed, fun _ => List.mem_cons_self, ?_⟩
          simpa [forTag, WriterEvent.tag] using hlog
        · refine ⟨closed, fun hs => List.mem_cons_of_mem _ (hclosed hs), ?_⟩
          have hmem : tag ∈ t :: ts ↔ tag ∈ ts := by simp [Ne.symm ht]
          simp only [hmem, ← hlog]
          simp [forTag, WriterEvent.tag, ht]
      | factory t' failed => cases he
      | opened t' failed => cases he
      | wrote t' batch failed => cases he

/-- The calls of a whole run, tag by tag: `attempts` are the batches that reached a writer,
`last` the calls for a file that could not be opened. -/
structure PipelineCalls (batches : List (Except E TypedBatch)) (result : Except E Unit)
    (trace : List (WriterEvent E C)) (attempts : List (Attempt E)) (last : List (WriterEvent E C))
    (closed : TypeTag → Option C) : Prop where
  attempted : attempts.map (fun a => (.ok a.1 : Except E TypedBatch)) <+: batches
  stopped : ∀ a ∈ attempts.dropLast, a.2 = none
  last_new : last = [] ∨ ∃ tag, (∀ a ∈ attempts, a.1.tag ≠ tag) ∧ ∃ e,
    last = [.factory tag (some e)] ∨ last = [.factory tag none, .opened tag (some e)]
  calls : ∀ tag, forTag tag trace = tagCalls tag attempts ++ forTag tag last ++
    if ∃ a ∈ attempts, a.1.tag = tag then [.closed tag (closed tag)] else []
  all : result = .ok () → batches = attempts.map (fun a => .ok a.1) ∧ last = [] ∧
    (∀ a ∈ attempts, a.2 = none) ∧ ∀ tag, closed tag = none

theorem pipeline_calls (cb : Callbacks ω W R E C) (into : C → E)
    (batches : List (Except E TypedBatch)) (w : ω) :
    ∃ result w' trace attempts last closed,
      runWriterPipeline cb.traced into batches (w, []) = (result, w', trace) ∧
      PipelineCalls batches result trace attempts last closed := by
  obtain ⟨result, writers, w₁, log, attempts, last, hrun, hend⟩ :=
    populate_ordered cb batches (Ordered.empty (R := R) (E := E) (C := C)) nofun w
  have hown : ∀ entry ∈ writers.entries, entry.2.1 = entry.1 := by
    rintro ⟨tag, writer⟩ hm
    exact hend.own tag writer (SortedMap.get?_of_mem hm)
  obtain ⟨closes, w₂, hclose, -, htags⟩ :=
    closeWriters_traced cb into writers.entries hown none w₁ log
  have htags' : closes.map WriterEvent.closedTag = (writers.entries.map Prod.fst).map some := by
    rw [htags, List.map_map]
    rfl
  have hnodup : (writers.entries.map Prod.fst).Nodup :=
    (List.pairwise_map.mpr writers.sorted).imp fun hlt => ne_of_lt hlt
  choose closed hclosed hforTag using fun tag => forTag_closes htags' hnodup tag
  have hresult : runWriterPipeline cb.traced into batches (w, []) =
      (pipelineResult result into closes, w₂, log ++ closes) := by
    unfold runWriterPipeline closeAll
    rw [hrun]
    simp only [hclose, Option.none_or]
    unfold pipelineResult
    cases result <;> cases (closes.filterMap WriterEvent.closeFailure).head? <;> rfl
  refine ⟨_, w₂, log ++ closes, attempts, last, closed, hresult, hend.attempted, hend.stopped, hend.last_new,
    fun tag => ?_, fun hok => ?_⟩
  · rw [forTag_append, hend.calls, hforTag]
    have hmem : tag ∈ writers.entries.map Prod.fst ↔ ∃ a ∈ attempts, a.1.tag = tag := by
      rw [← SortedMap.contains_iff_mem_keys]
      exact hend.opened tag
    simp only [hmem]
  · cases result with
    | error e =>
      unfold pipelineResult at hok
      cases hok
    | ok u =>
      obtain ⟨hall, hlast, hnone⟩ := hend.all rfl
      refine ⟨hall, hlast, hnone, fun tag => ?_⟩
      cases hc : closed tag with
      | none => rfl
      | some c =>
        have hmem := hclosed tag (by rw [hc]; rfl)
        rw [hc] at hmem
        have hfail : c ∈ closes.filterMap WriterEvent.closeFailure := by
          obtain ⟨e, he, hce⟩ := List.mem_map.mp hmem
          exact List.mem_filterMap.mpr ⟨e, he, hce⟩
        unfold pipelineResult at hok
        cases hh : closes.filterMap WriterEvent.closeFailure with
        | nil =>
          rw [hh] at hfail
          cases hfail
        | cons c' cs =>
          rw [hh] at hok
          cases hok

/-! ### Which errors come back -/

/-- Every error of a callback has the property `P`. -/
structure Callbacks.FailsIn (cb : Callbacks ω W R E C) (into : C → E) (P : E → Prop) : Prop where
  factory : ∀ {tag w e w'}, cb.factory tag w = (.error e, w') → P e
  opened : ∀ {tag raw w e w'}, cb.openWriter tag raw w = (.error e, w') → P e
  write : ∀ {writer batch w e writer' w'}, cb.write writer batch w = (.error e, writer', w') → P e
  close : ∀ {writer w e w'}, cb.close writer w = (.error e, w') → P (into e)

variable {cb : Callbacks ω W R E C} {into : C → E} {P : E → Prop}

theorem writerFor_error (h : cb.FailsIn into P) {tag : TypeTag} {ws : SortedMap TypeTag R} {w w' : ω}
    {e : E} (he : writerFor cb tag ws w = (.error e, w')) : P e := by
  unfold writerFor at he
  cases hg : ws.get? tag with
  | some writer =>
    rw [hg] at he
    cases he
  | none =>
    rw [hg] at he
    rcases StateAction.bind_eq_error he with hf | ⟨raw, w₁, -, ho⟩
    · exact h.factory hf
    · exact h.opened ho

/-- The loop takes its batches up to their first error, unless a callback fails before. -/
theorem populate_result (h : cb.FailsIn into P) (batches : List (Except E TypedBatch))
    (ws : SortedMap TypeTag R) (w : ω) :
    (populate cb batches ws w).1 = firstError batches ∨
      ∃ e, (populate cb batches ws w).1 = .error e ∧ P e := by
  induction batches generalizing ws w with
  | nil => exact .inl rfl
  | cons x batches ih =>
    cases x with
    | error e => exact .inl rfl
    | ok t =>
      rcases hw : writerFor cb t.tag ws w with ⟨e | writer, w₁⟩
      · rw [populate_unopened hw batches]
        exact .inr ⟨e, rfl, writerFor_error h hw⟩
      · rcases hx : cb.write writer t.batch w₁ with ⟨e | u, writer', w₂⟩
        · rw [populate_write_error hw hx batches]
          exact .inr ⟨e, rfl, h.write hx⟩
        · rw [populate_write_ok hw hx batches]
          exact ih (ws.insert t.tag writer') w₂

theorem closeWriters_error (h : cb.FailsIn into P) (entries : List (TypeTag × R))
    (firstErr : Option E) (hfirst : ∀ e, firstErr = some e → P e) (w : ω) :
    ∀ e, (closeWriters cb.close into entries firstErr w).1 = some e → P e := by
  induction entries generalizing firstErr w with
  | nil => exact hfirst
  | cons entry entries ih =>
    obtain ⟨tag, writer⟩ := entry
    rw [closeWriters]
    rcases hx : cb.close writer w with ⟨e | u, w₁⟩
    · refine ih _ (fun e' he => ?_) w₁
      cases firstErr with
      | none =>
        cases he
        exact h.close hx
      | some e₀ =>
        cases he
        exact hfirst e₀ rfl
    · exact ih _ hfirst w₁

/-- What the pipeline returns: the first error of its batches, or one of a callback. -/
theorem pipeline_result (h : cb.FailsIn into P) (batches : List (Except E TypedBatch)) (w : ω) :
    (runWriterPipeline cb into batches w).1 = firstError batches ∨
      ∃ e, (runWriterPipeline cb into batches w).1 = .error e ∧ P e := by
  have hloop := populate_result h batches .empty w
  unfold runWriterPipeline closeAll
  rcases hp : populate cb batches .empty w with ⟨e | u, ws, w₁⟩
  · rw [hp] at hloop
    exact hloop
  · rw [hp] at hloop
    have hclose := closeWriters_error h ws.entries none nofun w₁
    rcases hc : closeWriters cb.close into ws.entries none w₁ with ⟨_ | e, w₂⟩
    · simp only [hc]
      exact hloop
    · rw [hc] at hclose
      simp only [hc]
      exact .inr ⟨e, rfl, hclose e rfl⟩

/-- Callbacks that never fail. -/
structure Callbacks.Succeeds (cb : Callbacks ω W R E C) : Prop where
  factory : ∀ tag w, ∃ raw w', cb.factory tag w = (.ok raw, w')
  opened : ∀ tag raw w, ∃ writer w', cb.openWriter tag raw w = (.ok writer, w')
  write : ∀ writer batch w, ∃ writer' w', cb.write writer batch w = (.ok (), writer', w')
  close : ∀ writer w, ∃ w', cb.close writer w = (.ok (), w')

theorem populate_succeeds (h : cb.Succeeds) (batches : List (Except E TypedBatch))
    (ws : SortedMap TypeTag R) (w : ω) : (populate cb batches ws w).1 = firstError batches := by
  induction batches generalizing ws w with
  | nil => rfl
  | cons x batches ih =>
    cases x with
    | error e => rfl
    | ok t =>
      obtain ⟨writer, w₁, hw⟩ : ∃ writer w', writerFor cb t.tag ws w = (.ok writer, w') := by
        unfold writerFor
        cases ws.get? t.tag with
        | some writer => exact ⟨writer, w, rfl⟩
        | none =>
          obtain ⟨raw, w₁, hf⟩ := h.factory t.tag w
          obtain ⟨writer, w₂, ho⟩ := h.opened t.tag raw w₁
          exact ⟨writer, w₂, (StateAction.run_bind_ok hf).trans ho⟩
      obtain ⟨writer', w₂, hx⟩ := h.write writer t.batch w₁
      rw [populate_write_ok hw hx batches]
      exact ih _ _

theorem pipeline_succeeds (h : cb.Succeeds) (into : C → E) (batches : List (Except E TypedBatch)) (w : ω) :
    (runWriterPipeline cb into batches w).1 = firstError batches := by
  have hclose : ∀ (entries : List (TypeTag × R)) (w : ω),
      (closeWriters cb.close into entries none w).1 = none := by
    intro entries
    induction entries with
    | nil => exact fun _ => rfl
    | cons entry entries ih =>
      intro w
      obtain ⟨w₁, hx⟩ := h.close entry.2 w
      obtain ⟨tag, writer⟩ := entry
      rw [closeWriters, hx]
      exact ih w₁
  have hresult := populate_succeeds h batches .empty w
  unfold runWriterPipeline closeAll
  rcases hp : populate cb batches .empty w with ⟨x, ws, w₁⟩
  rw [hp] at hresult
  have hnone := hclose ws.entries w₁
  rcases hc : closeWriters cb.close into ws.entries none w₁ with ⟨f, w₂⟩
  rw [hc] at hnone
  cases hnone
  rw [← hresult]
  simp only [hc]
  cases x <;> rfl

end Calls

end ValkeyRdb
