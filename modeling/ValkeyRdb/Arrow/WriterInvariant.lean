import ValkeyRdb.Arrow.WriterLog
import ValkeyRdb.Lib.Cells

/-!
# Invariants of the writer pipeline

What every callback preserves holds behind the whole run. A writer is known by the tag it
was opened for, so an invariant can speak of the file it writes to.
-/

namespace ValkeyRdb

section Invariant

variable {ω W R E C : Type}

/-- The callbacks preserve `I`; `raw` and `own` tell which outputs and writers belong to a
tag. -/
structure Callbacks.Preserves (cb : Callbacks ω W R E C) (I : ω → Prop) (raw : TypeTag → W → Prop)
    (own : TypeTag → R → Prop) : Prop where
  factory : ∀ {tag w x w'}, I w → cb.factory tag w = (x, w') → I w' ∧ ∀ a, x = .ok a → raw tag a
  opened : ∀ {tag a w x w'}, raw tag a → I w → cb.openWriter tag a w = (x, w') →
    I w' ∧ ∀ r, x = .ok r → own tag r
  write : ∀ {tag r batch w x r' w'}, own tag r → I w → cb.write r batch w = (x, r', w') →
    I w' ∧ own tag r'
  close : ∀ {tag r w x w'}, own tag r → I w → cb.close r w = (x, w') → I w'

/-- Every writer belongs to the tag it is kept for. -/
def Owned (own : TypeTag → R → Prop) (writers : SortedMap TypeTag R) : Prop :=
  ∀ tag r, writers.get? tag = some r → own tag r

variable {cb : Callbacks ω W R E C} {I : ω → Prop} {raw : TypeTag → W → Prop}
  {own : TypeTag → R → Prop} {writers : SortedMap TypeTag R}

theorem Owned.insert (h : Owned own writers) {tag : TypeTag} {r : R} (hr : own tag r) :
    Owned own (writers.insert tag r) := by
  intro t x hx
  by_cases ht : t = tag
  · subst ht
    rw [SortedMap.get?_insert_self] at hx
    cases hx
    exact hr
  · rw [SortedMap.get?_insert_of_ne _ _ ht] at hx
    exact h t x hx

theorem writerFor_preserves (h : cb.Preserves I raw own) (hown : Owned own writers) {tag : TypeTag}
    {w w' : ω} {x : Except E R} (hi : I w) (hx : writerFor cb tag writers w = (x, w')) :
    I w' ∧ ∀ r, x = .ok r → own tag r := by
  cases hg : writers.get? tag with
  | some r =>
    unfold writerFor at hx
    rw [hg] at hx
    cases hx
    refine ⟨hi, fun r' hr => ?_⟩
    cases hr
    exact hown tag r hg
  | none =>
    have hnew : writerFor cb tag writers w = (cb.factory tag >>= cb.openWriter tag) w := by
      unfold writerFor
      rw [hg]
    rw [hnew] at hx
    rcases hf : cb.factory tag w with ⟨e | a, w₁⟩
    · rw [StateAction.run_bind_error hf] at hx
      cases hx
      exact ⟨(h.factory hi hf).1, nofun⟩
    · obtain ⟨hi₁, hraw⟩ := h.factory hi hf
      rw [StateAction.run_bind_ok hf] at hx
      exact h.opened (hraw a rfl) hi₁ hx

theorem populate_preserves (h : cb.Preserves I raw own) (batches : List (Except E TypedBatch))
    (hown : Owned own writers) {w : ω} (hi : I w) :
    I (populate cb batches writers w).2.2 ∧ Owned own (populate cb batches writers w).2.1 := by
  induction batches generalizing writers w with
  | nil => exact ⟨hi, hown⟩
  | cons x batches ih =>
    cases x with
    | error e => exact ⟨hi, hown⟩
    | ok t =>
      rcases hw : writerFor cb t.tag writers w with ⟨e | r, w₁⟩
      · rw [populate_unopened hw batches]
        exact ⟨(writerFor_preserves h hown hi hw).1, hown⟩
      · obtain ⟨hi₁, hr⟩ := writerFor_preserves h hown hi hw
        rcases hx : cb.write r t.batch w₁ with ⟨e | u, r', w₂⟩
        · obtain ⟨hi₂, hr'⟩ := h.write (hr r rfl) hi₁ hx
          rw [populate_write_error hw hx batches]
          exact ⟨hi₂, hown.insert hr'⟩
        · obtain ⟨hi₂, hr'⟩ := h.write (hr r rfl) hi₁ hx
          rw [populate_write_ok hw hx batches]
          exact ih (hown.insert hr') hi₂

theorem closeWriters_preserves (h : cb.Preserves I raw own) (into : C → E)
    (entries : List (TypeTag × R)) (hown : ∀ entry ∈ entries, own entry.1 entry.2)
    (firstErr : Option E) {w : ω} (hi : I w) :
    I (closeWriters cb.close into entries firstErr w).2 := by
  induction entries generalizing firstErr w with
  | nil => exact hi
  | cons entry entries ih =>
    obtain ⟨tag, r⟩ := entry
    rw [List.forall_mem_cons] at hown
    rcases hx : cb.close r w with ⟨e | u, w₁⟩
    · have hi₁ := h.close hown.1 hi hx
      rw [closeWriters, hx]
      exact ih hown.2 _ hi₁
    · have hi₁ := h.close hown.1 hi hx
      rw [closeWriters, hx]
      exact ih hown.2 _ hi₁

/-- What every callback preserves, the pipeline does, however it ends. -/
theorem pipeline_preserves (h : cb.Preserves I raw own) (into : C → E)
    (batches : List (Except E TypedBatch)) {w : ω} (hi : I w) :
    I (runWriterPipeline cb into batches w).2 := by
  have hempty : Owned own (.empty : SortedMap TypeTag R) := by
    intro tag r hg
    cases hg
  obtain ⟨hi₁, hown⟩ := populate_preserves h batches hempty hi
  unfold runWriterPipeline closeAll
  rcases hp : populate cb batches .empty w with ⟨result, ws, w₁⟩
  rw [hp] at hi₁ hown
  have hentries : ∀ entry ∈ ws.entries, own entry.1 entry.2 :=
    fun entry hm => hown _ _ (SortedMap.get?_of_mem hm)
  have hi₂ := closeWriters_preserves h into ws.entries hentries none hi₁
  rcases hc : closeWriters cb.close into ws.entries none w₁ with ⟨_ | e, w₂⟩
  · rw [hc] at hi₂
    simp only [hc]
    exact hi₂
  · rw [hc] at hi₂
    simp only [hc]
    exact hi₂

end Invariant

/-! ### Cells that the callbacks change -/

section Replays

variable {ω W R E C ν κ : Type} [DecidableEq ν]

/-- Every call changes the cells as `change` says of its event. -/
structure Callbacks.Replays (cb : Callbacks ω W R E C) (cells : ω → ν → Option κ)
    (change : WriterEvent E C → Change ν κ) (raw : TypeTag → W → Prop) (own : TypeTag → R → Prop) :
    Prop where
  factory : ∀ {tag w x w'}, cb.factory tag w = (x, w') →
    cells w' = replay [change (.factory tag (failureOf x))] (cells w) ∧ ∀ a, x = .ok a → raw tag a
  opened : ∀ {tag a w x w'}, raw tag a → cb.openWriter tag a w = (x, w') →
    cells w' = replay [change (.opened tag (failureOf x))] (cells w) ∧ ∀ r, x = .ok r → own tag r
  write : ∀ {tag r batch w x r' w'}, own tag r → cb.write r batch w = (x, r', w') →
    cells w' = replay [change (.wrote tag batch (failureOf x))] (cells w) ∧ own tag r'
  close : ∀ {tag r w x w'}, own tag r → cb.close r w = (x, w') →
    cells w' = replay [change (.closed tag (failureOf x))] (cells w)

variable {cb : Callbacks ω W R E C} {cells : ω → ν → Option κ}
  {change : WriterEvent E C → Change ν κ} {raw : TypeTag → W → Prop} {own : TypeTag → R → Prop}

theorem Callbacks.Replays.preserves (h : cb.Replays cells change raw own) (start : ν → Option κ) :
    cb.traced.Preserves (fun s => cells s.1 = replay (s.2.map change) start) raw
      (fun tag r => r.1 = tag ∧ own tag r.2) := by
  have hnext : ∀ {w w' : ω} {log : List (WriterEvent E C)} {e : WriterEvent E C},
      cells w = replay (log.map change) start → cells w' = replay [change e] (cells w) →
      cells w' = replay ((log ++ [e]).map change) start := by
    intro w w' log e hi hstep
    rw [List.map_append, replay_append, ← hi]
    exact hstep
  constructor
  · rintro tag ⟨w, log⟩ x ⟨w', log'⟩ hi hx
    rcases hf : cb.factory tag w with ⟨e | a, w₁⟩
    · rw [show cb.traced.factory tag (w, log) = _ from logged_error hf log] at hx
      cases hx
      exact ⟨hnext hi (h.factory hf).1, nofun⟩
    · rw [show cb.traced.factory tag (w, log) = _ from logged_ok hf log] at hx
      cases hx
      exact ⟨hnext hi (h.factory hf).1, (h.factory hf).2⟩
  · rintro tag a ⟨w, log⟩ x ⟨w', log'⟩ hraw hi hx
    rcases ho : cb.openWriter tag a w with ⟨e | r, w₁⟩
    · have hlog : cb.traced.openWriter tag a (w, log) = _ :=
        logged_error (StateAction.run_bind_error ho) log
      rw [hlog] at hx
      cases hx
      exact ⟨hnext hi (h.opened hraw ho).1, nofun⟩
    · have hopen : (do
          let writer ← cb.openWriter tag a
          pure (tag, writer) : StateAction ω E (TypeTag × R)) w = (.ok (tag, r), w₁) :=
        StateAction.run_bind_ok ho
      have hlog : cb.traced.openWriter tag a (w, log) = _ := logged_ok hopen log
      rw [hlog] at hx
      cases hx
      refine ⟨hnext hi (h.opened hraw ho).1, fun r' hr => ?_⟩
      cases hr
      exact ⟨rfl, (h.opened hraw ho).2 r rfl⟩
  · rintro tag ⟨own', r⟩ batch ⟨w, log⟩ x ⟨own'', r'⟩ ⟨w', log'⟩ ⟨htag, hr⟩ hi hx
    cases htag
    rcases hw : cb.write r batch w with ⟨y, r₁, w₁⟩
    rw [show cb.traced.write (own', r) batch (w, log) = _ from traced_write hw log] at hx
    cases hx
    exact ⟨hnext hi (h.write hr hw).1, rfl, (h.write hr hw).2⟩
  · rintro tag ⟨own', r⟩ ⟨w, log⟩ x ⟨w', log'⟩ ⟨htag, hr⟩ hi hx
    cases htag
    rcases hc : cb.close r w with ⟨e | u, w₁⟩
    · rw [show cb.traced.close (own', r) (w, log) = _ from logged_error hc log] at hx
      cases hx
      exact hnext hi (h.close hr hc)
    · rw [show cb.traced.close (own', r) (w, log) = _ from logged_ok hc log] at hx
      cases hx
      exact hnext hi (h.close hr hc)

/-- Tracing changes nothing. -/
theorem pipeline_untraced {into : C → E} {batches : List (Except E TypedBatch)} {w w' : ω}
    {result : Except E Unit} {trace : List (WriterEvent E C)}
    (h : runWriterPipeline cb.traced into batches (w, []) = (result, w', trace)) :
    runWriterPipeline cb into batches w = (result, w') := by
  obtain ⟨x, ws, w₁, log, hrun, hplain, hend⟩ :=
    populate_populated cb batches (Writing.empty (E := E) (C := C) (R := R)) rfl w
  have hown : ∀ entry ∈ ws.entries, entry.2.1 = entry.1 := by
    rintro ⟨tag, writer⟩ hm
    exact hend.own tag writer (SortedMap.get?_of_mem hm)
  obtain ⟨closes, w₂, hclose, hcloseplain, -⟩ := closeWriters_traced cb into ws.entries hown none w₁ log
  unfold runWriterPipeline closeAll at h ⊢
  rw [hrun] at h
  have hplain' : populate cb batches .empty w = (x, plain ws, w₁) := hplain
  rw [hplain']
  simp only [hclose] at h
  have hentries : (plain ws).entries = ws.entries.map fun e => (e.1, e.2.2) := rfl
  simp only [hentries, hcloseplain]
  cases hf : (none : Option E).or ((closes.filterMap WriterEvent.closeFailure).head?.map into) with
  | none =>
    simp only [hf] at h ⊢
    cases h
    rfl
  | some e =>
    simp only [hf] at h ⊢
    cases h
    rfl

/-- The cells after a run are its trace, replayed. -/
theorem pipeline_replays (h : cb.Replays cells change raw own) (into : C → E)
    (batches : List (Except E TypedBatch)) (w : ω) :
    ∃ result w' trace attempts last closed,
      runWriterPipeline cb into batches w = (result, w') ∧
      PipelineCalls batches result trace attempts last closed ∧
      cells w' = replay (trace.map change) (cells w) := by
  obtain ⟨result, w', trace, attempts, last, closed, hrun, hcalls⟩ := pipeline_calls cb into batches w
  refine ⟨result, w', trace, attempts, last, closed, pipeline_untraced hrun, hcalls, ?_⟩
  have hinv := pipeline_preserves (h.preserves (cells w)) into batches (w := (w, [])) rfl
  rw [hrun] at hinv
  exact hinv

end Replays

end ValkeyRdb
