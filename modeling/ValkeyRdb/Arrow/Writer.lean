import ValkeyRdb.Lib.Outcomes
import ValkeyRdb.Lib.SortedMap
import ValkeyRdb.Arrow.Batcher

/-!
# The writer pipeline (writer.rs)

The callbacks act on a world of their own, so they may share state and fail at any call.
What the pipeline does with them is read off the trace of their calls.
-/

namespace ValkeyRdb

open StateAction (run_bind_ok run_bind_error)

/-- The callbacks of `run_writer_pipeline`. A failed write keeps what it did to the
writer. -/
structure Callbacks (ω W R E C : Type) where
  factory : TypeTag → StateAction ω E W
  openWriter : TypeTag → W → StateAction ω E R
  write : R → RecordBatch → ω → Except E Unit × R × ω
  close : R → StateAction ω C Unit

section Pipeline

variable {ω W R E C : Type}

/-- The loop of `close_all` (writer.rs:27-33), with the first error so far. -/
def closeWriters (close : R → StateAction ω C Unit) (into : C → E) :
    List (TypeTag × R) → Option E → ω → Option E × ω
  | [], firstErr, w => (firstErr, w)
  | (_, writer) :: writers, firstErr, w =>
    match close writer w with
    | (.ok (), w') => closeWriters close into writers firstErr w'
    | (.error e, w') => closeWriters close into writers (some (firstErr.getD (into e))) w'

/-- writer.rs:19 -/
def closeAll (close : R → StateAction ω C Unit) (into : C → E) (writers : SortedMap TypeTag R) :
    StateAction ω E Unit := fun w =>
  match closeWriters close into writers.entries none w with
  | (some e, w') => (.error e, w')
  | (none, w') => (.ok (), w')

/-- The writer of a tag, opened at its first batch (writer.rs:73-80). -/
def writerFor (cb : Callbacks ω W R E C) (tag : TypeTag) (writers : SortedMap TypeTag R) :
    StateAction ω E R :=
  match writers.get? tag with
  | some writer => pure writer
  | none => do
    let raw ← cb.factory tag
    cb.openWriter tag raw

/-- The loop over the batches (writer.rs:71-83), with the writers it leaves open. -/
def populate (cb : Callbacks ω W R E C) : List (Except E TypedBatch) → SortedMap TypeTag R → ω →
    Except E Unit × SortedMap TypeTag R × ω
  | [], writers, w => (.ok (), writers, w)
  | .error e :: _, writers, w => (.error e, writers, w)
  | .ok t :: batches, writers, w =>
    match writerFor cb t.tag writers w with
    | (.error e, w') => (.error e, writers, w')
    | (.ok writer, w') =>
      match cb.write writer t.batch w' with
      | (.error e, writer', w'') => (.error e, writers.insert t.tag writer', w'')
      | (.ok (), writer', w'') => populate cb batches (writers.insert t.tag writer') w''

/-- `a.and(b)` on results. -/
def andThen (a b : Except E Unit) : Except E Unit :=
  match a with
  | .ok () => b
  | .error e => .error e

/-- writer.rs:52 -/
def runWriterPipeline (cb : Callbacks ω W R E C) (into : C → E)
    (batches : List (Except E TypedBatch)) : StateAction ω E Unit := fun w =>
  let (populateResult, writers, w') := populate cb batches .empty w
  let (closeResult, w'') := closeAll cb.close into writers w'
  (andThen populateResult closeResult, w'')

/-! ### Traces -/

/-- A call of a callback, and the error it failed with. -/
inductive WriterEvent (E C : Type) where
  | factory (tag : TypeTag) (failed : Option E)
  | opened (tag : TypeTag) (failed : Option E)
  | wrote (tag : TypeTag) (batch : RecordBatch) (failed : Option E)
  | closed (tag : TypeTag) (failed : Option C)

/-- Runs a callback and adds its event to the trace. -/
def logged {α F : Type} (event : Option F → WriterEvent E C) (m : StateAction ω F α) :
    StateAction (ω × List (WriterEvent E C)) F α := fun s =>
  let (x, w) := m s.1
  (x, w, s.2 ++ [event (failureOf x)])

/-- The callbacks with their calls written down. A writer remembers the tag it was opened
for, since `write` and `close` are not told. -/
def Callbacks.traced (cb : Callbacks ω W R E C) :
    Callbacks (ω × List (WriterEvent E C)) W (TypeTag × R) E C where
  factory tag := logged (.factory tag) (cb.factory tag)
  openWriter tag raw := logged (.opened tag) (do
    let writer ← cb.openWriter tag raw
    pure (tag, writer))
  write writer batch s :=
    let (x, writer', w) := cb.write writer.2 batch s.1
    (x, (writer.1, writer'), w, s.2 ++ [.wrote writer.1 batch (failureOf x)])
  close writer := logged (.closed writer.1) (cb.close writer.2)

namespace WriterEvent

def isFactory (tag : TypeTag) : WriterEvent E C → Bool
  | .factory t _ => t == tag
  | _ => false

/-- The failure of a call before the writers are closed. -/
def failure : WriterEvent E C → Option E
  | .factory _ failed | .opened _ failed | .wrote _ _ failed => failed
  | .closed _ _ => none

def closeFailure : WriterEvent E C → Option C
  | .closed _ failed => failed
  | _ => none

def closedTag : WriterEvent E C → Option TypeTag
  | .closed tag _ => some tag
  | _ => none

/-- The batch that the writer of a tag was given. -/
def written (tag : TypeTag) : WriterEvent E C → Option RecordBatch
  | .wrote t batch _ => if t = tag then some batch else none
  | _ => none

end WriterEvent

/-! ### Tracing changes nothing -/

/-- The writers without the tags they remember. -/
abbrev plain (writers : SortedMap TypeTag (TypeTag × R)) : SortedMap TypeTag R :=
  writers.mapValues Prod.snd

theorem plain_insert (writers : SortedMap TypeTag (TypeTag × R)) (tag own : TypeTag) (writer : R) :
    plain (writers.insert tag (own, writer)) = (plain writers).insert tag writer :=
  SortedMap.mapValues_insert _ _ _ _

theorem logged_ok {α F : Type} {event : Option F → WriterEvent E C} {m : StateAction ω F α}
    {w w' : ω} {a : α} (h : m w = (.ok a, w')) (log : List (WriterEvent E C)) :
    logged event m (w, log) = (.ok a, w', log ++ [event none]) := by
  unfold logged
  rw [h]
  rfl

theorem logged_error {α F : Type} {event : Option F → WriterEvent E C} {m : StateAction ω F α}
    {w w' : ω} {e : F} (h : m w = (.error e, w')) (log : List (WriterEvent E C)) :
    logged event m (w, log) = (.error e, w', log ++ [event (some e)]) := by
  unfold logged
  rw [h]
  rfl

/-- What a traced call of `writerFor` does: it has the writer, or goes through `factory`
and `open` as far as they succeed. -/
theorem writerFor_traced (cb : Callbacks ω W R E C) (tag : TypeTag)
    (writers : SortedMap TypeTag (TypeTag × R)) (w : ω) (log : List (WriterEvent E C)) :
    (∃ writer, writers.get? tag = some writer ∧
      writerFor cb.traced tag writers (w, log) = (.ok writer, w, log) ∧
      writerFor cb tag (plain writers) w = (.ok writer.2, w)) ∨
    (writers.get? tag = none ∧ ∃ e w',
      writerFor cb.traced tag writers (w, log) = (.error e, w', log ++ [.factory tag (some e)]) ∧
      writerFor cb tag (plain writers) w = (.error e, w')) ∨
    (writers.get? tag = none ∧ ∃ e w',
      writerFor cb.traced tag writers (w, log) =
        (.error e, w', log ++ [.factory tag none] ++ [.opened tag (some e)]) ∧
      writerFor cb tag (plain writers) w = (.error e, w')) ∨
    (writers.get? tag = none ∧ ∃ writer w',
      writerFor cb.traced tag writers (w, log) =
        (.ok (tag, writer), w', log ++ [.factory tag none] ++ [.opened tag none]) ∧
      writerFor cb tag (plain writers) w = (.ok writer, w')) := by
  unfold writerFor
  rw [SortedMap.get?_mapValues]
  cases hg : writers.get? tag with
  | some writer => exact .inl ⟨writer, rfl, rfl, rfl⟩
  | none =>
    rcases hf : cb.factory tag w with ⟨e | raw, w₁⟩
    · have hlog : cb.traced.factory tag (w, log) = (.error e, w₁, log ++ [.factory tag (some e)]) :=
        logged_error hf log
      exact .inr (.inl ⟨rfl, e, w₁, run_bind_error hlog, run_bind_error hf⟩)
    · have hlog : cb.traced.factory tag (w, log) = (.ok raw, w₁, log ++ [.factory tag none]) :=
        logged_ok hf log
      rcases ho : cb.openWriter tag raw w₁ with ⟨e | writer, w₂⟩
      · have hlog₂ : cb.traced.openWriter tag raw (w₁, log ++ [.factory tag none]) =
            (.error e, w₂, log ++ [.factory tag none] ++ [.opened tag (some e)]) :=
          logged_error (run_bind_error ho) _
        exact .inr (.inr (.inl ⟨rfl, e, w₂, (run_bind_ok hlog).trans hlog₂,
          (run_bind_ok hf).trans ho⟩))
      · have hopen : (do
            let writer ← cb.openWriter tag raw
            pure (tag, writer) : StateAction ω E (TypeTag × R)) w₁ = (.ok (tag, writer), w₂) :=
          run_bind_ok ho
        have hlog₂ : cb.traced.openWriter tag raw (w₁, log ++ [.factory tag none]) =
            (.ok (tag, writer), w₂, log ++ [.factory tag none] ++ [.opened tag none]) :=
          logged_ok hopen _
        exact .inr (.inr (.inr ⟨rfl, writer, w₂, (run_bind_ok hlog).trans hlog₂,
          (run_bind_ok hf).trans ho⟩))

/-! ### The loop over the batches -/

/-- The writers and the trace at a point of the loop, when the batches `handled` have been
given to their writers. -/
structure Writing (writers : SortedMap TypeTag (TypeTag × R)) (log : List (WriterEvent E C))
    (handled : List TypedBatch) : Prop where
  own : ∀ tag writer, writers.get? tag = some writer → writer.1 = tag
  opened : ∀ tag, writers.contains tag = true ↔ .opened tag none ∈ log
  factory : ∀ tag, log.countP (WriterEvent.isFactory tag) =
    if writers.contains tag = true then 1 else 0
  written : ∀ tag, log.filterMap (WriterEvent.written tag) =
    (handled.filter fun t => t.tag == tag).map TypedBatch.batch
  unclosed : log.filterMap WriterEvent.closedTag = []

theorem Writing.empty : Writing (.empty : SortedMap TypeTag (TypeTag × R))
    ([] : List (WriterEvent E C)) [] where
  own := by
    intro tag writer h
    cases h
  opened := by simp [SortedMap.contains]
  factory := by simp [SortedMap.contains]
  written := by simp
  unclosed := rfl

variable {writers : SortedMap TypeTag (TypeTag × R)} {log : List (WriterEvent E C)}
  {handled : List TypedBatch}

theorem Writing.write_open (h : Writing writers log handled) {t : TypedBatch} {writer : TypeTag × R}
    (hg : writers.get? t.tag = some writer) (writer' : R) (failed : Option E) :
    Writing (writers.insert t.tag (writer.1, writer')) (log ++ [.wrote writer.1 t.batch failed])
      (handled ++ [t]) := by
  have hown := h.own t.tag writer hg
  have hopen : writers.contains t.tag = true := by
    unfold SortedMap.contains
    rw [hg]
    rfl
  have hsame : ∀ tag, (writers.insert t.tag (writer.1, writer')).contains tag = true ↔
      writers.contains tag = true := by
    intro tag
    rw [SortedMap.contains_insert]
    constructor
    · rintro (rfl | hc)
      · exact hopen
      · exact hc
    · exact .inr
  constructor
  · intro tag x hx
    by_cases hne : tag = t.tag
    · subst hne
      rw [SortedMap.get?_insert_self] at hx
      cases hx
      exact hown
    · rw [SortedMap.get?_insert_of_ne _ _ hne] at hx
      exact h.own tag x hx
  · intro tag
    rw [hsame, h.opened]
    simp
  · intro tag
    simp only [hsame]
    rw [← h.factory]
    simp [WriterEvent.isFactory]
  · intro tag
    rw [List.filterMap_append, h.written, List.filter_append, List.map_append, hown]
    by_cases hne : t.tag = tag <;> simp [WriterEvent.written, hne]
  · rw [List.filterMap_append, h.unclosed]
    rfl

theorem Writing.write_new (h : Writing writers log handled) {t : TypedBatch}
    (hg : writers.get? t.tag = none) (writer' : R) (failed : Option E) :
    Writing (writers.insert t.tag (t.tag, writer'))
      (log ++ [.factory t.tag none] ++ [.opened t.tag none] ++ [.wrote t.tag t.batch failed])
      (handled ++ [t]) := by
  have hclosed : ¬writers.contains t.tag = true := by
    unfold SortedMap.contains
    rw [hg]
    simp
  constructor
  · intro tag x hx
    by_cases hne : tag = t.tag
    · subst hne
      rw [SortedMap.get?_insert_self] at hx
      cases hx
      rfl
    · rw [SortedMap.get?_insert_of_ne _ _ hne] at hx
      exact h.own tag x hx
  · intro tag
    rw [SortedMap.contains_insert, h.opened]
    simp [or_comm]
  · intro tag
    have hold := h.factory tag
    simp only [List.countP_append, SortedMap.contains_insert, hold]
    by_cases hne : tag = t.tag
    · subst hne
      simp [hclosed, WriterEvent.isFactory]
    · simp [hne, Ne.symm hne, WriterEvent.isFactory]
  · intro tag
    simp only [List.filterMap_append, h.written, List.filter_append, List.map_append]
    by_cases hne : t.tag = tag <;> simp [WriterEvent.written, List.filterMap_cons, hne]
  · simp [h.unclosed, WriterEvent.closedTag]

/-- Where the loop stopped: the batches handled by then, the rest, the result, and a trace
whose only failure, if any, is its last call. -/
inductive Stop : List TypedBatch → List (Except E TypedBatch) → Except E Unit →
    List (WriterEvent E C) → Prop
  | exhausted {hs : List TypedBatch} {l : List (WriterEvent E C)}
      (h : l.filterMap WriterEvent.failure = []) : Stop hs [] (.ok ()) l
  | batch {hs : List TypedBatch} {l : List (WriterEvent E C)} (e : E)
      (rest : List (Except E TypedBatch)) (h : l.filterMap WriterEvent.failure = []) :
      Stop hs (.error e :: rest) (.error e) l
  | factory {hs : List TypedBatch} {l : List (WriterEvent E C)} (t : TypedBatch) (e : E)
      (rest : List (Except E TypedBatch)) (h : l.filterMap WriterEvent.failure = []) :
      Stop hs (.ok t :: rest) (.error e) (l ++ [.factory t.tag (some e)])
  | opened {hs : List TypedBatch} {l : List (WriterEvent E C)} (t : TypedBatch) (e : E)
      (rest : List (Except E TypedBatch)) (h : l.filterMap WriterEvent.failure = []) :
      Stop hs (.ok t :: rest) (.error e) (l ++ [.opened t.tag (some e)])
  | write {hs : List TypedBatch} {l : List (WriterEvent E C)} (t : TypedBatch) (e : E)
      (rest : List (Except E TypedBatch)) (h : l.filterMap WriterEvent.failure = []) :
      Stop (hs ++ [t]) rest (.error e) (l ++ [.wrote t.tag t.batch (some e)])

/-- The writers and the trace when the loop is over. -/
structure Populated (batches : List (Except E TypedBatch)) (result : Except E Unit)
    (writers : SortedMap TypeTag (TypeTag × R)) (log : List (WriterEvent E C)) : Prop where
  own : ∀ tag writer, writers.get? tag = some writer → writer.1 = tag
  opened : ∀ tag, writers.contains tag = true ↔ .opened tag none ∈ log
  factory : ∀ tag, log.countP (WriterEvent.isFactory tag) ≤ 1
  unclosed : log.filterMap WriterEvent.closedTag = []
  stop : ∃ handled rest, batches = handled.map .ok ++ rest ∧ Stop handled rest result log ∧
    ∀ tag, log.filterMap (WriterEvent.written tag) =
      (handled.filter fun t => t.tag == tag).map TypedBatch.batch

theorem Writing.populated (h : Writing writers log handled) {batches rest : List (Except E TypedBatch)}
    {result : Except E Unit} (hb : batches = handled.map .ok ++ rest)
    (hs : Stop handled rest result log) : Populated batches result writers log where
  own := h.own
  opened := h.opened
  factory := by
    intro tag
    rw [h.factory]
    split <;> omega
  unclosed := h.unclosed
  stop := ⟨handled, rest, hb, hs, h.written⟩

theorem Writing.populated_unopened (h : Writing writers log handled) {t : TypedBatch} {e : E}
    {batches rest : List (Except E TypedBatch)} (hg : writers.get? t.tag = none)
    (hb : batches = handled.map .ok ++ .ok t :: rest) {events : List (WriterEvent E C)}
    (he : events = [.factory t.tag (some e)] ∨
      events = [.factory t.tag none] ++ [.opened t.tag (some e)])
    (hs : Stop handled (.ok t :: rest) (.error e) (log ++ events)) :
    Populated batches (.error e) writers (log ++ events) := by
  have hclosed : ¬writers.contains t.tag = true := by
    unfold SortedMap.contains
    rw [hg]
    simp
  have hcount : ∀ tag, events.countP (WriterEvent.isFactory tag) = if t.tag = tag then 1 else 0 := by
    intro tag
    by_cases hne : t.tag = tag <;> rcases he with rfl | rfl <;> simp [WriterEvent.isFactory, hne]
  have hquiet : (∀ tag, .opened tag none ∉ events) ∧
      (∀ tag, events.filterMap (WriterEvent.written tag) = []) ∧
      events.filterMap WriterEvent.closedTag = [] := by
    rcases he with rfl | rfl <;>
      simp [WriterEvent.written, WriterEvent.closedTag, List.filterMap_cons]
  obtain ⟨hopen, hwritten, hunclosed⟩ := hquiet
  constructor
  · exact h.own
  · intro tag
    rw [h.opened, List.mem_append]
    simp [hopen]
  · intro tag
    rw [List.countP_append, h.factory, hcount]
    by_cases hne : t.tag = tag
    · rw [← hne]
      simp [hclosed]
    · simp only [hne, if_false]
      split <;> omega
  · rw [List.filterMap_append, h.unclosed, hunclosed]
    rfl
  · refine ⟨handled, _, hb, hs, fun tag => ?_⟩
    rw [List.filterMap_append, h.written, hwritten, List.append_nil]

theorem populate_unopened {cb : Callbacks ω W R E C} {t : TypedBatch}
    {writers : SortedMap TypeTag R} {w w' : ω} {e : E}
    (h : writerFor cb t.tag writers w = (.error e, w')) (batches : List (Except E TypedBatch)) :
    populate cb (.ok t :: batches) writers w = (.error e, writers, w') := by
  rw [populate, h]

theorem populate_write_error {cb : Callbacks ω W R E C} {t : TypedBatch}
    {writers : SortedMap TypeTag R} {w w₁ w₂ : ω} {e : E} {writer writer' : R}
    (h : writerFor cb t.tag writers w = (.ok writer, w₁))
    (hx : cb.write writer t.batch w₁ = (.error e, writer', w₂))
    (batches : List (Except E TypedBatch)) :
    populate cb (.ok t :: batches) writers w = (.error e, writers.insert t.tag writer', w₂) := by
  rw [populate, h]
  simp only [hx]

theorem populate_write_ok {cb : Callbacks ω W R E C} {t : TypedBatch}
    {writers : SortedMap TypeTag R} {w w₁ w₂ : ω} {writer writer' : R}
    (h : writerFor cb t.tag writers w = (.ok writer, w₁))
    (hx : cb.write writer t.batch w₁ = (.ok (), writer', w₂))
    (batches : List (Except E TypedBatch)) :
    populate cb (.ok t :: batches) writers w =
      populate cb batches (writers.insert t.tag writer') w₂ := by
  rw [populate, h]
  simp only [hx]

theorem traced_write {cb : Callbacks ω W R E C} {writer : TypeTag × R} {writer' : R}
    {batch : RecordBatch} {w w' : ω} {x : Except E Unit}
    (h : cb.write writer.2 batch w = (x, writer', w')) (log : List (WriterEvent E C)) :
    cb.traced.write writer batch (w, log) =
      (x, (writer.1, writer'), w', log ++ [.wrote writer.1 batch (failureOf x)]) := by
  simp only [Callbacks.traced, h]

/-- Before the write of a batch: its writer is there, or the loop is over. -/
theorem Writing.writerFor_cases (h : Writing writers log handled)
    (hclean : log.filterMap WriterEvent.failure = []) (cb : Callbacks ω W R E C) (t : TypedBatch)
    (w : ω) :
    (∃ e w' log', writerFor cb.traced t.tag writers (w, log) = (.error e, w', log') ∧
      writerFor cb t.tag (plain writers) w = (.error e, w') ∧
      ∀ batches, Populated (handled.map .ok ++ .ok t :: batches) (.error e) writers log') ∨
    (∃ writer w' log', writerFor cb.traced t.tag writers (w, log) = (.ok (t.tag, writer), w', log') ∧
      writerFor cb t.tag (plain writers) w = (.ok writer, w') ∧
      log'.filterMap WriterEvent.failure = [] ∧
      ∀ writer' failed, Writing (writers.insert t.tag (t.tag, writer'))
        (log' ++ [.wrote t.tag t.batch failed]) (handled ++ [t])) := by
  have hfactory : (log ++ [WriterEvent.factory t.tag none]).filterMap WriterEvent.failure = [] := by
    rw [List.filterMap_append, hclean]
    rfl
  rcases writerFor_traced cb t.tag writers w log with ⟨writer, hg, ht, hp⟩ |
    ⟨hg, e, w', ht, hp⟩ | ⟨hg, e, w', ht, hp⟩ | ⟨hg, writer, w', ht, hp⟩
  · have hown := h.own t.tag writer hg
    obtain ⟨tag, writer⟩ := writer
    cases hown
    exact .inr ⟨writer, w, log, ht, hp, hclean, fun writer' failed => h.write_open hg writer' failed⟩
  · refine .inl ⟨e, w', _, ht, hp, fun batches => ?_⟩
    exact h.populated_unopened hg rfl (.inl rfl) (.factory t e batches hclean)
  · refine .inl ⟨e, w', _, ht, hp, fun batches => ?_⟩
    rw [List.append_assoc]
    apply h.populated_unopened hg rfl (.inr rfl)
    rw [← List.append_assoc]
    exact .opened t e batches hfactory
  · refine .inr ⟨writer, w', _, ht, hp, ?_, fun writer' failed => h.write_new hg writer' failed⟩
    rw [List.filterMap_append, hfactory]
    rfl

theorem populate_populated (cb : Callbacks ω W R E C) (batches : List (Except E TypedBatch))
    (hw : Writing writers log handled) (hclean : log.filterMap WriterEvent.failure = []) (w : ω) :
    ∃ result writers' w' log',
      populate cb.traced batches writers (w, log) = (result, writers', w', log') ∧
      populate cb batches (plain writers) w = (result, plain writers', w') ∧
      Populated (handled.map .ok ++ batches) result writers' log' := by
  induction batches generalizing writers log handled w with
  | nil => exact ⟨_, _, _, _, rfl, rfl, hw.populated rfl (.exhausted hclean)⟩
  | cons x batches ih =>
    cases x with
    | error e => exact ⟨_, _, _, _, rfl, rfl, hw.populated rfl (.batch e batches hclean)⟩
    | ok t =>
      have hsplit : handled.map Except.ok ++ .ok t :: batches =
          ((handled ++ [t]).map Except.ok ++ batches : List (Except E TypedBatch)) := by simp
      rcases hw.writerFor_cases hclean cb t w with ⟨e, w', log', ht, hp, hend⟩ |
        ⟨writer, w₁, log', ht, hp, hclean', hnext⟩
      · exact ⟨_, _, _, _, populate_unopened ht batches, populate_unopened hp batches, hend batches⟩
      · rcases hx : cb.write writer t.batch w₁ with ⟨e | u, writer', w₂⟩
        · refine ⟨_, _, _, _, populate_write_error ht (traced_write hx log') batches, ?_, ?_⟩
          · rw [populate_write_error hp hx batches, plain_insert]
          · rw [hsplit]
            exact (hnext writer' (some e)).populated rfl (.write t e batches hclean')
        · have hclean₂ : (log' ++ [WriterEvent.wrote t.tag t.batch none]).filterMap WriterEvent.failure = [] := by
            rw [List.filterMap_append, hclean']
            rfl
          obtain ⟨result, writers'', w₃, log'', hrun, hplain, hend⟩ := ih (hnext writer' none) hclean₂ w₂
          refine ⟨result, writers'', w₃, log'', ?_, ?_, ?_⟩
          · rw [populate_write_ok ht (traced_write hx log') batches]
            exact hrun
          · rw [populate_write_ok hp hx batches, ← hplain, plain_insert]
          · rw [hsplit]
            exact hend

/-! ### Closing -/

theorem closeWriters_traced (cb : Callbacks ω W R E C) (into : C → E)
    (entries : List (TypeTag × TypeTag × R)) (hown : ∀ entry ∈ entries, entry.2.1 = entry.1)
    (firstErr : Option E) (w : ω) (log : List (WriterEvent E C)) :
    ∃ closes w',
      closeWriters cb.traced.close into entries firstErr (w, log) =
        (firstErr.or ((closes.filterMap WriterEvent.closeFailure).head?.map into), w', log ++ closes) ∧
      closeWriters cb.close into (entries.map fun e => (e.1, e.2.2)) firstErr w =
        (firstErr.or ((closes.filterMap WriterEvent.closeFailure).head?.map into), w') ∧
      closes.map WriterEvent.closedTag = entries.map fun e => some e.1 := by
  induction entries generalizing firstErr w log with
  | nil => exact ⟨[], w, by simp [closeWriters], by simp [closeWriters], rfl⟩
  | cons entry entries ih =>
    obtain ⟨tag, own, writer⟩ := entry
    cases hown (tag, own, writer) List.mem_cons_self
    have hrest : ∀ e ∈ entries, e.2.1 = e.1 := fun e he => hown e (List.mem_cons_of_mem _ he)
    rcases hx : cb.close writer w with ⟨e | u, w₁⟩
    · have hlog : cb.traced.close (tag, writer) (w, log) =
          (.error e, w₁, log ++ [.closed tag (some e)]) := logged_error hx log
      obtain ⟨closes, w', hrun, hplain, htags⟩ := ih hrest (some (firstErr.getD (into e))) w₁
        (log ++ [.closed tag (some e)])
      refine ⟨.closed tag (some e) :: closes, w', ?_, ?_, ?_⟩
      · simp only [closeWriters, hlog, hrun]
        cases firstErr <;> simp [WriterEvent.closeFailure]
      · simp only [closeWriters, List.map_cons, hx, hplain]
        cases firstErr <;> simp [WriterEvent.closeFailure]
      · rw [List.map_cons, htags]
        rfl
    · have hlog : cb.traced.close (tag, writer) (w, log) = (.ok (), w₁, log ++ [.closed tag none]) :=
        logged_ok hx log
      obtain ⟨closes, w', hrun, hplain, htags⟩ := ih hrest firstErr w₁ (log ++ [.closed tag none])
      refine ⟨.closed tag none :: closes, w', ?_, ?_, ?_⟩
      · simp only [closeWriters, hlog, hrun]
        simp [WriterEvent.closeFailure, List.filterMap_cons]
      · simp only [closeWriters, List.map_cons, hx, hplain]
        simp [WriterEvent.closeFailure, List.filterMap_cons]
      · rw [List.map_cons, htags]
        rfl

/-- The result of the pipeline: the failure that stopped the loop, else the first failure
of a `close`. -/
def pipelineResult (populateResult : Except E Unit) (into : C → E)
    (closes : List (WriterEvent E C)) : Except E Unit :=
  match populateResult, (closes.filterMap WriterEvent.closeFailure).head? with
  | .error e, _ => .error e
  | .ok (), some e => .error (into e)
  | .ok (), none => .ok ()

/-- Every opened writer is finalized, once and after the last write, in tag order; the
first failure of the loop is returned, else the first failure of a `close`. -/
theorem writers_finalized (cb : Callbacks ω W R E C) (into : C → E)
    (batches : List (Except E TypedBatch)) (w : ω) :
    ∃ populateResult populated closes w',
      runWriterPipeline cb.traced into batches (w, []) =
        (pipelineResult populateResult into closes, w', populated ++ closes) ∧
      runWriterPipeline cb into batches w = (pipelineResult populateResult into closes, w') ∧
      (∀ tag, populated.countP (WriterEvent.isFactory tag) ≤ 1) ∧
      (∃ handled rest, batches = handled.map .ok ++ rest ∧
        Stop handled rest populateResult populated ∧
        ∀ tag, populated.filterMap (WriterEvent.written tag) =
          (handled.filter fun t => t.tag == tag).map TypedBatch.batch) ∧
      populated.filterMap WriterEvent.closedTag = [] ∧
      ∃ tags : List TypeTag, closes.map WriterEvent.closedTag = tags.map some ∧
        tags.Pairwise (· < ·) ∧ ∀ tag, tag ∈ tags ↔ .opened tag none ∈ populated := by
  obtain ⟨x, writers, w₁, populated, hrun, hplain, hend⟩ :=
    populate_populated cb batches (Writing.empty (E := E) (C := C) (R := R)) rfl w
  have hown : ∀ entry ∈ writers.entries, entry.2.1 = entry.1 := by
    rintro ⟨tag, writer⟩ hm
    exact hend.own tag writer (SortedMap.get?_of_mem hm)
  obtain ⟨closes, w₂, hclose, hcloseplain, htags⟩ :=
    closeWriters_traced cb into writers.entries hown none w₁ populated
  have hfinal : ∀ {ω' R' : Type} (c : Callbacks ω' W R' E C) (s s₁ s₂ : ω')
      (ws : SortedMap TypeTag R'), populate c batches .empty s = (x, ws, s₁) →
      closeWriters c.close into ws.entries none s₁ =
        (((closes.filterMap WriterEvent.closeFailure).head?.map into), s₂) →
      runWriterPipeline c into batches s = (pipelineResult x into closes, s₂) := by
    intro ω' R' c s s₁ s₂ ws hp hc
    unfold runWriterPipeline closeAll
    rw [hp]
    simp only [hc]
    unfold pipelineResult
    cases x <;> cases (closes.filterMap WriterEvent.closeFailure).head? <;> rfl
  refine ⟨x, populated, closes, w₂, hfinal cb.traced _ _ _ _ hrun hclose,
    hfinal cb _ _ _ _ hplain hcloseplain, hend.factory, hend.stop, hend.unclosed,
    writers.entries.map Prod.fst, ?_, List.pairwise_map.mpr writers.sorted, fun tag => ?_⟩
  · rw [htags, List.map_map]
    rfl
  · rw [← SortedMap.contains_iff_mem_keys]
    exact hend.opened tag

end Pipeline

end ValkeyRdb
