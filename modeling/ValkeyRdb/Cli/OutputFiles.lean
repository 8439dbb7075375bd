import ValkeyRdb.Arrow.Metadata
import ValkeyRdb.Arrow.WriterLog
import ValkeyRdb.Cli.ParquetFiles
import ValkeyRdb.Lib.Cells

/-!
# The files of an export (export.rs:25-29, 119-158)

What the calls of the writer pipeline do to the files of an output directory. A file is
what was done to it since it was created.
-/

namespace ValkeyRdb

/-! ### Names -/

/-- args.rs:132 -/
inductive FormatArg where
  | parquet
  | arrowIpc
  | csv
  | json
  deriving DecidableEq

/-- export.rs:119 -/
def FormatArg.ext : FormatArg → Bytes
  | .parquet => asciiBytes "parquet"
  | .arrowIpc => asciiBytes "arrow"
  | .csv => asciiBytes "csv"
  | .json => asciiBytes "json"

def isAsciiAlphanumeric (b : UInt8) : Bool :=
  (48 ≤ b && b ≤ 57) || (65 ≤ b && b ≤ 90) || (97 ≤ b && b ≤ 122)

/-- The check of `--shard-id` (export.rs:25). -/
def shardIdOk (s : Bytes) : Bool := s != [] && s.all fun b => isAsciiAlphanumeric b || b == 45 || b == 95

/-- A shard id that passed the check, or none. -/
def ShardIdChecked (shardId : Option Bytes) : Prop := ∀ s, shardId = some s → shardIdOk s = true

/-- One run of `export` into a directory, as far as its files go. -/
structure Exporter where
  shardId : Option Bytes
  format : FormatArg
  metadata : SortedMap String String
  checked : ShardIdChecked shardId

/-- export.rs:129 -/
def Exporter.filename (x : Exporter) (tag : TypeTag) : Bytes :=
  tag.asStr ++ shardSuffix x.shardId ++ dot ++ x.format.ext

theorem filename_parquet {x : Exporter} (h : x.format = .parquet) (tag : TypeTag) :
    x.filename tag = exportFilename tag x.shardId := by
  have hsuffix : dot ++ FormatArg.parquet.ext = parquetSuffix := by decide
  unfold Exporter.filename exportFilename
  rw [h, List.append_assoc, hsuffix]

/-! A name splits at its first dot, since no part but the first of two holds one. -/

theorem dot_notMem_tag (tag : TypeTag) : (46 : UInt8) ∉ tag.asStr := by
  cases tag <;> decide

theorem dot_notMem_ext (format : FormatArg) : (46 : UInt8) ∉ format.ext := by
  cases format <;> decide

theorem dot_notMem_shardId {s : Bytes} (h : shardIdOk s = true) : (46 : UInt8) ∉ s := by
  intro hm
  unfold shardIdOk at h
  rw [Bool.and_eq_true, List.all_eq_true] at h
  exact absurd (h.2 _ hm) (by decide)

theorem split_first {a a' b b' : Bytes} {d : UInt8} (ha : d ∉ a) (ha' : d ∉ a')
    (h : a ++ d :: b = a' ++ d :: b') : a = a' ∧ b = b' := by
  have htake : ∀ {x y : Bytes}, d ∉ x → (x ++ d :: y).takeWhile (· != d) = x := by
    intro x y hx
    have hkeep : ∀ c ∈ x, (c != d) = true := by
      intro c hc
      refine bne_iff_ne.mpr ?_
      rintro rfl
      exact hx hc
    rw [List.takeWhile_append_of_pos hkeep]
    simp
  have haa : a = a' := by rw [← htake (y := b) ha, h, htake ha']
  subst haa
  exact ⟨rfl, (List.cons.inj (List.append_cancel_left h)).2⟩

theorem ext_injective {f f' : FormatArg} (h : f.ext = f'.ext) : f = f' := by
  cases f <;> cases f' <;> first | rfl | exact absurd h (by decide)

theorem asStr_injective {tag tag' : TypeTag} (h : tag.asStr = tag'.asStr) : tag = tag' := by
  cases tag <;> cases tag' <;> first | rfl | exact absurd h (by decide)

/-- Two exports write to one file only if they agree in the tag, the shard id and the
format. -/
theorem filename_inj {x y : Exporter} {tag tag' : TypeTag} (h : x.filename tag = y.filename tag') :
    tag = tag' ∧ x.shardId = y.shardId ∧ x.format = y.format := by
  have hdot : ∀ b : Bytes, dot ++ b = 46 :: b := fun _ => rfl
  have hname : ∀ (z : Exporter) (t : TypeTag), z.filename t =
      t.asStr ++ 46 :: (match z.shardId with
        | none => z.format.ext
        | some s => s ++ 46 :: z.format.ext) := by
    intro z t
    unfold Exporter.filename
    cases z.shardId with
    | none => simp [shardSuffix, hdot]
    | some s => simp [shardSuffix, hdot]
  rw [hname, hname] at h
  obtain ⟨htag, hrest⟩ := split_first (dot_notMem_tag tag) (dot_notMem_tag tag') h
  have hmixed : ∀ {z : Exporter} {s : Bytes} {f : FormatArg}, s ++ 46 :: z.format.ext = f.ext → False := by
    intro z s f he
    exact dot_notMem_ext f (he ▸ by simp)
  refine ⟨asStr_injective htag, ?_⟩
  cases hx : x.shardId with
  | none =>
    cases hy : y.shardId with
    | none =>
      rw [hx, hy] at hrest
      exact ⟨rfl, ext_injective hrest⟩
    | some s' =>
      rw [hx, hy] at hrest
      exact (hmixed hrest.symm).elim
  | some s =>
    cases hy : y.shardId with
    | none =>
      rw [hx, hy] at hrest
      exact (hmixed hrest).elim
    | some s' =>
      rw [hx, hy] at hrest
      obtain ⟨hs, hext⟩ := split_first (dot_notMem_shardId (x.checked s hx))
        (dot_notMem_shardId (y.checked s' hy)) hrest
      exact ⟨congrArg some hs, ext_injective hext⟩

/-! ### Files -/

/-- What a writer did to its file; `failed` is a call that returned an error. -/
inductive FileCall where
  | opened (format : FormatArg) (tag : TypeTag) (metadata : SortedMap String String)
  | wrote (batch : RecordBatch)
  | closed
  | failed

/-- A file that an export wrote, or any other. -/
inductive StoredFile where
  | written (calls : List FileCall)
  | foreign (contents : Bytes)

abbrev Files := Bytes → Option StoredFile

def StoredFile.add (call : FileCall) : StoredFile → StoredFile
  | written calls => written (calls ++ [call])
  | foreign contents => foreign contents

/-- A call, or the failure of it. -/
def FileCall.unless {F : Type} (failed : Option F) (call : FileCall) : FileCall :=
  if failed.isSome = true then FileCall.failed else call

namespace Exporter

/-- What the `open` of the format is called with; the metadata goes to Parquet files
(writer.rs:160-171). -/
def opened (x : Exporter) (tag : TypeTag) : FileCall :=
  .opened x.format tag (if x.format = .parquet then x.metadata else .empty)

/-- What a call of a callback does to the files. `File::create` makes the file empty. -/
def change {E C : Type} (x : Exporter) (e : WriterEvent E C) : Change Bytes StoredFile where
  name := x.filename e.tag
  effect := match e with
    | .factory _ none => fun _ => some (.written [])
    | .factory _ (some _) => id
    | .opened tag failed => Option.map (·.add (.unless failed (x.opened tag)))
    | .wrote _ batch failed => Option.map (·.add (.unless failed (.wrote batch)))
    | .closed _ failed => Option.map (·.add (.unless failed .closed))

/-- The calls of a writer that was opened for a tag, up to some attempts to write to it. -/
def attempted {E : Type} (x : Exporter) (tag : TypeTag) (attempts : List (Attempt E)) : List FileCall :=
  x.opened tag ::
    (attempts.filter fun a => a.1.tag == tag).map fun a => .unless a.2 (.wrote a.1.batch)

/-- The file of a tag after attempts to write to it and the closing call. -/
def file {E C : Type} (x : Exporter) (tag : TypeTag) (attempts : List (Attempt E))
    (closed : Option C) : StoredFile :=
  .written (x.attempted tag attempts ++ [.unless closed .closed])

/-- The finished file of a tag with some batches. -/
def finished (x : Exporter) (tag : TypeTag) (batches : List RecordBatch) : StoredFile :=
  .written (x.opened tag :: batches.map .wrote ++ [.closed])

end Exporter

/-! ### The files after a run -/

section Run

variable {E C : Type} (x : Exporter)

theorem effectAt_forTag (tag : TypeTag) (trace : List (WriterEvent E C)) (f : Option StoredFile) :
    effectAt (x.filename tag) (trace.map x.change) f =
      effectAt (x.filename tag) ((WriterEvent.forTag tag trace).map x.change) f := by
  rw [← effectAt_filter, List.filter_map]
  congr 2
  apply List.filter_congr
  intro e _
  have hiff : x.filename e.tag = x.filename tag ↔ e.tag = tag :=
    ⟨fun h => (filename_inj h).1, fun h => by rw [h]⟩
  by_cases htag : e.tag = tag <;> simp [Exporter.change, hiff, htag]

theorem effectAt_writes (tag : TypeTag) (attempts : List (Attempt E)) (calls : List FileCall) :
    effectAt (x.filename tag)
        ((attempts.map fun a => (.wrote tag a.1.batch a.2 : WriterEvent E C)).map x.change)
        (some (.written calls)) =
      some (.written (calls ++ attempts.map fun a => .unless a.2 (.wrote a.1.batch))) := by
  induction attempts generalizing calls with
  | nil => simp [effectAt]
  | cons a attempts ih =>
    have hstep : (x.change (.wrote tag a.1.batch a.2 : WriterEvent E C)).effect (some (.written calls)) =
        some (.written (calls ++ [.unless a.2 (.wrote a.1.batch)])) := rfl
    have hname : (x.change (.wrote tag a.1.batch a.2 : WriterEvent E C)).name = x.filename tag := rfl
    rw [List.map_cons, List.map_cons, effectAt, if_pos hname, hstep, ih, List.map_cons,
      List.append_assoc]
    rfl

/-- The calls for a tag up to the closing one make its file, whatever was there before. -/
theorem effectAt_attempts {tag : TypeTag} {attempts : List (Attempt E)}
    (h : ∃ a ∈ attempts, a.1.tag = tag) (f : Option StoredFile) :
    effectAt (x.filename tag) ((tagCalls (C := C) tag attempts).map x.change) f =
      some (.written (x.attempted tag attempts)) := by
  obtain ⟨b, hb, hbtag⟩ := h
  have hmem : b ∈ attempts.filter fun a => a.1.tag == tag :=
    List.mem_filter.mpr ⟨hb, by simp [hbtag]⟩
  unfold tagCalls Exporter.attempted
  cases hf : attempts.filter (fun a => a.1.tag == tag) with
  | nil =>
    rw [hf] at hmem
    cases hmem
  | cons a as =>
    have hopen : ∀ (rest : List (Change Bytes StoredFile)), effectAt (x.filename tag)
        (x.change (.factory tag none : WriterEvent E C) ::
          x.change (.opened tag none : WriterEvent E C) :: rest) f =
        effectAt (x.filename tag) rest (some (.written [x.opened tag])) := by
      intro rest
      simp [effectAt, Exporter.change, WriterEvent.tag, StoredFile.add, FileCall.unless]
    rw [List.map_cons, List.map_cons, hopen, effectAt_writes]
    rfl

theorem effectAt_calls {tag : TypeTag} {attempts : List (Attempt E)}
    (h : ∃ a ∈ attempts, a.1.tag = tag) (closed : Option C) (f : Option StoredFile) :
    effectAt (x.filename tag)
        ((tagCalls tag attempts ++ [.closed tag closed] : List (WriterEvent E C)).map x.change) f =
      some (x.file tag attempts closed) := by
  rw [List.map_append, effectAt_append, effectAt_attempts x h]
  simp [effectAt, Exporter.change, WriterEvent.tag, StoredFile.add, Exporter.file]

/-- A writer that could not be opened is that of a tag without attempts. -/
theorem last_quiet {attempts : List (Attempt E)} {last : List (WriterEvent E C)}
    (h : last = [] ∨ ∃ tag, (∀ a ∈ attempts, a.1.tag ≠ tag) ∧ ∃ e,
      last = [.factory tag (some e)] ∨ last = [.factory tag none, .opened tag (some e)])
    {tag : TypeTag} (hex : ∃ a ∈ attempts, a.1.tag = tag) : WriterEvent.forTag tag last = [] := by
  rcases h with rfl | ⟨other, hnew, e, hlast⟩
  · rfl
  · obtain ⟨a, ha, htag⟩ := hex
    have hne : other ≠ tag := fun heq => hnew a ha (htag.trans heq.symm)
    rcases hlast with rfl | rfl <;> simp [WriterEvent.forTag, WriterEvent.tag, hne]

/-- The calls for a tag with attempts. -/
theorem PipelineCalls.calls_of_attempt {batches : List (Except E TypedBatch)} {result : Except E Unit}
    {trace : List (WriterEvent E C)} {attempts : List (Attempt E)} {last : List (WriterEvent E C)}
    {closed : TypeTag → Option C} (h : PipelineCalls batches result trace attempts last closed)
    {tag : TypeTag} (hex : ∃ a ∈ attempts, a.1.tag = tag) :
    WriterEvent.forTag tag trace = tagCalls tag attempts ++ [.closed tag (closed tag)] := by
  rw [h.calls, if_pos hex, last_quiet h.last_new hex, List.append_nil]

/-- The file of a tag after a whole run: made of what was attempted, or as it was. -/
theorem effectAt_pipeline {batches : List (Except E TypedBatch)} {result : Except E Unit}
    {trace : List (WriterEvent E C)} {attempts : List (Attempt E)} {last : List (WriterEvent E C)}
    {closed : TypeTag → Option C} (h : PipelineCalls batches result trace attempts last closed)
    (tag : TypeTag) (f : Option StoredFile) :
    ((∃ a ∈ attempts, a.1.tag = tag) → effectAt (x.filename tag) (trace.map x.change) f =
      some (x.file tag attempts (closed tag))) ∧
    ((∀ a ∈ attempts, a.1.tag ≠ tag) → last = [] →
      effectAt (x.filename tag) (trace.map x.change) f = f) := by
  have hcalls := h.calls tag
  refine ⟨fun hex => ?_, fun hno hlast => ?_⟩
  · rw [effectAt_forTag, h.calls_of_attempt hex]
    exact effectAt_calls x hex (closed tag) f
  · have hnex : ¬∃ a ∈ attempts, a.1.tag = tag := by
      rintro ⟨a, ha, htag⟩
      exact hno a ha htag
    rw [effectAt_forTag, hcalls, if_neg hnex, tagCalls_nil hno, hlast]
    rfl

end Run

/-! ### Files of a run that succeeded -/

section Complete

variable {E C : Type} (x : Exporter)

/-- The batches of a tag. -/
def tagBatches (tag : TypeTag) (batches : List TypedBatch) : List RecordBatch :=
  (batches.filter fun t => t.tag == tag).map TypedBatch.batch

theorem file_of_written (tag : TypeTag) {attempts : List (Attempt E)}
    (h : ∀ a ∈ attempts, a.1.tag = tag → a.2 = none) :
    x.file tag attempts (none : Option C) = x.finished tag (tagBatches tag (attempts.map Prod.fst)) := by
  have hcalls : ((attempts.filter fun a => a.1.tag == tag).map fun a =>
      FileCall.unless a.2 (.wrote a.1.batch)) =
      (tagBatches tag (attempts.map Prod.fst)).map FileCall.wrote := by
    unfold tagBatches
    rw [List.filter_map, List.map_map, List.map_map]
    apply List.map_congr_left
    intro a ha
    obtain ⟨hmem, htag⟩ := List.mem_filter.mp ha
    simp [h a hmem (beq_iff_eq.mp htag), FileCall.unless]
  unfold Exporter.file Exporter.attempted Exporter.finished
  rw [hcalls]
  rfl

theorem effectAt_complete {batches : List (Except E TypedBatch)} {trace : List (WriterEvent E C)}
    {attempts : List (Attempt E)} {last : List (WriterEvent E C)} {closed : TypeTag → Option C}
    (h : PipelineCalls batches (.ok ()) trace attempts last closed) :
    ∃ ts, batches = ts.map .ok ∧ ∀ tag f, effectAt (x.filename tag) (trace.map x.change) f =
      if ∃ t ∈ ts, t.tag = tag then some (x.finished tag (tagBatches tag ts)) else f := by
  obtain ⟨hall, hlast, hnone, hclosed⟩ := h.all rfl
  have hiff : ∀ tag, (∃ t ∈ attempts.map Prod.fst, t.tag = tag) ↔ ∃ a ∈ attempts, a.1.tag = tag := by
    intro tag
    simp only [List.mem_map, exists_exists_and_eq_and]
  refine ⟨attempts.map Prod.fst, ?_, fun tag f => ?_⟩
  · rw [hall, List.map_map]
    rfl
  · obtain ⟨hmade, hkept⟩ := effectAt_pipeline x h tag f
    by_cases hex : ∃ a ∈ attempts, a.1.tag = tag
    · rw [if_pos ((hiff tag).mpr hex), hmade hex, hclosed tag, file_of_written x tag fun a ha _ => hnone a ha]
    · rw [if_neg (mt (hiff tag).mp hex)]
      exact hkept (fun a ha htag => hex ⟨a, ha, htag⟩) hlast

end Complete

/-! ### Files of a run that may have failed -/

section Left

variable {E C : Type} (x : Exporter)

def FileCall.batch : FileCall → Option RecordBatch
  | .wrote batch => some batch
  | _ => none

/-- A file with the first of some batches. It was closed unless a call failed, and it was not
where the run was unwound. -/
structure LeftBehind (unwound : Prop) (batches : List RecordBatch) (calls : List FileCall) : Prop where
  batches : calls.filterMap FileCall.batch <+: batches
  finished : ¬unwound → calls.getLast? = some .closed ∨ .failed ∈ calls
  unclosed : unwound → .closed ∉ calls

theorem tagBatches_leading (tag : TypeTag) {ts us : List TypedBatch} (h : ts <+: us) :
    tagBatches tag ts <+: tagBatches tag us := by
  unfold tagBatches
  exact (h.filter _).map _

/-- Only the last attempt can have failed, so the batches in the file come first. -/
theorem attempted_batches (tag : TypeTag) {attempts : List (Attempt E)}
    (h : ∀ a ∈ attempts.dropLast, a.2 = none) :
    (x.attempted tag attempts).filterMap FileCall.batch <+:
      tagBatches tag (attempts.map Prod.fst) := by
  have hopened : (x.opened tag).batch = none := rfl
  unfold Exporter.attempted
  rw [List.filterMap_cons, hopened]
  dsimp only
  induction attempts with
  | nil => exact List.nil_prefix
  | cons a attempts ih =>
    cases attempts with
    | nil =>
      obtain ⟨t, failed⟩ := a
      by_cases ht : t.tag = tag
      · cases failed with
        | none => simp [tagBatches, FileCall.unless, FileCall.batch, ht]
        | some e =>
          have hfailed : ([FileCall.failed] : List FileCall).filterMap FileCall.batch = [] := rfl
          simp [FileCall.unless, ht, hfailed]
      · simp [tagBatches, ht]
    | cons b attempts =>
      rw [List.dropLast_cons_cons, List.forall_mem_cons] at h
      have hrest := ih h.2
      obtain ⟨t, failed⟩ := a
      cases h.1
      by_cases ht : t.tag = tag
      · have hcons : tagBatches tag ((t :: (b :: attempts).map Prod.fst)) =
            t.batch :: tagBatches tag ((b :: attempts).map Prod.fst) := by simp [tagBatches, ht]
        rw [List.filter_cons_of_pos (by simp [ht]), List.map_cons, List.map_cons, hcons]
        exact (List.prefix_cons_inj _).mpr hrest
      · have hcons : tagBatches tag ((t :: (b :: attempts).map Prod.fst)) =
            tagBatches tag ((b :: attempts).map Prod.fst) := by simp [tagBatches, ht]
        rw [List.filter_cons_of_neg (by simp [ht]), List.map_cons, hcons]
        exact hrest

theorem attempted_unclosed (tag : TypeTag) (attempts : List (Attempt E)) :
    .closed ∉ x.attempted tag attempts := by
  unfold Exporter.attempted
  simp only [List.mem_cons, List.mem_map, not_or]
  refine ⟨FileCall.noConfusion, ?_⟩
  rintro ⟨⟨t, failed⟩, -, he⟩
  cases failed <;> cases he

theorem LeftBehind.of_failed (unwound : Prop) (batches : List RecordBatch) :
    LeftBehind unwound batches [.failed] where
  batches := List.nil_prefix
  finished _ := .inr (List.mem_singleton_self _)
  unclosed _ h := FileCall.noConfusion (List.mem_singleton.mp h)

/-- A run that closed its writers closed the file. -/
theorem LeftBehind.of_closed {unwound : Prop} (hno : ¬unwound) (tag : TypeTag)
    {attempts : List (Attempt E)} (h : ∀ a ∈ attempts.dropLast, a.2 = none) (closed : Option C) :
    LeftBehind unwound (tagBatches tag (attempts.map Prod.fst))
      (x.attempted tag attempts ++ [.unless closed .closed]) := by
  refine ⟨?_, fun _ => ?_, fun hyes => absurd hyes hno⟩
  · have hlast : ([FileCall.unless closed .closed] : List FileCall).filterMap FileCall.batch = [] := by
      cases closed <;> rfl
    rw [List.filterMap_append, hlast, List.append_nil]
    exact attempted_batches x tag h
  · cases closed with
    | none => exact .inl List.getLast?_concat
    | some e => exact .inr (List.mem_append_right _ (List.mem_singleton_self _))

/-- A run that was unwound left the file open. -/
theorem LeftBehind.of_unwound {unwound : Prop} (hyes : unwound) (tag : TypeTag)
    {attempts : List (Attempt E)} (h : ∀ a ∈ attempts.dropLast, a.2 = none) :
    LeftBehind unwound (tagBatches tag (attempts.map Prod.fst)) (x.attempted tag attempts) where
  batches := attempted_batches x tag h
  finished hno := absurd hyes hno
  unclosed _ := attempted_unclosed x tag attempts

/-- What is left of the file of a tag by the call that ended a run, when none came before
it for the tag. -/
theorem effectAt_last {attempts : List (Attempt E)} {last : List (WriterEvent E C)}
    (h : last = [] ∨ ∃ tag, (∀ a ∈ attempts, a.1.tag ≠ tag) ∧ ∃ e,
      last = [.factory tag (some e)] ∨ last = [.factory tag none, .opened tag (some e)])
    (tag : TypeTag) (f : Option StoredFile) :
    effectAt (x.filename tag) ((WriterEvent.forTag tag last).map x.change) f = f ∨
      effectAt (x.filename tag) ((WriterEvent.forTag tag last).map x.change) f =
        some (.written [.failed]) := by
  rcases h with rfl | ⟨other, -, e, hlast⟩
  · exact .inl rfl
  · by_cases ht : other = tag
    · subst ht
      rcases hlast with rfl | rfl
      · refine .inl ?_
        simp [WriterEvent.forTag, WriterEvent.tag, effectAt, Exporter.change]
      · refine .inr ?_
        simp [WriterEvent.forTag, WriterEvent.tag, effectAt, Exporter.change, StoredFile.add,
          FileCall.unless]
    · refine .inl ?_
      rcases hlast with rfl | rfl <;> simp [WriterEvent.forTag, WriterEvent.tag, effectAt, ht]

/-- What a run that closed its writers leaves of the file of a tag: nothing new, or a file
with the first batches that the run was given for it. -/
theorem effectAt_left {batches : List (Except E TypedBatch)} {result : Except E Unit}
    {trace : List (WriterEvent E C)} {attempts : List (Attempt E)} {last : List (WriterEvent E C)}
    {closed : TypeTag → Option C} (h : PipelineCalls batches result trace attempts last closed)
    {unwound : Prop} (hno : ¬unwound) (tag : TypeTag) (f : Option StoredFile) :
    effectAt (x.filename tag) (trace.map x.change) f = f ∨
      ∃ calls, effectAt (x.filename tag) (trace.map x.change) f = some (.written calls) ∧
        LeftBehind unwound (tagBatches tag (attempts.map Prod.fst)) calls := by
  by_cases hex : ∃ a ∈ attempts, a.1.tag = tag
  · exact .inr ⟨_, (effectAt_pipeline x h tag f).1 hex, .of_closed x hno tag h.stopped (closed tag)⟩
  · have hcalls := h.calls tag
    rw [tagCalls_nil fun a ha ht => hex ⟨a, ha, ht⟩, if_neg hex, List.nil_append, List.append_nil] at hcalls
    rw [effectAt_forTag, hcalls]
    rcases effectAt_last x h.last_new tag f with hsame | hfailed
    · exact .inl hsame
    · exact .inr ⟨_, hfailed, .of_failed _ _⟩

/-- What a run that was unwound leaves of it. -/
theorem effectAt_unwound {R : Type} {batches : List (Except E TypedBatch)} {result : Except E Unit}
    {writers : SortedMap TypeTag (TypeTag × R)} {log : List (WriterEvent E C)}
    {attempts : List (Attempt E)} {last : List (WriterEvent E C)}
    (h : PopulateEnd batches result writers log attempts last) {unwound : Prop} (hyes : unwound)
    (tag : TypeTag) (f : Option StoredFile) :
    effectAt (x.filename tag) (log.map x.change) f = f ∨
      ∃ calls, effectAt (x.filename tag) (log.map x.change) f = some (.written calls) ∧
        LeftBehind unwound (tagBatches tag (attempts.map Prod.fst)) calls := by
  rw [effectAt_forTag, h.calls]
  by_cases hex : ∃ a ∈ attempts, a.1.tag = tag
  · rw [last_quiet h.last_new hex, List.append_nil]
    exact .inr ⟨_, effectAt_attempts x hex f, .of_unwound x hyes tag h.stopped⟩
  · rw [tagCalls_nil fun a ha ht => hex ⟨a, ha, ht⟩, List.nil_append]
    rcases effectAt_last x h.last_new tag f with hsame | hfailed
    · exact .inl hsame
    · exact .inr ⟨_, hfailed, .of_failed _ _⟩

end Left

end ValkeyRdb
