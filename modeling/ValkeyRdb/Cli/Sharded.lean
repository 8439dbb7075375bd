import ValkeyRdb.Cli.OutputFiles

/-!
# Exports in parallel (args.rs:87)

A shard id is there "for conflict-free parallel writes". Exports into one directory take
their steps in any order; each makes the files it would have made alone.
-/

namespace ValkeyRdb

section Sharded

variable {E C : Type}

/-- A result and a trace that a run of the pipeline over some batches can have, whatever
its callbacks do. -/
def Traced (batches : List (Except E TypedBatch)) (result : Except E Unit)
    (trace : List (WriterEvent E C)) : Prop :=
  ∃ (ω W R : Type) (cb : Callbacks ω W R E C) (into : C → E) (w w' : ω),
    runWriterPipeline cb.traced into batches (w, []) = (result, w', trace)

theorem Traced.calls {batches : List (Except E TypedBatch)} {result : Except E Unit}
    {trace : List (WriterEvent E C)} (h : Traced batches result trace) :
    ∃ attempts last closed, PipelineCalls batches result trace attempts last closed := by
  obtain ⟨ω, W, R, cb, into, w, w', hrun⟩ := h
  obtain ⟨result', w'', trace', attempts, last, closed, hrun', hcalls⟩ :=
    pipeline_calls cb into batches w
  rw [hrun] at hrun'
  cases hrun'
  exact ⟨attempts, last, closed, hcalls⟩

/-- A run that succeeds finishes a file for each tag of its batches and touches no other. -/
theorem effectAt_ok (x : Exporter) {batches : List (Except E TypedBatch)}
    {trace : List (WriterEvent E C)} (h : Traced batches (.ok ()) trace) :
    ∃ ts, batches = ts.map .ok ∧ ∀ tag f, effectAt (x.filename tag) (trace.map x.change) f =
      if ∃ t ∈ ts, t.tag = tag then some (x.finished tag (tagBatches tag ts)) else f := by
  obtain ⟨attempts, last, closed, hcalls⟩ := h.calls
  exact effectAt_complete x hcalls

section Run

variable {ι : Type} [DecidableEq ι] {exporters : ι → Exporter}

/-- Exports with different names for their files do not see each other. -/
theorem replay_own (hid : ∀ i j, (exporters i).shardId = (exporters j).shardId →
      (exporters i).format = (exporters j).format → i = j)
    (run : List (ι × WriterEvent E C)) (files : Files) (i : ι) (tag : TypeTag) :
    replay (changesOf (fun i => (exporters i).change) run) files ((exporters i).filename tag) =
      replay ((stepsOf i run).map (exporters i).change) files ((exporters i).filename tag) := by
  apply replay_run
  intro j e _ hname
  obtain ⟨-, hshard, hformat⟩ := filename_inj hname
  exact hid j i hshard hformat

omit [DecidableEq ι] in
theorem replay_others {name : Bytes} (hno : ∀ i tag, name ≠ (exporters i).filename tag)
    (run : List (ι × WriterEvent E C)) (files : Files) :
    replay (changesOf (fun i => (exporters i).change) run) files name = files name := by
  apply replay_untouched
  intro i e _ hname
  exact hno i e.tag hname.symm

theorem replay_finished (hid : ∀ i j, (exporters i).shardId = (exporters j).shardId →
      (exporters i).format = (exporters j).format → i = j)
    {run : List (ι × WriterEvent E C)} {i : ι} {batches : List (Except E TypedBatch)}
    (htrace : Traced batches (.ok ()) (stepsOf i run)) (files : Files) :
    ∃ ts, batches = ts.map .ok ∧ ∀ tag,
      replay (changesOf (fun i => (exporters i).change) run) files ((exporters i).filename tag) =
        if ∃ t ∈ ts, t.tag = tag then some ((exporters i).finished tag (tagBatches tag ts))
        else files ((exporters i).filename tag) := by
  obtain ⟨ts, hts, hfiles⟩ := effectAt_ok (exporters i) htrace
  refine ⟨ts, hts, fun tag => ?_⟩
  rw [replay_own hid, replay_apply, hfiles]

end Run

/-- At any point of parallel exports with different shard ids, the files of each are those
of its own steps; an export that is through has finished one file for each tag of its
batches, or what it attempted when it failed; and no other file is touched. -/
theorem shards_conflict_free {ι : Type} [DecidableEq ι] (exporters : ι → Exporter)
    (hid : ∀ i j, (exporters i).shardId = (exporters j).shardId →
      (exporters i).format = (exporters j).format → i = j)
    (batches : ι → List (Except E TypedBatch)) (results : ι → Except E Unit)
    (traces : ι → List (WriterEvent E C)) (htraces : ∀ i, Traced (batches i) (results i) (traces i))
    (run : List (ι × WriterEvent E C)) (files : Files) :
    (∀ i tag, replay (changesOf (fun i => (exporters i).change) run) files ((exporters i).filename tag) =
      replay ((stepsOf i run).map (exporters i).change) files ((exporters i).filename tag)) ∧
    (∀ i, stepsOf i run = traces i → ∃ attempts last closed,
      PipelineCalls (batches i) (results i) (traces i) attempts last closed ∧
      ∀ tag, (∃ a ∈ attempts, a.1.tag = tag) →
        replay (changesOf (fun i => (exporters i).change) run) files ((exporters i).filename tag) =
          some ((exporters i).file tag attempts (closed tag))) ∧
    (∀ i, stepsOf i run = traces i → results i = .ok () → ∃ ts, batches i = ts.map .ok ∧
      ∀ tag, replay (changesOf (fun i => (exporters i).change) run) files ((exporters i).filename tag) =
        if ∃ t ∈ ts, t.tag = tag then some ((exporters i).finished tag (tagBatches tag ts))
        else files ((exporters i).filename tag)) ∧
    (∀ name, (∀ i tag, name ≠ (exporters i).filename tag) →
      replay (changesOf (fun i => (exporters i).change) run) files name = files name) := by
  refine ⟨replay_own hid run files, fun i hthrough => ?_, fun i hthrough hok => ?_, fun name hno => ?_⟩
  · obtain ⟨attempts, last, closed, hcalls⟩ := (htraces i).calls
    refine ⟨attempts, last, closed, hcalls, fun tag hex => ?_⟩
    rw [replay_own hid, hthrough, replay_apply]
    exact (effectAt_pipeline (exporters i) hcalls tag _).1 hex
  · have htrace := htraces i
    rw [hok, ← hthrough] at htrace
    exact replay_finished hid htrace files
  · exact replay_others hno run files

end Sharded

/-! ### Two shards at once -/

def shardBatch : TypedBatch := ⟨.string, ⟨[], []⟩⟩

def shardTrace : List (WriterEvent String String) :=
  [.factory .string none, .opened .string none, .wrote .string shardBatch.batch none,
    .closed .string none]

def twoShards (second : Bool) : Exporter where
  shardId := some (if second = true then [98] else [97])
  format := .parquet
  metadata := .empty
  checked := by
    rintro s ⟨⟩
    cases second <;> decide

/-- Callbacks that do nothing. -/
def quietCallbacks (E : Type) : Callbacks Unit Unit Unit E E where
  factory _ w := (.ok (), w)
  openWriter _ _ w := (.ok (), w)
  write _ _ w := (.ok (), (), w)
  close _ w := (.ok (), w)

theorem shards_conflict_free_two :
    replay (changesOf (fun i => (twoShards i).change)
        (shardTrace.flatMap fun e => [(false, e), (true, e)])) (fun _ => none)
        (asciiBytes "string.b.parquet") =
      some (.written [.opened .parquet .string .empty, .wrote shardBatch.batch, .closed]) := by
  have hid : ∀ i j, (twoShards i).shardId = (twoShards j).shardId →
      (twoShards i).format = (twoShards j).format → i = j := by
    intro i j h _
    cases i <;> cases j <;> first | rfl | exact absurd (Option.some.inj h) (by decide)
  have htraced : ∀ _ : Bool, Traced [.ok shardBatch] (.ok ()) shardTrace := fun _ =>
    ⟨Unit, Unit, Unit, quietCallbacks String, id, (), (), rfl⟩
  have hname : (twoShards true).filename .string = asciiBytes "string.b.parquet" := by decide
  obtain ⟨-, -, hfiles, -⟩ := shards_conflict_free twoShards hid (fun _ => [.ok shardBatch])
    (fun _ => .ok ()) (fun _ => shardTrace) htraced
    (shardTrace.flatMap fun e => [(false, e), (true, e)]) (fun _ => none)
  obtain ⟨ts, hts, hfile⟩ := hfiles true rfl rfl
  cases ts with
  | nil => cases hts
  | cons t rest =>
    cases rest with
    | cons t' rest => cases hts
    | nil =>
      cases hts
      have h := hfile .string
      rw [hname] at h
      rw [h]
      rfl

end ValkeyRdb
