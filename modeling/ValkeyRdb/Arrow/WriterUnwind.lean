import ValkeyRdb.Arrow.WriterInvariant
import ValkeyRdb.Arrow.WriterMatch

/-!
# A writer pipeline that a panic leaves (writer.rs:52-85)

The pipeline pulls its batches from an iterator, and a call of `next` that panics unwinds
past `close_all`: the writers are dropped as they are.
-/

namespace ValkeyRdb

section Unwind

variable {ω W R E C : Type}

/-- `run_writer_pipeline`, where an error with `unwinds` stands for a panic. -/
def runUnwinding (unwinds : E → Bool) (cb : Callbacks ω W R E C) (into : C → E)
    (batches : List (Except E TypedBatch)) : StateAction ω E Unit := fun w =>
  let (populateResult, writers, w') := populate cb batches .empty w
  if (failureOf populateResult).any unwinds = true then (populateResult, w')
  else
    let (closeResult, w'') := closeAll cb.close into writers w'
    (andThen populateResult closeResult, w'')

variable {unwinds : E → Bool} {cb : Callbacks ω W R E C} {into : C → E} {P : E → Prop}

/-- The run is one that closes its writers, or one that a panic among the batches ended. -/
inductive UnwindCase (unwinds : E → Bool) (cb : Callbacks ω W R E C) (into : C → E)
    (batches : List (Except E TypedBatch)) (w : ω) : Except E Unit × ω → Prop
  | closed {result w'} : runWriterPipeline cb into batches w = (result, w') →
      (∀ e, result = .error e → unwinds e = false) →
      UnwindCase unwinds cb into batches w (result, w')
  | unwound {e writers w'} : populate cb batches .empty w = (.error e, writers, w') →
      unwinds e = true → firstError batches = .error e →
      UnwindCase unwinds cb into batches w (.error e, w')

theorem runUnwinding_cases (h : cb.FailsIn into P) (hP : ∀ e, P e → unwinds e = false)
    (batches : List (Except E TypedBatch)) (w : ω) :
    UnwindCase unwinds cb into batches w (runUnwinding unwinds cb into batches w) := by
  have hloop := populate_result h batches .empty w
  unfold runUnwinding
  rcases hp : populate cb batches .empty w with ⟨result, writers, w'⟩
  rw [hp] at hloop
  by_cases hu : (failureOf result).any unwinds = true
  · simp only [hu, if_true]
    cases result with
    | ok u => cases hu
    | error e =>
      refine .unwound hp hu ?_
      rcases hloop with hfirst | ⟨e', he, hfail⟩
      · exact hfirst.symm
      · cases he
        exact absurd ((hP e hfail).symm.trans hu) Bool.false_ne_true
  · simp only [if_neg hu]
    refine .closed ?_ fun e he => ?_
    · unfold runWriterPipeline
      rw [hp]
    · cases result with
      | error e' =>
        cases he
        exact Bool.eq_false_iff.mpr hu
      | ok u =>
        have hclose := closeWriters_error h writers.entries none nofun w'
        unfold closeAll at he
        rcases hc : closeWriters cb.close into writers.entries none w' with ⟨_ | e', w''⟩
        · simp only [hc] at he
          cases he
        · simp only [hc] at he
          cases he
          exact hP _ (hclose _ (by rw [hc]))

theorem unwinding_result (h : cb.FailsIn into P) (hP : ∀ e, P e → unwinds e = false)
    (batches : List (Except E TypedBatch)) (w : ω) :
    (runUnwinding unwinds cb into batches w).1 = firstError batches ∨
      ∃ e, (runUnwinding unwinds cb into batches w).1 = .error e ∧ P e := by
  have hcase := runUnwinding_cases h hP batches w
  generalize runUnwinding unwinds cb into batches w = out at hcase
  cases hcase with
  | closed hrun =>
    have hresult := pipeline_result h batches w
    rwa [hrun] at hresult
  | unwound _ _ hfirst => exact .inl hfirst.symm

theorem unwinding_succeeds (h : cb.Succeeds) (into : C → E) (batches : List (Except E TypedBatch)) (w : ω) :
    (runUnwinding unwinds cb into batches w).1 = firstError batches := by
  have hpopulate := populate_succeeds h batches .empty w
  have hresult := pipeline_succeeds h into batches w
  unfold runWriterPipeline at hresult
  unfold runUnwinding
  rcases hp : populate cb batches .empty w with ⟨result, writers, w'⟩
  rw [hp] at hpopulate hresult
  dsimp only
  split
  · exact hpopulate
  · exact hresult

end Unwind

/-! ### Pipelines that differ in their errors only -/

section Alike

variable {ω W R E E' C C' : Type} {S : E → E' → Prop} {cb : Callbacks ω W R E C}
  {cb' : Callbacks ω W R E' C'} {into : C → E} {into' : C' → E'}

theorem unwinding_alike (h : cb.AlikeTo into cb' into' S) {unwinds : E → Bool} {unwinds' : E' → Bool}
    (hu : ∀ e e', S e e' → unwinds e = unwinds' e') {batches : List (Except E TypedBatch)}
    {batches' : List (Except E' TypedBatch)} (hb : List.Forall₂ (Alike S) batches batches') (w : ω) :
    AlikeIn S (runUnwinding unwinds cb into batches w)
      (runUnwinding unwinds' cb' into' batches' w) := by
  have hloop := populate_alike h hb .empty w
  have hpipeline := pipeline_alike h hb w
  unfold runWriterPipeline at hpipeline
  unfold runUnwinding
  rcases hx : populate cb batches .empty w with ⟨x, writers, w₁⟩
  rcases hx' : populate cb' batches' .empty w with ⟨x', writers', w₁'⟩
  rw [hx, hx'] at hloop hpipeline
  obtain ⟨hres, hworld⟩ := hloop
  cases hworld
  have hsame : (failureOf x).any unwinds = (failureOf x').any unwinds' := by
    cases hres with
    | ok u => rfl
    | error hs => exact hu _ _ hs
  dsimp only
  rw [hsame]
  split
  · exact ⟨hres, rfl⟩
  · exact hpipeline

end Alike

/-! ### What a panic leaves -/

section Replays

variable {ω W R E C ν κ : Type} [DecidableEq ν] {cb : Callbacks ω W R E C} {cells : ω → ν → Option κ}
  {change : WriterEvent E C → Change ν κ} {raw : TypeTag → W → Prop} {own : TypeTag → R → Prop}

/-- The cells behind the loop are its trace, replayed. -/
theorem populate_replays (h : cb.Replays cells change raw own) (batches : List (Except E TypedBatch))
    (w : ω) : ∃ result writers w' traced log attempts last,
      populate cb batches .empty w = (result, writers, w') ∧
      PopulateEnd (R := R) batches result traced log attempts last ∧
      cells w' = replay (log.map change) (cells w) := by
  obtain ⟨result, writers, w', log, hrun, hplain, -⟩ :=
    populate_populated cb batches (Writing.empty (E := E) (C := C) (R := R)) rfl w
  obtain ⟨result', writers', w₁, log', attempts, last, hrun', hend⟩ :=
    populate_ordered cb batches (Ordered.empty (R := R) (E := E) (C := C)) nofun w
  rw [hrun] at hrun'
  cases hrun'
  have hempty : Owned (fun tag r => r.1 = tag ∧ own tag r.2)
      (.empty : SortedMap TypeTag (TypeTag × R)) := by
    intro tag r hg
    cases hg
  have hinv := (populate_preserves (h.preserves (cells w)) batches hempty (w := (w, [])) rfl).1
  rw [hrun] at hinv
  exact ⟨result, _, w', writers, log, attempts, last, hplain, hend, hinv⟩

end Replays

end ValkeyRdb
