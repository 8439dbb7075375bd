import ValkeyRdb.Arrow.Writer

/-!
# Pipelines that differ in their errors only

Two pipelines whose callbacks do the same to the world and fail together leave the same
world behind; their errors correspond.
-/

namespace ValkeyRdb

/-- The same value, or errors that correspond. -/
inductive Alike {E E' α : Type} (S : E → E' → Prop) : Except E α → Except E' α → Prop
  | ok (a : α) : Alike S (.ok a) (.ok a)
  | error {e : E} {e' : E'} (h : S e e') : Alike S (.error e) (.error e')

section Alike

variable {ω W R E E' C C' : Type} {S : E → E' → Prop}

/-- Two results of an action: alike, in the same world. -/
def AlikeIn {α : Type} (S : E → E' → Prop) (x : Except E α × ω) (x' : Except E' α × ω) : Prop :=
  Alike S x.1 x'.1 ∧ x.2 = x'.2

structure Callbacks.AlikeTo (cb : Callbacks ω W R E C) (into : C → E)
    (cb' : Callbacks ω W R E' C') (into' : C' → E') (S : E → E' → Prop) : Prop where
  factory : ∀ tag w, AlikeIn S (cb.factory tag w) (cb'.factory tag w)
  openWriter : ∀ tag raw w, AlikeIn S (cb.openWriter tag raw w) (cb'.openWriter tag raw w)
  write : ∀ writer batch w, AlikeIn S (cb.write writer batch w) (cb'.write writer batch w)
  close : ∀ writer w, AlikeIn (fun c c' => S (into c) (into' c')) (cb.close writer w)
    (cb'.close writer w)

variable {cb : Callbacks ω W R E C} {cb' : Callbacks ω W R E' C'} {into : C → E} {into' : C' → E'}

theorem writerFor_alike (h : cb.AlikeTo into cb' into' S) (tag : TypeTag)
    (writers : SortedMap TypeTag R) (w : ω) :
    AlikeIn S (writerFor cb tag writers w) (writerFor cb' tag writers w) := by
  unfold writerFor
  cases writers.get? tag with
  | some writer => exact ⟨.ok writer, rfl⟩
  | none =>
    dsimp only
    have hf := h.factory tag w
    rcases hx : cb.factory tag w with ⟨e | raw, w₁⟩ <;>
      rcases hx' : cb'.factory tag w with ⟨e' | raw', w₁'⟩
    · rw [StateAction.run_bind_error hx, StateAction.run_bind_error hx']
      rw [hx, hx'] at hf
      obtain ⟨he, rfl⟩ := hf
      cases he with
      | error hs => exact ⟨.error hs, rfl⟩
    · rw [hx, hx'] at hf
      cases hf.1
    · rw [hx, hx'] at hf
      cases hf.1
    · rw [StateAction.run_bind_ok hx, StateAction.run_bind_ok hx']
      rw [hx, hx'] at hf
      obtain ⟨hraw, rfl⟩ := hf
      cases hraw
      exact h.openWriter tag raw w₁

/-- The loop over batches that are alike. -/
theorem populate_alike (h : cb.AlikeTo into cb' into' S) {batches : List (Except E TypedBatch)}
    {batches' : List (Except E' TypedBatch)} (hb : List.Forall₂ (Alike S) batches batches')
    (writers : SortedMap TypeTag R) (w : ω) :
    AlikeIn S (populate cb batches writers w) (populate cb' batches' writers w) := by
  induction hb generalizing writers w with
  | nil => exact ⟨.ok (), rfl⟩
  | cons hx _ ih =>
    cases hx with
    | error hs => exact ⟨.error hs, rfl⟩
    | ok t =>
      have hw := writerFor_alike h t.tag writers w
      rcases hx : writerFor cb t.tag writers w with ⟨e | writer, w₁⟩ <;>
        rcases hx' : writerFor cb' t.tag writers w with ⟨e' | writer', w₁'⟩ <;>
        rw [hx, hx'] at hw <;> obtain ⟨hres, rfl⟩ := hw <;> cases hres
      · rename_i hs
        simp only [populate, hx, hx']
        exact ⟨.error hs, rfl⟩
      · have hr := h.write writer t.batch w₁
        rcases hy : cb.write writer t.batch w₁ with ⟨e | u, writer₁, w₂⟩ <;>
          rcases hy' : cb'.write writer t.batch w₁ with ⟨e' | u', writer₁', w₂'⟩ <;>
          rw [hy, hy'] at hr <;> obtain ⟨hres, hworld⟩ := hr <;> cases hworld <;> cases hres
        · rename_i hs
          simp only [populate, hx, hx', hy, hy']
          exact ⟨.error hs, rfl⟩
        · simp only [populate, hx, hx', hy, hy']
          exact ih (writers.insert t.tag writer₁) w₂

/-- The first errors of two closing loops. -/
def FirstAlike (S : E → E' → Prop) : Option E → Option E' → Prop
  | none, none => True
  | some e, some e' => S e e'
  | _, _ => False

theorem closeWriters_alike (h : cb.AlikeTo into cb' into' S) (writers : List (TypeTag × R))
    {first : Option E} {first' : Option E'} (hfirst : FirstAlike S first first') (w : ω) :
    FirstAlike S (closeWriters cb.close into writers first w).1
        (closeWriters cb'.close into' writers first' w).1 ∧
      (closeWriters cb.close into writers first w).2 =
        (closeWriters cb'.close into' writers first' w).2 := by
  induction writers generalizing first first' w with
  | nil => exact ⟨hfirst, rfl⟩
  | cons entry writers ih =>
    obtain ⟨tag, writer⟩ := entry
    have hc := h.close writer w
    rcases hx : cb.close writer w with ⟨c | u, w₁⟩ <;>
      rcases hx' : cb'.close writer w with ⟨c' | u', w₁'⟩ <;>
      rw [hx, hx'] at hc <;> obtain ⟨hres, rfl⟩ := hc <;> cases hres
    · rename_i hs
      simp only [closeWriters, hx, hx']
      refine ih ?_ w₁
      cases first with
      | none =>
        cases first' with
        | none => exact hs
        | some e' => exact hfirst.elim
      | some e =>
        cases first' with
        | none => exact hfirst.elim
        | some e' => exact hfirst
    · simp only [closeWriters, hx, hx']
      exact ih hfirst w₁

theorem closeAll_alike (h : cb.AlikeTo into cb' into' S) (writers : SortedMap TypeTag R) (w : ω) :
    AlikeIn S (closeAll cb.close into writers w) (closeAll cb'.close into' writers w) := by
  have hnone : FirstAlike S (none : Option E) (none : Option E') := trivial
  have hloop := closeWriters_alike h writers.entries hnone w
  unfold closeAll
  rcases hx : closeWriters cb.close into writers.entries none w with ⟨e | _, w₁⟩ <;>
    rcases hx' : closeWriters cb'.close into' writers.entries none w with ⟨e' | _, w₁'⟩ <;>
    rw [hx, hx'] at hloop <;> obtain ⟨hfirst, rfl⟩ := hloop
  · exact ⟨.ok (), rfl⟩
  · exact hfirst.elim
  · exact hfirst.elim
  · exact ⟨.error hfirst, rfl⟩

/-- Pipelines with callbacks that are alike, over batches that are alike. -/
theorem pipeline_alike (h : cb.AlikeTo into cb' into' S) {batches : List (Except E TypedBatch)}
    {batches' : List (Except E' TypedBatch)} (hb : List.Forall₂ (Alike S) batches batches') (w : ω) :
    AlikeIn S (runWriterPipeline cb into batches w) (runWriterPipeline cb' into' batches' w) := by
  have hloop := populate_alike h hb .empty w
  unfold runWriterPipeline
  rcases hx : populate cb batches .empty w with ⟨x, writers, w₁⟩
  rcases hx' : populate cb' batches' .empty w with ⟨x', writers', w₁'⟩
  rw [hx, hx'] at hloop
  obtain ⟨hres, hworld⟩ := hloop
  cases hworld
  have hclose := closeAll_alike h writers w₁
  rcases hy : closeAll cb.close into writers w₁ with ⟨y, w₂⟩
  rcases hy' : closeAll cb'.close into' writers w₁ with ⟨y', w₂'⟩
  rw [hy, hy'] at hclose
  simp only [hy, hy']
  refine ⟨?_, hclose.2⟩
  cases hres with
  | ok u => exact hclose.1
  | error hs => exact .error hs

end Alike

end ValkeyRdb
