import ValkeyRdb.Lib.StateAction

/-!
# Changes that a guard stops

A method that makes a change to its object, or fails on the way: `Guarded I e P f m` says
that `m` makes the change `f` where the guard `P` holds, and fails with `e` elsewhere. The
guard of a sequence is that each step's guard holds where the step is made.
-/

namespace ValkeyRdb

namespace StateAction

variable {σ τ ε α β γ : Type}

/-- A method of a part of the object. -/
def zoom (view : σ → τ) (put : τ → σ → σ) (m : StateAction τ ε α) : StateAction σ ε α :=
  fun s => ((m (view s)).1, put (m (view s)).2 s)

theorem bind_bind_run (m : StateAction σ ε α) (f : α → StateAction σ ε β)
    (g : β → StateAction σ ε γ) : m >>= f >>= g = m >>= fun a => f a >>= g := by
  funext s
  simp only [run_bind]
  rcases m s with ⟨_ | a, s'⟩ <;> rfl

theorem map_id_run (m : StateAction σ ε α) : id <$> m = m := by
  funext s
  change (m >>= pure) s = m s
  rw [run_bind]
  rcases m s with ⟨_ | a, s'⟩ <;> rfl

instance : LawfulMonad (StateAction σ ε) :=
  LawfulMonad.mk' (StateAction σ ε) map_id_run (fun _ _ => rfl) bind_bind_run

theorem forM_flatMap {m : β → StateAction σ ε Unit} (f : α → List β) (xs : List α) :
    forM (xs.flatMap f) m = forM xs fun x => forM (f x) m := by
  induction xs with
  | nil => rfl
  | cons x xs ih => rw [List.flatMap_cons, List.forM_append, List.forM_cons, ih]

theorem forM_singleton (m : α → StateAction σ ε Unit) (x : α) : forM [x] m = m x := by
  rw [List.forM_cons]
  exact bind_pure _

/-- On the states of `I`, which `f` does not leave: `m` makes the change `f` where `P`
holds, and fails with `e` elsewhere. -/
def Guarded (I : σ → Prop) (e : ε) (P : σ → Prop) (f : σ → σ) (m : StateAction σ ε Unit) : Prop :=
  ∀ s, I s → I (f s) ∧ (P s → m s = (.ok (), f s)) ∧ (¬ P s → ∃ s', m s = (.error e, s'))

/-- The guard holds at each of the changes, made in turn. -/
def Along (P : α → σ → Prop) (f : α → σ → σ) : List α → σ → Prop
  | [], _ => True
  | x :: xs, s => P x s ∧ Along P f xs (f x s)

section Guarded

variable {I : σ → Prop} {e : ε}

theorem Guarded.pure : Guarded I e (fun _ => True) id (pure () : StateAction σ ε Unit) :=
  fun _ hs => ⟨hs, fun _ => rfl, fun h => absurd trivial h⟩

theorem Guarded.modify {f : σ → σ} (hf : ∀ s, I s → I (f s)) :
    Guarded I e (fun _ => True) f (modify f) :=
  fun s hs => ⟨hf s hs, fun _ => rfl, fun h => absurd trivial h⟩

theorem Guarded.bind {P Q : σ → Prop} {f g : σ → σ} {m m' : StateAction σ ε Unit}
    (h : Guarded I e P f m) (h' : Guarded I e Q g m') :
    Guarded I e (fun s => P s ∧ Q (f s)) (fun s => g (f s)) (m >>= fun _ => m') := by
  intro s hs
  obtain ⟨hI, hok, herror⟩ := h s hs
  obtain ⟨hI', hok', herror'⟩ := h' (f s) hI
  refine ⟨hI', fun ⟨hP, hQ⟩ => ?_, fun hnot => ?_⟩
  · rw [run_bind_ok (hok hP), hok' hQ]
  · by_cases hP : P s
    · obtain ⟨s', hm'⟩ := herror' fun hQ => hnot ⟨hP, hQ⟩
      exact ⟨s', by rw [run_bind_ok (hok hP), hm']⟩
    · obtain ⟨s', hm⟩ := herror hP
      exact ⟨s', run_bind_error hm⟩

theorem Guarded.congr {P Q : σ → Prop} {f g : σ → σ} {m : StateAction σ ε Unit}
    (h : Guarded I e P f m) (hP : ∀ s, I s → (P s ↔ Q s)) (hf : ∀ s, I s → f s = g s) :
    Guarded I e Q g m := by
  intro s hs
  obtain ⟨hI, hok, herror⟩ := h s hs
  rw [hf s hs] at hI hok
  rw [hP s hs] at hok herror
  exact ⟨hI, hok, herror⟩

theorem Guarded.zoom {view : σ → τ} {put : τ → σ → σ} {J : τ → Prop} {P : τ → Prop} {f : τ → τ}
    {m : StateAction τ ε Unit} (h : Guarded J e P f m) (hview : ∀ s, I s → J (view s))
    (hput : ∀ s t, I s → J t → I (put t s)) :
    Guarded I e (fun s => P (view s)) (fun s => put (f (view s)) s) (zoom view put m) := by
  intro s hs
  obtain ⟨hJ, hok, herror⟩ := h (view s) (hview s hs)
  refine ⟨hput s _ hs hJ, fun hP => ?_, fun hP => ?_⟩
  · unfold StateAction.zoom
    rw [hok hP]
  · obtain ⟨t, ht⟩ := herror hP
    unfold StateAction.zoom
    rw [ht]
    exact ⟨put t s, rfl⟩

theorem Guarded.forM {P : α → σ → Prop} {f : α → σ → σ} {m : α → StateAction σ ε Unit}
    (xs : List α) (h : ∀ x ∈ xs, Guarded I e (P x) (f x) (m x)) :
    Guarded I e (Along P f xs) (fun s => xs.foldl (fun s x => f x s) s) (forM xs m) := by
  induction xs with
  | nil => exact Guarded.pure
  | cons x xs ih =>
    have hrest := ih fun y hy => h y (List.mem_cons_of_mem _ hy)
    exact (h x List.mem_cons_self).bind hrest

/-- A guard on the results, which no change undoes, holds all along when it holds of the
last result. -/
theorem along_iff {Q : σ → Prop} {f : α → σ → σ} (xs : List α)
    (hI : ∀ x ∈ xs, ∀ s, I s → I (f x s)) (hQ : ∀ x ∈ xs, ∀ s, I s → Q (f x s) → Q s) {s : σ}
    (hs : I s) (h : Q s) :
    Along (fun x s => Q (f x s)) f xs s ↔ Q (xs.foldl (fun s x => f x s) s) := by
  have hback : ∀ (ys : List α) (s : σ), (∀ y ∈ ys, y ∈ xs) → I s →
      Q (ys.foldl (fun s x => f x s) s) → Q s := by
    intro ys
    induction ys with
    | nil => exact fun s _ _ hlast => hlast
    | cons y ys ih =>
      intro s hsub hs hlast
      have hy := hsub y List.mem_cons_self
      exact hQ y hy s hs (ih (f y s) (fun z hz => hsub z (List.mem_cons_of_mem _ hz)) (hI y hy s hs) hlast)
  suffices hall : ∀ (ys : List α) (s : σ), (∀ y ∈ ys, y ∈ xs) → I s → Q s →
      (Along (fun x s => Q (f x s)) f ys s ↔ Q (ys.foldl (fun s x => f x s) s)) from
    hall xs s (fun _ hx => hx) hs h
  intro ys
  induction ys with
  | nil => exact fun s _ _ h => ⟨fun _ => h, fun _ => trivial⟩
  | cons y ys ih =>
    intro s hsub hs h
    have hy := hsub y List.mem_cons_self
    have htail : ∀ z ∈ ys, z ∈ xs := fun z hz => hsub z (List.mem_cons_of_mem _ hz)
    constructor
    · rintro ⟨hone, hrest⟩
      exact (ih (f y s) htail (hI y hy s hs) hone).mp hrest
    · intro hlast
      have hone := hback ys (f y s) htail (hI y hy s hs) hlast
      exact ⟨hone, (ih (f y s) htail (hI y hy s hs) hone).mpr hlast⟩

end Guarded

end StateAction

end ValkeyRdb
