import Mathlib.Data.List.Basic
import Mathlib.Logic.Function.Basic

/-!
# Parties that write to named cells

A run of several parties is a list of steps, each with the party that takes it. Every step
changes one named cell. A cell that only one party writes to ends as if that party had been
alone.
-/

namespace ValkeyRdb

/-! ### Runs of several parties -/

section Runs

variable {ι α : Type} [DecidableEq ι]

/-- The steps that one party took in a run, in its order. -/
def stepsOf (i : ι) (run : List (ι × α)) : List α :=
  run.filterMap fun e => if e.1 = i then some e.2 else none

theorem stepsOf_cons_self (i : ι) (a : α) (run : List (ι × α)) :
    stepsOf i ((i, a) :: run) = a :: stepsOf i run := by
  simp [stepsOf]

theorem stepsOf_cons_of_ne {i j : ι} (h : j ≠ i) (a : α) (run : List (ι × α)) :
    stepsOf i ((j, a) :: run) = stepsOf i run := by
  simp [stepsOf, h]

theorem mem_stepsOf {i : ι} {a : α} {run : List (ι × α)} : a ∈ stepsOf i run ↔ (i, a) ∈ run := by
  simp [stepsOf, List.mem_filterMap]

end Runs

/-! ### Cells -/

section Cells

variable {ν κ : Type} [DecidableEq ν]

/-- A change of one named cell, which may be empty. -/
structure Change (ν κ : Type) where
  name : ν
  effect : Option κ → Option κ

/-- The cells after some changes. -/
def replay : List (Change ν κ) → (ν → Option κ) → ν → Option κ
  | [], cells => cells
  | c :: changes, cells => replay changes (Function.update cells c.name (c.effect (cells c.name)))

/-- What the changes of one cell do to its content. -/
def effectAt (name : ν) : List (Change ν κ) → Option κ → Option κ
  | [], x => x
  | c :: changes, x => effectAt name changes (if c.name = name then c.effect x else x)

theorem replay_apply (changes : List (Change ν κ)) (cells : ν → Option κ) (name : ν) :
    replay changes cells name = effectAt name changes (cells name) := by
  induction changes generalizing cells with
  | nil => rfl
  | cons c changes ih =>
    rw [replay, ih, effectAt]
    by_cases h : c.name = name
    · subst h
      rw [Function.update_self, if_pos rfl]
    · rw [Function.update_of_ne (Ne.symm h), if_neg h]

theorem replay_append (changes later : List (Change ν κ)) (cells : ν → Option κ) :
    replay (changes ++ later) cells = replay later (replay changes cells) := by
  induction changes generalizing cells with
  | nil => rfl
  | cons c changes ih => exact ih _

theorem effectAt_of_ne {name : ν} {changes : List (Change ν κ)} (h : ∀ c ∈ changes, c.name ≠ name)
    (x : Option κ) : effectAt name changes x = x := by
  induction changes with
  | nil => rfl
  | cons c changes ih =>
    rw [List.forall_mem_cons] at h
    rw [effectAt, if_neg h.1]
    exact ih h.2

theorem effectAt_append (name : ν) (changes later : List (Change ν κ)) (x : Option κ) :
    effectAt name (changes ++ later) x = effectAt name later (effectAt name changes x) := by
  induction changes generalizing x with
  | nil => rfl
  | cons c changes ih => exact ih _

/-- The changes of other cells do not matter. -/
theorem effectAt_filter (name : ν) (changes : List (Change ν κ)) (x : Option κ) :
    effectAt name (changes.filter fun c => c.name = name) x = effectAt name changes x := by
  induction changes generalizing x with
  | nil => rfl
  | cons c changes ih =>
    by_cases h : c.name = name
    · rw [List.filter_cons_of_pos (by simpa using h), effectAt, effectAt, ih]
    · rw [List.filter_cons_of_neg (by simpa using h), effectAt, if_neg h, ih]

end Cells

/-! ### Cells of one party -/

section Parties

variable {ι α ν κ : Type} [DecidableEq ι] [DecidableEq ν] {change : ι → α → Change ν κ}

/-- The changes that the steps of a run make. -/
def changesOf (change : ι → α → Change ν κ) (run : List (ι × α)) : List (Change ν κ) :=
  run.map fun e => change e.1 e.2

/-- At a cell that no other party writes to, a run does what the steps of its party do. -/
theorem effectAt_run {i : ι} {name : ν} {run : List (ι × α)}
    (hown : ∀ j a, (j, a) ∈ run → (change j a).name = name → j = i) (x : Option κ) :
    effectAt name (changesOf change run) x =
      effectAt name ((stepsOf i run).map (change i)) x := by
  induction run generalizing x with
  | nil => rfl
  | cons e run ih =>
    obtain ⟨j, a⟩ := e
    have hrest : ∀ j a, (j, a) ∈ run → (change j a).name = name → j = i :=
      fun j a h => hown j a (List.mem_cons_of_mem _ h)
    rw [changesOf, List.map_cons, effectAt]
    by_cases hj : j = i
    · subst hj
      rw [stepsOf_cons_self, List.map_cons, effectAt]
      exact ih hrest _
    · have hne : (change j a).name ≠ name := fun h => hj (hown j a List.mem_cons_self h)
      rw [stepsOf_cons_of_ne hj, if_neg hne]
      exact ih hrest x

/-- However the steps are interleaved, a cell of one party is as if it had been alone. -/
theorem replay_run {i : ι} {name : ν} {run : List (ι × α)}
    (hown : ∀ j a, (j, a) ∈ run → (change j a).name = name → j = i) (cells : ν → Option κ) :
    replay (changesOf change run) cells name =
      replay ((stepsOf i run).map (change i)) cells name := by
  rw [replay_apply, replay_apply, effectAt_run hown]

omit [DecidableEq ι] in
/-- A cell that no party writes to keeps its content. -/
theorem replay_untouched {name : ν} {run : List (ι × α)}
    (hno : ∀ j a, (j, a) ∈ run → (change j a).name ≠ name) (cells : ν → Option κ) :
    replay (changesOf change run) cells name = cells name := by
  rw [replay_apply]
  apply effectAt_of_ne
  intro c hc
  obtain ⟨⟨j, a⟩, hm, rfl⟩ := List.mem_map.mp hc
  exact hno j a hm

end Parties

end ValkeyRdb
