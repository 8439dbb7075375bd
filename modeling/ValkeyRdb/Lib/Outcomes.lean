import Mathlib.Data.List.Infix

/-!
# Lists of outcomes

What a loop takes of an iterator whose items may be errors: the values up to the first
error, and that error.
-/

namespace ValkeyRdb

section Outcomes

variable {E E' α : Type}

def failureOf : Except E α → Option E
  | .ok _ => none
  | .error e => some e

/-- The result of taking some outcomes up to the first error among them. -/
def firstError : List (Except E α) → Except E Unit
  | [] => .ok ()
  | .error e :: _ => .error e
  | .ok _ :: xs => firstError xs

/-- The values in front of the first error. -/
def untilError : List (Except E α) → List α
  | [] => []
  | .error _ :: _ => []
  | .ok a :: xs => a :: untilError xs

@[simp] theorem failures_ok (as : List α) :
    (as.map (.ok : α → Except E α)).filterMap failureOf = [] := by
  induction as with
  | nil => rfl
  | cons a as ih => exact ih

theorem firstError_eq (xs : List (Except E α)) :
    firstError xs = (xs.filterMap failureOf).head?.elim (.ok ()) .error := by
  induction xs with
  | nil => rfl
  | cons x xs ih =>
    cases x with
    | ok a => exact ih
    | error e => rfl

theorem firstError_behind (as : List α) (e : E) (rest : List (Except E α)) :
    firstError (as.map .ok ++ .error e :: rest) = .error e := by
  induction as with
  | nil => rfl
  | cons a as ih => exact ih

@[simp] theorem untilError_ok (as : List α) : untilError (as.map (.ok : α → Except E α)) = as := by
  induction as with
  | nil => rfl
  | cons a as ih => exact congrArg (a :: ·) ih

@[simp] theorem untilError_behind (as : List α) (e : E) (rest : List (Except E α)) :
    untilError (as.map .ok ++ .error e :: rest) = as := by
  induction as with
  | nil => rfl
  | cons a as ih => exact congrArg (a :: ·) ih

/-- Outcomes are the values in front of the first error, and it and what is behind it. -/
theorem outcomes_cases (xs : List (Except E α)) :
    xs = (untilError xs).map .ok ∨ ∃ e rest, xs = (untilError xs).map .ok ++ .error e :: rest := by
  induction xs with
  | nil => exact .inl rfl
  | cons x xs ih =>
    cases x with
    | error e => exact .inr ⟨e, xs, rfl⟩
    | ok a =>
      rcases ih with h | ⟨e, rest, h⟩
      · exact .inl (congrArg (Except.ok a :: ·) h)
      · exact .inr ⟨e, rest, congrArg (Except.ok a :: ·) h⟩

theorem untilError_values (xs : List (Except E α)) :
    untilError xs <+: xs.filterMap Except.toOption := by
  induction xs with
  | nil => exact List.prefix_rfl
  | cons x xs ih =>
    cases x with
    | error e => exact List.nil_prefix
    | ok a => exact (List.prefix_cons_inj a).mpr ih

theorem untilError_mapError (f : E → E') (xs : List (Except E α)) :
    untilError (xs.map (Except.mapError f)) = untilError xs := by
  induction xs with
  | nil => rfl
  | cons x xs ih =>
    cases x with
    | error e => rfl
    | ok a => exact congrArg (a :: ·) ih

/-- Values that come first come in front of the first error. -/
theorem untilError_leading {as : List α} {xs : List (Except E α)} (h : as.map .ok <+: xs) :
    as <+: untilError xs := by
  obtain ⟨rest, rfl⟩ := h
  induction as with
  | nil => exact List.nil_prefix
  | cons a as ih => exact (List.prefix_cons_inj a).mpr ih

/-- Outcomes that go on behind an error have the same values in front of it. -/
theorem untilError_of_isPrefix {xs ys : List (Except E α)} {e : E} (h : xs ++ [.error e] <+: ys) :
    untilError ys = untilError xs := by
  obtain ⟨rest, rfl⟩ := h
  rw [List.append_assoc, List.singleton_append]
  induction xs with
  | nil => rfl
  | cons x xs ih =>
    cases x with
    | error e' => rfl
    | ok a => exact congrArg (a :: ·) ih

theorem untilError_append_leading (xs ys : List (Except E α)) :
    untilError xs <+: untilError (xs ++ ys) := by
  induction xs with
  | nil => exact List.nil_prefix
  | cons x xs ih =>
    cases x with
    | error e => exact List.prefix_rfl
    | ok a => exact (List.prefix_cons_inj a).mpr ih

end Outcomes

end ValkeyRdb
