import Mathlib.Data.Finset.Basic
import Mathlib.Data.List.Forall2

/-!
# Lists of names

A list of names is read to the set of what they stand for, up to the first that stands for
nothing.
-/

namespace ValkeyRdb

section NameList

variable {ν α ε : Type} [DecidableEq α] {value : ν → Option α} {unknown : ν → ε}

/-- Reads names from the left into a set. -/
def readNames (value : ν → Option α) (unknown : ν → ε) : List ν → Finset α → Except ε (Finset α)
  | [], set => .ok set
  | name :: names, set =>
    match value name with
    | some x => readNames value unknown names (insert x set)
    | none => .error (unknown name)

/-- It succeeds exactly when all the names stand for something, with what they stand for. -/
theorem readNames_ok_iff {names : List ν} {set out : Finset α} :
    readNames value unknown names set = .ok out ↔
      (∀ name ∈ names, (value name).isSome = true) ∧
        ∀ x, x ∈ out ↔ x ∈ set ∨ ∃ name ∈ names, value name = some x := by
  induction names generalizing set with
  | nil =>
    simp only [readNames, Except.ok.injEq, List.not_mem_nil, false_and, exists_false, or_false,
      implies_true, true_and, false_imp_iff]
    constructor
    · rintro rfl x
      rfl
    · intro h
      ext x
      exact (h x).symm
  | cons name names ih =>
    rw [readNames]
    cases hv : value name with
    | none => simp [hv]
    | some y =>
      simp only [ih, List.forall_mem_cons, hv, Option.isSome_some, true_and, Finset.mem_insert,
        List.exists_mem_cons_iff, Option.some.injEq]
      have hiff : ∀ x, (x = y ∨ x ∈ set) ∨ (∃ n ∈ names, value n = some x) ↔
          x ∈ set ∨ y = x ∨ ∃ n ∈ names, value n = some x := by
        intro x
        rw [eq_comm (a := x), or_comm (a := y = x), or_assoc]
      simp only [hiff]

/-- It fails exactly at a name that stands for nothing when all before it do. -/
theorem readNames_error_iff {names : List ν} {set : Finset α} {e : ε} :
    readNames value unknown names set = .error e ↔
      ∃ before name after, names = before ++ name :: after ∧
        (∀ n ∈ before, (value n).isSome = true) ∧ value name = none ∧ e = unknown name := by
  induction names generalizing set with
  | nil => simp [readNames]
  | cons name names ih =>
    rw [readNames]
    cases hv : value name with
    | none =>
      constructor
      · intro h
        cases h
        exact ⟨[], name, names, rfl, nofun, hv, rfl⟩
      · rintro ⟨before, n, after, hsplit, hbefore, -, he⟩
        cases before with
        | nil =>
          obtain ⟨rfl, -⟩ := List.cons.inj hsplit
          exact congrArg Except.error he.symm
        | cons b before =>
          obtain ⟨rfl, -⟩ := List.cons.inj hsplit
          have hsome := hbefore name List.mem_cons_self
          rw [hv] at hsome
          cases hsome
    | some y =>
      simp only [ih]
      constructor
      · rintro ⟨before, n, after, rfl, hbefore, hn, he⟩
        refine ⟨name :: before, n, after, rfl, ?_, hn, he⟩
        exact List.forall_mem_cons.mpr ⟨by rw [hv]; rfl, hbefore⟩
      · rintro ⟨before, n, after, hsplit, hbefore, hn, he⟩
        cases before with
        | nil =>
          obtain ⟨rfl, -⟩ := List.cons.inj hsplit
          rw [hv] at hn
          cases hn
        | cons b before =>
          obtain ⟨rfl, rfl⟩ := List.cons.inj hsplit
          exact ⟨before, n, after, rfl, (List.forall_mem_cons.mp hbefore).2, hn, he⟩

end NameList

end ValkeyRdb
