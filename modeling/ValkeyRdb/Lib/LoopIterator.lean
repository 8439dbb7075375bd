import ValkeyRdb.Lib.StateAction

/-!
# Iterators whose `next` is a loop

A `next` that pulls from another iterator until it has something to return is a loop of
rounds. It is run for a number of rounds; `Calls k` says what it yields when every call
gets at least `k` of them.
-/

namespace ValkeyRdb

/-- How a round ends: the loop goes on, or `next` returns. -/
inductive Round (ι : Type) where
  | again
  | ret (o : Option ι)

section

variable {σ ι : Type} {round : σ → Round ι × σ} {stuck : ι}

/-- `next`, for at most `n` rounds; `stuck` when that is not enough. -/
def loopNext (round : σ → Round ι × σ) (stuck : ι) : Nat → σ → Option ι × σ
  | 0, s => (some stuck, s)
  | n + 1, s =>
    match round s with
    | (.again, s') => loopNext round stuck n s'
    | (.ret o, s') => (o, s')

theorem loopNext_again {s s' : σ} (h : round s = (.again, s')) (n : Nat) :
    loopNext round stuck (n + 1) s = loopNext round stuck n s' := by
  rw [loopNext, h]

theorem loopNext_ret {s s' : σ} {o : Option ι} (h : round s = (.ret o, s')) {n : Nat}
    (hn : 1 ≤ n) : loopNext round stuck n s = (o, s') := by
  obtain ⟨m, rfl⟩ : ∃ m, n = m + 1 := ⟨n - 1, by omega⟩
  rw [loopNext, h]

/-- With `k` rounds a call or more, the iterator yields `xs` and ends in `s'`. -/
inductive Calls (round : σ → Round ι × σ) (stuck : ι) (k : Nat) : σ → List ι → σ → Prop
  | done {s s' : σ} (h : ∀ n, k ≤ n → loopNext round stuck n s = (none, s')) :
      Calls round stuck k s [] s'
  | item {s m s' : σ} {x : ι} {xs : List ι}
      (h : ∀ n, k ≤ n → loopNext round stuck n s = (some x, m))
      (ht : Calls round stuck k m xs s') : Calls round stuck k s (x :: xs) s'

theorem Calls.mono {k k' : Nat} {s s' : σ} {xs : List ι} (h : Calls round stuck k s xs s')
    (hk : k ≤ k') : Calls round stuck k' s xs s' := by
  induction h with
  | done h => exact .done fun n hn => h n (hk.trans hn)
  | item h _ ih => exact .item (fun n hn => h n (hk.trans hn)) ih

theorem Calls.yields {k n : Nat} {s s' : σ} {xs : List ι} (h : Calls round stuck k s xs s')
    (hn : k ≤ n) : Yields (loopNext round stuck n) s xs s' := by
  induction h with
  | done h => exact .nil (h n hn)
  | item h _ ih => exact .cons (h n hn) ih

/-- A round without a result costs every call at most one round more. -/
theorem Calls.again {k : Nat} {s m s' : σ} {xs : List ι} (hr : round s = (.again, m))
    (h : Calls round stuck k m xs s') : Calls round stuck (k + 1) s xs s' := by
  have hstep : ∀ n, k + 1 ≤ n → ∃ n', k ≤ n' ∧ loopNext round stuck n s = loopNext round stuck n' m := by
    intro n hn
    obtain ⟨n', rfl⟩ : ∃ n', n = n' + 1 := ⟨n - 1, by omega⟩
    exact ⟨n', by omega, loopNext_again hr n'⟩
  cases h with
  | done h =>
    refine .done fun n hn => ?_
    obtain ⟨n', hn', he⟩ := hstep n hn
    rw [he, h n' hn']
  | item h ht =>
    refine .item (fun n hn => ?_) (ht.mono (Nat.le_succ k))
    obtain ⟨n', hn', he⟩ := hstep n hn
    rw [he, h n' hn']

theorem Calls.emit {k : Nat} {s m s' : σ} {x : ι} {xs : List ι} (hk : 1 ≤ k)
    (hr : round s = (.ret (some x), m)) (h : Calls round stuck k m xs s') :
    Calls round stuck k s (x :: xs) s' :=
  .item (fun _ hn => loopNext_ret hr (hk.trans hn)) h

theorem Calls.finish {k : Nat} {s s' : σ} (hk : 1 ≤ k) (hr : round s = (.ret none, s')) :
    Calls round stuck k s [] s' :=
  .done fun _ hn => loopNext_ret hr (hk.trans hn)

end

/-- The calls that returned the first items, and those that returned the others. -/
theorem Steps.split {σ ι : Type} {next : σ → Option ι × σ} {s s' : σ} {xs ys : List ι}
    (h : Steps next s (xs ++ ys) s') : ∃ m, Steps next s xs m ∧ Steps next m ys s' := by
  induction xs generalizing s with
  | nil => exact ⟨s, .nil s, h⟩
  | cons x xs ih =>
    cases h with
    | cons hx ht =>
      obtain ⟨m, hxs, hys⟩ := ih ht
      exact ⟨m, .cons hx hxs, hys⟩

/-! ### The iterator over a list -/

def listNext {ι : Type} : List ι → Option ι × List ι
  | [] => (none, [])
  | x :: xs => (some x, xs)

theorem yields_listNext {ι : Type} (xs : List ι) : Yields listNext xs xs [] := by
  induction xs with
  | nil => exact .nil rfl
  | cons x xs ih => exact .cons rfl ih

/-! ### Filtering -/

section Filter

variable {σ ι : Type}

/-- A round of a `next` that passes on the items with `keep`. -/
def filterRound (keep : ι → Bool) (next : σ → Option ι × σ) (s : σ) : Round ι × σ :=
  match next s with
  | (some x, s') => if keep x = true then (.ret (some x), s') else (.again, s')
  | (none, s') => (.ret none, s')

theorem Yields.filter {keep : ι → Bool} {next : σ → Option ι × σ} {stuck : ι} {s s' : σ}
    {xs : List ι} (h : Yields next s xs s') :
    Calls (filterRound keep next) stuck (xs.length + 1) s (xs.filter keep) s' := by
  induction xs generalizing s with
  | nil =>
    have hr : filterRound keep next s = (.ret none, s') := by
      unfold filterRound
      simp [h.nil_inv]
    exact .finish (Nat.le_refl 1) hr
  | cons x xs ih =>
    obtain ⟨m, hx, hxs⟩ := h.cons_inv
    have hrest := ih hxs
    cases hk : keep x with
    | true =>
      have hr : filterRound keep next s = (.ret (some x), m) := by
        unfold filterRound
        simp [hx, hk]
      rw [List.filter_cons_of_pos hk]
      exact .emit (by omega) hr (hrest.mono (by simp))
    | false =>
      have hr : filterRound keep next s = (.again, m) := by
        unfold filterRound
        simp [hx, hk]
      rw [List.filter_cons_of_neg (by simp [hk])]
      exact hrest.again hr

end Filter

end ValkeyRdb
