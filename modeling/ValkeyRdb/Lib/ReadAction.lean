import ValkeyRdb.Lib.Bytes

/-!
# Lawful read actions over a digesting byte source

A `Source` is the unread part of a byte string together with a running digest of
what was read. A `ReadAction` is a state-and-error computation over a source that
carries two laws: what disappears from the source is exactly what the digest has
absorbed, and, unless the action ran out of input, appending bytes to the source
changes neither the result nor the bytes consumed. The combinators establish the
laws once, so every parser built from them has both.
-/

namespace ValkeyRdb

/-- A byte source: the bytes not read yet and the digest of those read. -/
structure Source (δ : Type) where
  inner : Bytes
  digest : δ
  deriving DecidableEq

variable {δ ε : Type}

/-- The source with `c` appended to its unread bytes. -/
def Source.append (s : Source δ) (c : Bytes) : Source δ := ⟨s.inner ++ c, s.digest⟩

@[simp] theorem Source.append_inner (s : Source δ) (c : Bytes) :
    (s.append c).inner = s.inner ++ c := rfl

@[simp] theorem Source.append_digest (s : Source δ) (c : Bytes) :
    (s.append c).digest = s.digest := rfl

/-- A computation that reads from a source. `upd` absorbs one byte into the
digest and `eof` is the fault of a read past the end. -/
structure ReadAction (upd : δ → UInt8 → δ) (eof : ε) (α : Type) where
  run : Source δ → Except ε α × Source δ
  /-- What left the source is what the digest absorbed. -/
  tracks : ∀ s, ∃ b, s.inner = b ++ (run s).2.inner ∧ (run s).2.digest = b.foldl upd s.digest
  /-- Bytes after the ones an action needed, and the digest, do not matter to it. -/
  stable : ∀ s t c, (run s).1 ≠ .error eof → t.inner = s.inner ++ c →
    (run t).1 = (run s).1 ∧ (run t).2.inner = (run s).2.inner ++ c

namespace ReadAction

variable {upd : δ → UInt8 → δ} {eof : ε} {α β σ : Type}

theorem length_le (p : ReadAction upd eof α) (s : Source δ) :
    (p.run s).2.inner.length ≤ s.inner.length := by
  obtain ⟨b, hb, -⟩ := p.tracks s
  rw [hb, List.length_append]
  omega

/-- The strong form of `stable`: the digest moves the same way too. -/
theorem run_append (p : ReadAction upd eof α) (s : Source δ) (c : Bytes)
    (h : (p.run s).1 ≠ .error eof) :
    p.run (s.append c) = ((p.run s).1, (p.run s).2.append c) := by
  obtain ⟨hval, hrest⟩ := p.stable s (s.append c) c h rfl
  obtain ⟨b, hb, hd⟩ := p.tracks s
  obtain ⟨b', hb', hd'⟩ := p.tracks (s.append c)
  have hbb : b' = b := by
    rw [hrest, Source.append_inner, hb, List.append_assoc] at hb'
    exact (List.append_cancel_right hb').symm
  refine Prod.ext hval ?_
  have hdig : (p.run (s.append c)).2.digest = ((p.run s).2.append c).digest := by
    rw [hd', hbb, Source.append_digest, Source.append_digest, hd]
  cases hs : (p.run (s.append c)).2
  cases hs' : (p.run s).2
  simp_all [Source.append]

/-! ### Combinators -/

protected def pure (a : α) : ReadAction upd eof α where
  run s := (.ok a, s)
  tracks _ := ⟨[], rfl, rfl⟩
  stable _ _ _ _ ht := ⟨rfl, ht⟩

protected def fail (e : ε) : ReadAction upd eof α where
  run s := (.error e, s)
  tracks _ := ⟨[], rfl, rfl⟩
  stable _ _ _ _ ht := ⟨rfl, ht⟩

/-- The run of `p` followed by `f`, before the laws are known. -/
def bindRun (p : ReadAction upd eof α) (f : α → ReadAction upd eof β) (s : Source δ) :
    Except ε β × Source δ :=
  match p.run s with
  | (.ok a, s') => (f a).run s'
  | (.error e, s') => (.error e, s')

theorem bindRun_tracks (p : ReadAction upd eof α) (f : α → ReadAction upd eof β)
    (s : Source δ) : ∃ b, s.inner = b ++ (bindRun p f s).2.inner ∧
      (bindRun p f s).2.digest = b.foldl upd s.digest := by
  obtain ⟨b, hb, hd⟩ := p.tracks s
  rw [bindRun]
  rcases hp : p.run s with ⟨x, s'⟩
  rw [hp] at hb hd
  cases x with
  | error e => exact ⟨b, hb, hd⟩
  | ok a =>
    obtain ⟨b', hb', hd'⟩ := (f a).tracks s'
    refine ⟨b ++ b', ?_, ?_⟩
    · rw [List.append_assoc, ← hb', hb]
    · rw [List.foldl_append, ← hd, hd']

theorem bindRun_stable (p : ReadAction upd eof α) (f : α → ReadAction upd eof β)
    (s t : Source δ) (c : Bytes) (h : (bindRun p f s).1 ≠ .error eof)
    (ht : t.inner = s.inner ++ c) :
    (bindRun p f t).1 = (bindRun p f s).1 ∧
      (bindRun p f t).2.inner = (bindRun p f s).2.inner ++ c := by
  have hp := p.stable s t c
  rw [bindRun] at h ⊢
  rw [bindRun]
  rcases hs : p.run s with ⟨x, s'⟩
  rcases htr : p.run t with ⟨y, t'⟩
  rw [hs] at hp h
  rw [htr] at hp
  cases x with
  | error e =>
    obtain ⟨hy, hi⟩ := hp (by simpa using h) ht
    change y = .error e at hy
    subst hy
    exact ⟨rfl, hi⟩
  | ok a =>
    obtain ⟨hy, hi⟩ := hp (by simp) ht
    change y = .ok a at hy
    subst hy
    exact (f a).stable s' t' c h hi

protected def bind (p : ReadAction upd eof α) (f : α → ReadAction upd eof β) :
    ReadAction upd eof β where
  run := bindRun p f
  tracks := bindRun_tracks p f
  stable := bindRun_stable p f

instance : Monad (ReadAction upd eof) where
  pure := ReadAction.pure
  bind := ReadAction.bind

@[simp] theorem run_pure (a : α) (s : Source δ) :
    (pure a : ReadAction upd eof α).run s = (.ok a, s) := rfl

@[simp] theorem run_fail (e : ε) (s : Source δ) :
    (ReadAction.fail e : ReadAction upd eof α).run s = (.error e, s) := rfl

theorem run_bind (p : ReadAction upd eof α) (f : α → ReadAction upd eof β) (s : Source δ) :
    (p >>= f).run s = match p.run s with
      | (.ok a, s') => (f a).run s'
      | (.error e, s') => (.error e, s') := rfl

theorem run_bind_ok {p : ReadAction upd eof α} {f : α → ReadAction upd eof β}
    {s s' : Source δ} {a : α} (h : p.run s = (.ok a, s')) :
    (p >>= f).run s = (f a).run s' := by rw [run_bind, h]

theorem run_bind_error {p : ReadAction upd eof α} {f : α → ReadAction upd eof β}
    {s s' : Source δ} {e : ε} (h : p.run s = (.error e, s')) :
    (p >>= f).run s = (.error e, s') := by rw [run_bind, h]

theorem bind_eq_ok {p : ReadAction upd eof α} {f : α → ReadAction upd eof β} {s s' : Source δ}
    {b : β} (h : (p >>= f).run s = (.ok b, s')) :
    ∃ a s₁, p.run s = (.ok a, s₁) ∧ (f a).run s₁ = (.ok b, s') := by
  rw [run_bind] at h
  rcases hp : p.run s with ⟨x, s₁⟩
  rw [hp] at h
  cases x with
  | error e => cases h
  | ok a => exact ⟨a, s₁, rfl, h⟩

theorem ext {p q : ReadAction upd eof α} (h : ∀ s, p.run s = q.run s) : p = q := by
  cases p
  cases q
  congr
  funext s
  exact h s

theorem map_id_run (p : ReadAction upd eof α) : id <$> p = p := by
  refine ReadAction.ext fun s => ?_
  change bindRun p (fun a => ReadAction.pure a) s = p.run s
  rw [bindRun]
  rcases p.run s with ⟨x, s'⟩
  cases x <;> rfl

theorem bind_bind_run {γ : Type} (p : ReadAction upd eof α) (f : α → ReadAction upd eof β)
    (g : β → ReadAction upd eof γ) : p >>= f >>= g = p >>= fun a => f a >>= g := by
  refine ReadAction.ext fun s => ?_
  simp only [run_bind]
  rcases p.run s with ⟨x, s'⟩
  cases x <;> rfl

instance : LawfulMonad (ReadAction upd eof) :=
  LawfulMonad.mk' (ReadAction upd eof) map_id_run (fun _ _ => rfl) bind_bind_run

/-- A computation without reads. -/
def lift (x : Except ε α) : ReadAction upd eof α where
  run s := (x, s)
  tracks _ := ⟨[], rfl, rfl⟩
  stable _ _ _ _ ht := ⟨rfl, ht⟩

instance : MonadLift (Except ε) (ReadAction upd eof) := ⟨lift⟩

@[simp] theorem run_lift (x : Except ε α) (s : Source δ) :
    (lift x : ReadAction upd eof α).run s = (x, s) := rfl

@[simp] theorem run_monadLift (x : Except ε α) (s : Source δ) :
    (monadLift x : ReadAction upd eof α).run s = (x, s) := rfl

/-- Reads exactly `n` bytes; a shorter source is read to its end, absorbed, and
reported as `eof`. -/
def readExact (n : Nat) : ReadAction upd eof Bytes where
  run s :=
    (if n ≤ s.inner.length then .ok (s.inner.take n) else .error eof,
      ⟨s.inner.drop n, (s.inner.take n).foldl upd s.digest⟩)
  tracks s := ⟨s.inner.take n, (List.take_append_drop n s.inner).symm, rfl⟩
  stable s t c h ht := by
    have hn : n ≤ s.inner.length := by
      by_contra hlt
      exact h (if_neg hlt)
    have hn' : n ≤ t.inner.length := by
      rw [ht, List.length_append]
      omega
    simp only [if_pos hn, if_pos hn']
    rw [ht, List.take_append_of_le_length hn, List.drop_append_of_le_length hn]
    exact ⟨rfl, rfl⟩

theorem run_readExact (n : Nat) (s : Source δ) :
    (readExact n : ReadAction upd eof Bytes).run s =
      (if n ≤ s.inner.length then .ok (s.inner.take n) else .error eof,
        ⟨s.inner.drop n, (s.inner.take n).foldl upd s.digest⟩) := rfl

/-- `p` performed `n` times, its results in order. -/
def replicate : Nat → ReadAction upd eof α → ReadAction upd eof (List α)
  | 0, _ => pure []
  | n + 1, p => do
    let a ← p
    let as ← replicate n p
    pure (a :: as)

/-- `n` rounds of `f` threading a state. -/
def iterate : Nat → (σ → ReadAction upd eof σ) → σ → ReadAction upd eof σ
  | 0, _, st => pure st
  | n + 1, f, st => do
    let st' ← f st
    iterate n f st'

/-! ### Unbounded loops -/

/-- `body` until it returns `.inr`. A round that reads nothing would repeat for
ever; it and an empty fuel are reported as `dv`. -/
def loopRun (body : σ → ReadAction upd eof (σ ⊕ α)) (dv : ε) :
    Nat → σ → Source δ → Except ε α × Source δ
  | 0, _, s => (.error dv, s)
  | n + 1, st, s =>
    match (body st).run s with
    | (.error e, s') => (.error e, s')
    | (.ok (.inr a), s') => (.ok a, s')
    | (.ok (.inl st'), s') =>
      if s'.inner.length < s.inner.length then loopRun body dv n st' s' else (.error dv, s')

theorem loopRun_tracks (body : σ → ReadAction upd eof (σ ⊕ α)) (dv : ε) (n : Nat) (st : σ)
    (s : Source δ) : ∃ b, s.inner = b ++ (loopRun body dv n st s).2.inner ∧
      (loopRun body dv n st s).2.digest = b.foldl upd s.digest := by
  induction n generalizing st s with
  | zero => exact ⟨[], rfl, rfl⟩
  | succ n ih =>
    obtain ⟨b, hb, hd⟩ := (body st).tracks s
    rw [loopRun]
    rcases hr : (body st).run s with ⟨x, s'⟩
    rw [hr] at hb hd
    rcases x with e | (st' | a)
    · exact ⟨b, hb, hd⟩
    · dsimp only
      split
      · obtain ⟨b', hb', hd'⟩ := ih st' s'
        refine ⟨b ++ b', ?_, ?_⟩
        · rw [List.append_assoc, ← hb', hb]
        · rw [List.foldl_append, ← hd, hd']
      · exact ⟨b, hb, hd⟩
    · exact ⟨b, hb, hd⟩

/-- Fuel beyond the length of the source is never used. -/
theorem loopRun_fuel (body : σ → ReadAction upd eof (σ ⊕ α)) (dv : ε) (n m : Nat) (st : σ)
    (s : Source δ) (hn : s.inner.length < n) (hm : s.inner.length < m) :
    loopRun body dv n st s = loopRun body dv m st s := by
  induction n generalizing m st s with
  | zero => omega
  | succ n ih =>
    obtain ⟨m, rfl⟩ : ∃ k, m = k + 1 := ⟨m - 1, by omega⟩
    rw [loopRun, loopRun]
    rcases (body st).run s with ⟨x, s'⟩
    rcases x with e | (st' | a)
    · rfl
    · dsimp only
      split
      · exact ih m st' s' (by omega) (by omega)
      · rfl
    · rfl

theorem loopRun_stable (body : σ → ReadAction upd eof (σ ⊕ α)) (dv : ε) (n : Nat) (st : σ)
    (s t : Source δ) (c : Bytes) (hn : s.inner.length < n)
    (h : (loopRun body dv n st s).1 ≠ .error eof) (ht : t.inner = s.inner ++ c) (m : Nat)
    (hm : t.inner.length < m) :
    (loopRun body dv m st t).1 = (loopRun body dv n st s).1 ∧
      (loopRun body dv m st t).2.inner = (loopRun body dv n st s).2.inner ++ c := by
  induction n generalizing m st s t with
  | zero => omega
  | succ n ih =>
    obtain ⟨m, rfl⟩ : ∃ k, m = k + 1 := ⟨m - 1, by omega⟩
    have hb := (body st).stable s t c
    rw [loopRun] at h ⊢
    rw [loopRun]
    rcases hs : (body st).run s with ⟨x, s'⟩
    rcases htr : (body st).run t with ⟨y, t'⟩
    rw [hs] at hb h
    rw [htr] at hb
    rcases x with e | (st' | a)
    · obtain ⟨hy, hi⟩ := hb (by simpa using h) ht
      change y = .error e at hy
      subst hy
      exact ⟨rfl, hi⟩
    · obtain ⟨hy, hi⟩ := hb (by simp) ht
      change y = .ok (.inl st') at hy
      change t'.inner = s'.inner ++ c at hi
      subst hy
      have hlen : t'.inner.length < t.inner.length ↔ s'.inner.length < s.inner.length := by
        rw [hi, ht, List.length_append, List.length_append]
        omega
      dsimp only at h ⊢
      by_cases hlt : s'.inner.length < s.inner.length
      · rw [if_pos hlt] at h ⊢
        rw [if_pos (hlen.mpr hlt)]
        exact ih st' s' t' (by omega) h hi m (by have := hlen.mpr hlt; omega)
      · rw [if_neg hlt, if_neg (fun hh => hlt (hlen.mp hh))]
        exact ⟨rfl, hi⟩
    · obtain ⟨hy, hi⟩ := hb (by simp) ht
      change y = .ok (.inr a) at hy
      subst hy
      exact ⟨rfl, hi⟩

/-- `body` repeated from `st` until it returns a result. -/
def loop (body : σ → ReadAction upd eof (σ ⊕ α)) (dv : ε) (st : σ) : ReadAction upd eof α where
  run s := loopRun body dv (s.inner.length + 1) st s
  tracks s := loopRun_tracks body dv _ st s
  stable s t c h ht :=
    loopRun_stable body dv _ st s t c (Nat.lt_succ_self _) h ht _ (Nat.lt_succ_self _)

end ReadAction

end ValkeyRdb
