import ValkeyRdb.Lib.ReadRules

/-!
# State-and-error computations and iterators

A `StateAction` is a method of a mutable object that can fail: the object keeps what
the method did to it up to the failure. The rules come in three judgements: `Keeps R`
(the state only moves along `R`), `Satisfies` (a Hoare triple with a postcondition for
each way out) and `Commutes f` (the method does the same on the changed state). An
unbounded loop runs under a measure that its rounds decrease.
-/

namespace ValkeyRdb

/-- A computation on a state that it keeps when it fails. -/
def StateAction (σ ε α : Type) : Type := σ → Except ε α × σ

namespace StateAction

variable {σ ε α β : Type}

protected def pure (a : α) : StateAction σ ε α := fun s => (.ok a, s)

protected def bind (m : StateAction σ ε α) (f : α → StateAction σ ε β) : StateAction σ ε β :=
  fun s => match m s with
    | (.ok a, s') => f a s'
    | (.error e, s') => (.error e, s')

instance : Monad (StateAction σ ε) where
  pure := StateAction.pure
  bind := StateAction.bind

def fault (e : ε) : StateAction σ ε α := fun s => (.error e, s)

/-- A computation that does not look at the state. -/
def lift (x : Except ε α) : StateAction σ ε α := fun s => (x, s)

instance : MonadLift (Except ε) (StateAction σ ε) := ⟨lift⟩

def get : StateAction σ ε σ := fun s => (.ok s, s)

def modify (f : σ → σ) : StateAction σ ε Unit := fun s => (.ok (), f s)

theorem run_pure (a : α) (s : σ) : (pure a : StateAction σ ε α) s = (.ok a, s) := rfl

theorem run_bind (m : StateAction σ ε α) (f : α → StateAction σ ε β) (s : σ) :
    (m >>= f) s = match m s with
      | (.ok a, s') => f a s'
      | (.error e, s') => (.error e, s') := rfl

theorem run_bind_ok {m : StateAction σ ε α} {f : α → StateAction σ ε β} {s s' : σ} {a : α}
    (h : m s = (.ok a, s')) : (m >>= f) s = f a s' := by rw [run_bind, h]

theorem run_bind_error {m : StateAction σ ε α} {f : α → StateAction σ ε β} {s s' : σ} {e : ε}
    (h : m s = (.error e, s')) : (m >>= f) s = (.error e, s') := by rw [run_bind, h]

theorem run_get_bind (f : σ → StateAction σ ε α) (s : σ) : (get >>= f) s = f s s := rfl

theorem bind_eq_ok {m : StateAction σ ε α} {f : α → StateAction σ ε β} {s s' : σ} {b : β}
    (h : (m >>= f) s = (.ok b, s')) : ∃ a s₁, m s = (.ok a, s₁) ∧ f a s₁ = (.ok b, s') := by
  rw [run_bind] at h
  rcases hm : m s with ⟨x, s₁⟩
  rw [hm] at h
  cases x with
  | error e => cases h
  | ok a => exact ⟨a, s₁, rfl, h⟩

theorem bind_eq_error {m : StateAction σ ε α} {f : α → StateAction σ ε β} {s s' : σ} {e : ε}
    (h : (m >>= f) s = (.error e, s')) :
    m s = (.error e, s') ∨ ∃ a s₁, m s = (.ok a, s₁) ∧ f a s₁ = (.error e, s') := by
  rw [run_bind] at h
  rcases hm : m s with ⟨x, s₁⟩
  rw [hm] at h
  cases x with
  | error e' =>
    obtain ⟨he, rfl⟩ := Prod.mk.inj h
    cases he
    exact .inl rfl
  | ok a => exact .inr ⟨a, s₁, rfl, h⟩

/-! ### The state moves along a relation -/

/-- Whatever happens, the state moves along `R`. -/
def Keeps (R : σ → σ → Prop) (m : StateAction σ ε α) : Prop := ∀ s, R s (m s).2

section Keeps

variable {R : σ → σ → Prop}

theorem Keeps.pure (hrefl : ∀ s, R s s) (a : α) : Keeps R (pure a : StateAction σ ε α) :=
  fun s => hrefl s

theorem Keeps.fault (hrefl : ∀ s, R s s) (e : ε) : Keeps R (fault e : StateAction σ ε α) :=
  fun s => hrefl s

theorem Keeps.lift (hrefl : ∀ s, R s s) (x : Except ε α) :
    Keeps R (lift x : StateAction σ ε α) := fun s => hrefl s

theorem Keeps.get (hrefl : ∀ s, R s s) : Keeps R (get : StateAction σ ε σ) := fun s => hrefl s

theorem Keeps.bind (htrans : ∀ a b c, R a b → R b c → R a c) {m : StateAction σ ε α}
    {f : α → StateAction σ ε β} (hm : Keeps R m) (hf : ∀ a, Keeps R (f a)) :
    Keeps R (m >>= f) := by
  intro s
  have h := hm s
  rw [run_bind]
  generalize m s = o at h ⊢
  obtain ⟨x, s'⟩ := o
  cases x with
  | error e => exact h
  | ok a => exact htrans _ _ _ h (hf a s')

end Keeps

/-! ### Hoare triples -/

/-- From a state with `P`, `m` returns a value with `Q` or fails with `E`. -/
def Satisfies (P : σ → Prop) (m : StateAction σ ε α) (Q : α → σ → Prop) (E : ε → σ → Prop) :
    Prop :=
  ∀ s, P s → match m s with
    | (.ok a, s') => Q a s'
    | (.error e, s') => E e s'

section Satisfies

variable {P : σ → Prop} {Q : α → σ → Prop} {E : ε → σ → Prop}

theorem Satisfies.pure {a : α} (h : ∀ s, P s → Q a s) :
    Satisfies P (pure a : StateAction σ ε α) Q E := h

theorem Satisfies.fault {e : ε} (h : ∀ s, P s → E e s) :
    Satisfies P (fault e : StateAction σ ε α) Q E := h

theorem Satisfies.modify {f : σ → σ} {Q : Unit → σ → Prop} (h : ∀ s, P s → Q () (f s)) :
    Satisfies P (modify f : StateAction σ ε Unit) Q E := h

theorem Satisfies.get {Q : σ → σ → Prop} (h : ∀ s, P s → Q s s) :
    Satisfies P (get : StateAction σ ε σ) Q E := h

theorem Satisfies.bind {m : StateAction σ ε α} {f : α → StateAction σ ε β}
    {R : β → σ → Prop} (hm : Satisfies P m Q E) (hf : ∀ a, Satisfies (Q a) (f a) R E) :
    Satisfies P (m >>= f) R E := by
  intro s hs
  have h := hm s hs
  rw [run_bind]
  generalize m s = o at h ⊢
  obtain ⟨x, s'⟩ := o
  cases x with
  | error e => exact h
  | ok a => exact hf a s' h

theorem Satisfies.mono {m : StateAction σ ε α} {P' : σ → Prop} {Q' : α → σ → Prop}
    {E' : ε → σ → Prop} (h : Satisfies P m Q E) (hp : ∀ s, P' s → P s)
    (hq : ∀ a s, Q a s → Q' a s) (he : ∀ e s, E e s → E' e s) : Satisfies P' m Q' E' := by
  intro s hs
  have hm := h s (hp s hs)
  generalize m s = o at hm ⊢
  obtain ⟨x, s'⟩ := o
  cases x with
  | error e => exact he e s' hm
  | ok a => exact hq a s' hm

end Satisfies

/-! ### Doing the same on a changed state -/

/-- Unless it ends in a bad fault, `m` does on `f s` what it does on `s`. -/
def Commutes (f : σ → σ) (bad : ε → Prop) (m : StateAction σ ε α) : Prop :=
  ∀ s, (∀ e, (m s).1 = .error e → ¬bad e) → m (f s) = ((m s).1, f (m s).2)

section Commutes

variable {f : σ → σ} {bad : ε → Prop}

theorem Commutes.pure (a : α) : Commutes f bad (pure a : StateAction σ ε α) := fun _ _ => rfl

theorem Commutes.fault (e : ε) : Commutes f bad (fault e : StateAction σ ε α) := fun _ _ => rfl

theorem Commutes.lift (x : Except ε α) : Commutes f bad (lift x : StateAction σ ε α) :=
  fun _ _ => rfl

theorem Commutes.modify {g : σ → σ} (h : ∀ s, g (f s) = f (g s)) :
    Commutes f bad (modify g : StateAction σ ε Unit) := by
  intro s _
  change (Except.ok (), g (f s)) = (Except.ok (), f (g s))
  rw [h]

theorem Commutes.bind {m : StateAction σ ε α} {g : α → StateAction σ ε β}
    (hm : Commutes f bad m) (hg : ∀ a, Commutes f bad (g a)) : Commutes f bad (m >>= g) := by
  intro s h
  have hms := hm s
  rw [run_bind] at h
  rw [run_bind, run_bind]
  generalize m s = o at h hms ⊢
  obtain ⟨x, s'⟩ := o
  cases x with
  | error e =>
    rw [hms fun e' he => h e' (by cases he; rfl)]
  | ok a =>
    rw [hms fun e he => by cases he]
    exact hg a s' h

theorem Commutes.get_bind {g : σ → StateAction σ ε β} (hf : ∀ s, g (f s) = g s)
    (hg : ∀ s, Commutes f bad (g s)) : Commutes f bad (get >>= g) := by
  intro s h
  rw [run_get_bind, hf, hg s s h]
  rfl

theorem Commutes.ite {c : Prop} [Decidable c] {m m' : StateAction σ ε α}
    (hm : Commutes f bad m) (hm' : Commutes f bad m') : Commutes f bad (if c then m else m') := by
  split
  · exact hm
  · exact hm'

end Commutes

/-! ### Loops -/

/-- `body` until it returns a value; `d` when the fuel runs out. -/
def loopRun (body : StateAction σ ε (Option α)) (d : ε) : Nat → StateAction σ ε α
  | 0, s => (.error d, s)
  | n + 1, s =>
    match body s with
    | (.ok none, s') => loopRun body d n s'
    | (.ok (some a), s') => (.ok a, s')
    | (.error e, s') => (.error e, s')

/-- `body` until it returns a value, for as many rounds as the measure allows. -/
def loop (measure : σ → Nat) (body : StateAction σ ε (Option α)) (d : ε) :
    StateAction σ ε α := fun s => loopRun body d (measure s + 1) s

/-- A round that goes on decreases the measure. -/
def Descends (measure : σ → Nat) (body : StateAction σ ε (Option α)) : Prop :=
  ∀ s s', body s = (.ok none, s') → measure s' < measure s

section Loop

variable {measure : σ → Nat} {body : StateAction σ ε (Option α)} {d : ε}

theorem loopRun_fuel (hd : Descends measure body) (n m : Nat) (s : σ) (hn : measure s < n)
    (hm : measure s < m) : loopRun body d n s = loopRun body d m s := by
  induction n generalizing m s with
  | zero => omega
  | succ n ih =>
    obtain ⟨m, rfl⟩ : ∃ k, m = k + 1 := ⟨m - 1, by omega⟩
    have hs := hd s
    rw [loopRun, loopRun]
    generalize body s = o at hs ⊢
    obtain ⟨x, s'⟩ := o
    rcases x with e | (_ | a)
    · rfl
    · have hlt := hs s' rfl
      exact ih m s' (by omega) (by omega)
    · rfl

theorem loop_next (hd : Descends measure body) {s s' : σ} (h : body s = (.ok none, s')) :
    loop measure body d s = loop measure body d s' := by
  have hlt := hd s s' h
  change loopRun body d (measure s + 1) s = loopRun body d (measure s' + 1) s'
  rw [loopRun, h]
  exact loopRun_fuel hd _ _ s' hlt (Nat.lt_succ_self _)

theorem loop_done {s s' : σ} {a : α} (h : body s = (.ok (some a), s')) :
    loop measure body d s = (.ok a, s') := by
  change loopRun body d (measure s + 1) s = _
  rw [loopRun, h]

theorem loop_error {s s' : σ} {e : ε} (h : body s = (.error e, s')) :
    loop measure body d s = (.error e, s') := by
  change loopRun body d (measure s + 1) s = _
  rw [loopRun, h]

/-- Rounds of the loop that went on, from a state to a later one. -/
inductive Rounds (body : StateAction σ ε (Option α)) : σ → σ → Prop
  | refl (s : σ) : Rounds body s s
  | head {s s' s'' : σ} (h : body s = (.ok none, s')) (ht : Rounds body s' s'') :
      Rounds body s s''

theorem Rounds.trans {s s' s'' : σ} (h : Rounds body s s') (h' : Rounds body s' s'') :
    Rounds body s s'' := by
  induction h with
  | refl => exact h'
  | head hb _ ih => exact .head hb (ih h')

theorem Rounds.loop_eq (hd : Descends measure body) {s s' : σ} (h : Rounds body s s') :
    loop measure body d s = loop measure body d s' := by
  induction h with
  | refl => rfl
  | head hb _ ih => rw [loop_next hd hb, ih]

/-- A loop goes through some rounds to the one that ends it. -/
theorem loop_cases (hd : Descends measure body) (s : σ) :
    ∃ s₁, Rounds body s s₁ ∧
      ((∃ a s', body s₁ = (.ok (some a), s') ∧ loop measure body d s = (.ok a, s')) ∨
        ∃ e s', body s₁ = (.error e, s') ∧ loop measure body d s = (.error e, s')) := by
  generalize hn : measure s = n
  induction n using Nat.strong_induction_on generalizing s with
  | _ n ih =>
    rcases hb : body s with ⟨x, s'⟩
    rcases x with e | (_ | a)
    · exact ⟨s, .refl s, .inr ⟨e, s', hb, loop_error hb⟩⟩
    · obtain ⟨s₁, hr, h⟩ := ih (measure s') (hn ▸ hd s s' hb) s' rfl
      rw [← loop_next hd hb] at h
      exact ⟨s₁, .head hb hr, h⟩
    · exact ⟨s, .refl s, .inl ⟨a, s', hb, loop_done hb⟩⟩

theorem Rounds.preserves {I : σ → Prop} (hI : ∀ s s', I s → body s = (.ok none, s') → I s')
    {s s' : σ} (h : Rounds body s s') (hs : I s) : I s' := by
  induction h with
  | refl => exact hs
  | head hb _ ih => exact ih (hI _ _ hs hb)

theorem Rounds.along {R : σ → σ → Prop} (hrefl : ∀ s, R s s)
    (htrans : ∀ a b c, R a b → R b c → R a c)
    (hR : ∀ s s', body s = (.ok none, s') → R s s') {s s' : σ} (h : Rounds body s s') :
    R s s' := by
  induction h with
  | refl => exact hrefl _
  | head hb _ ih => exact htrans _ _ _ (hR _ _ hb) ih

theorem Satisfies.loop {I : σ → Prop} {Q : α → σ → Prop} {E : ε → σ → Prop}
    (hd : Descends measure body)
    (hb : Satisfies I body (fun o s => o.elim (I s) (fun a => Q a s)) E) :
    Satisfies I (loop measure body d) Q E := by
  intro s hs
  have hgo : ∀ t t', I t → body t = (.ok none, t') → I t' := by
    intro t t' ht he
    have h := hb t ht
    rwa [he] at h
  obtain ⟨s₁, hr, h⟩ := loop_cases (d := d) hd s
  have h₁ := hb s₁ (hr.preserves hgo hs)
  rcases h with ⟨a, s', he, hl⟩ | ⟨e, s', he, hl⟩
  · rw [he] at h₁
    rwa [hl]
  · rw [he] at h₁
    rwa [hl]

theorem Commutes.loop {f : σ → σ} {bad : ε → Prop} (hd : Descends measure body)
    (hb : Commutes f bad body) : Commutes f bad (loop measure body d) := by
  intro s h
  generalize hn : measure s = n
  induction n using Nat.strong_induction_on generalizing s with
  | _ n ih =>
    have hbs := hb s
    rcases he : body s with ⟨x, s'⟩
    rw [he] at hbs
    rcases x with e | (_ | a)
    · rw [loop_error he] at h ⊢
      exact loop_error (hbs fun e' he' => h e' (by cases he'; rfl))
    · rw [loop_next hd he] at h ⊢
      rw [loop_next hd (hbs fun e he' => by cases he')]
      exact ih (measure s') (hn ▸ hd s s' he) s' h rfl
    · rw [loop_done he]
      exact loop_done (hbs fun e he' => by cases he')

end Loop

end StateAction

/-! ### Iterators -/

section Iter

variable {σ ι : Type} {next : σ → Option ι × σ}

/-- Calls of `next` that each returned an item. -/
inductive Steps (next : σ → Option ι × σ) : σ → List ι → σ → Prop
  | nil (s : σ) : Steps next s [] s
  | cons {s s' s'' : σ} {x : ι} {xs : List ι} (h : next s = (some x, s'))
      (ht : Steps next s' xs s'') : Steps next s (x :: xs) s''

/-- Iterating to the first `none` yields the items `xs` and leaves the state `s'`. -/
def Yields (next : σ → Option ι × σ) (s : σ) (xs : List ι) (s' : σ) : Prop :=
  ∃ m, Steps next s xs m ∧ next m = (none, s')

theorem Yields.nil {s s' : σ} (h : next s = (none, s')) : Yields next s [] s' :=
  ⟨s, .nil s, h⟩

theorem Yields.cons {s s' s'' : σ} {x : ι} {xs : List ι} (h : next s = (some x, s'))
    (ht : Yields next s' xs s'') : Yields next s (x :: xs) s'' := by
  obtain ⟨m, hs, hm⟩ := ht
  exact ⟨m, .cons h hs, hm⟩

theorem Yields.nil_inv {s s' : σ} (h : Yields next s [] s') : next s = (none, s') := by
  obtain ⟨m, hs, hm⟩ := h
  cases hs
  exact hm

theorem Yields.cons_inv {s s'' : σ} {x : ι} {xs : List ι} (h : Yields next s (x :: xs) s'') :
    ∃ s', next s = (some x, s') ∧ Yields next s' xs s'' := by
  obtain ⟨m, hs, hm⟩ := h
  cases hs with
  | cons hx ht => exact ⟨_, hx, m, ht, hm⟩

theorem Steps.append {s s' s'' : σ} {xs ys : List ι} (h : Steps next s xs s')
    (h' : Steps next s' ys s'') : Steps next s (xs ++ ys) s'' := by
  induction h with
  | nil => exact h'
  | cons hx _ ih => exact .cons hx (ih h')

theorem Steps.yields {s s' s'' : σ} {xs ys : List ι} (h : Steps next s xs s')
    (h' : Yields next s' ys s'') : Yields next s (xs ++ ys) s'' := by
  obtain ⟨m, hs, hm⟩ := h'
  exact ⟨m, h.append hs, hm⟩

/-- What an iterator yields is determined by the state it starts in. -/
theorem Yields.unique {s s₁ s₂ : σ} {xs ys : List ι} (h₁ : Yields next s xs s₁)
    (h₂ : Yields next s ys s₂) : xs = ys ∧ s₁ = s₂ := by
  induction xs generalizing s ys with
  | nil =>
    have hn := h₁.nil_inv
    cases ys with
    | nil =>
      rw [h₂.nil_inv] at hn
      exact ⟨rfl, (Prod.mk.inj hn).2.symm⟩
    | cons y ys =>
      obtain ⟨s', hs, -⟩ := h₂.cons_inv
      rw [hn] at hs
      cases hs
  | cons x xs ih =>
    obtain ⟨s', hs, ht⟩ := h₁.cons_inv
    cases ys with
    | nil =>
      rw [h₂.nil_inv] at hs
      cases hs
    | cons y ys =>
      obtain ⟨t', hs', ht'⟩ := h₂.cons_inv
      rw [hs] at hs'
      cases hs'
      obtain ⟨rfl, he⟩ := ih ht ht'
      exact ⟨rfl, he⟩

/-- Items of some first calls are a prefix of all the items. -/
theorem Steps.isPrefix {s m s' : σ} {xs ys : List ι} (h : Steps next s xs m)
    (hy : Yields next s ys s') : xs <+: ys := by
  induction h generalizing ys with
  | nil => exact List.nil_prefix
  | cons hx _ ih =>
    cases ys with
    | nil =>
      rw [hy.nil_inv] at hx
      cases hx
    | cons y ys =>
      obtain ⟨t, ht, hrest⟩ := hy.cons_inv
      rw [hx] at ht
      cases ht
      exact List.cons_prefix_cons.mpr ⟨rfl, ih hrest⟩

/-- An iterator that maps the items of another. -/
theorem Yields.map {τ κ : Type} {next' : τ → Option κ × τ} {f : σ → τ}
    {g : ι → κ} (hnext : ∀ s, next' (f s) = ((next s).1.map g, f (next s).2)) {s s' : σ}
    {xs : List ι} (h : Yields next s xs s') : Yields next' (f s) (xs.map g) (f s') := by
  induction xs generalizing s with
  | nil =>
    have hs := hnext s
    rw [h.nil_inv] at hs
    exact .nil hs
  | cons x xs ih =>
    obtain ⟨m, hx, hxs⟩ := h.cons_inv
    have hs := hnext s
    rw [hx] at hs
    exact .cons hs (ih hxs)

/-- The items of at most `n` calls, and the state after them. -/
def collect (next : σ → Option ι × σ) : Nat → σ → List ι × σ
  | 0, s => ([], s)
  | n + 1, s =>
    match next s with
    | (none, s') => ([], s')
    | (some x, s') => ((x :: (collect next n s').1), (collect next n s').2)

theorem Yields.collect_eq {s s' : σ} {xs : List ι} (h : Yields next s xs s') {n : Nat}
    (hn : xs.length < n) : collect next n s = (xs, s') := by
  induction xs generalizing s n with
  | nil =>
    obtain ⟨m, rfl⟩ : ∃ m, n = m + 1 := ⟨n - 1, by omega⟩
    rw [collect, h.nil_inv]
  | cons x xs ih =>
    obtain ⟨m, rfl⟩ : ∃ m, n = m + 1 := ⟨n - 1, by omega⟩
    obtain ⟨s₁, hx, hxs⟩ := h.cons_inv
    rw [List.length_cons] at hn
    rw [collect, hx]
    simp only [ih hxs (show xs.length < m by omega)]

/-- An iterator whose items decrease a bound ends, and `collect` runs it. -/
theorem yields_collect {I : σ → Prop} {bound : σ → Nat}
    (h : ∀ s x s', I s → next s = (some x, s') → I s' ∧ bound s' < bound s) {n : Nat} {s : σ}
    (hs : I s) (hn : bound s < n) : Yields next s (collect next n s).1 (collect next n s).2 := by
  induction n generalizing s with
  | zero => omega
  | succ n ih =>
    have hstep := h s
    rw [collect]
    rcases he : next s with ⟨_ | x, s'⟩
    · exact Yields.nil he
    · obtain ⟨hI, hlt⟩ := hstep x s' hs he
      exact Yields.cons he (ih hI (by omega))

end Iter

end ValkeyRdb
