import ValkeyRdb.Lib.ReadAction

/-!
# Rules for read actions

Five judgements about read actions, each with one rule per combinator:
`Decodes p b x` (on exactly the bytes `b` the action returns `x`), `FailsWith p b e`
(on `b` it stops with the fault `e`), `Meets fine p Q` (it returns a value with `Q`
or a fine fault), `Consumes p` (a returning action has read something), and
`FollowedBy R p p'` (where `p` returns, so does `p'`).
-/

namespace ValkeyRdb

/-- A result is a value with `Q` or a fault that is fine. -/
def ExceptMeets {ε α : Type} (fine : ε → Prop) (x : Except ε α) (Q : α → Prop) : Prop :=
  match x with
  | .ok a => Q a
  | .error e => fine e

section Except

variable {ε α β : Type} {fine : ε → Prop} {Q : α → Prop}

@[simp] theorem exceptMeets_ok {a : α} : ExceptMeets fine (.ok a) Q ↔ Q a := Iff.rfl

@[simp] theorem exceptMeets_pure {a : α} :
    ExceptMeets fine (pure a : Except ε α) Q ↔ Q a := Iff.rfl

@[simp] theorem exceptMeets_error {e : ε} :
    ExceptMeets fine (.error e : Except ε α) Q ↔ fine e := Iff.rfl

@[simp] theorem exceptMeets_throw {e : ε} :
    ExceptMeets fine (throw e : Except ε α) Q ↔ fine e := Iff.rfl

theorem ExceptMeets.bind {x : Except ε α} {f : α → Except ε β} {R : β → Prop}
    (hx : ExceptMeets fine x Q) (hf : ∀ a, Q a → ExceptMeets fine (f a) R) :
    ExceptMeets fine (x >>= f) R := by
  cases x with
  | error e => exact hx
  | ok a => exact hf a hx

theorem ExceptMeets.ite {c : Prop} [Decidable c] {x y : Except ε α}
    (hx : c → ExceptMeets fine x Q) (hy : ¬c → ExceptMeets fine y Q) :
    ExceptMeets fine (if c then x else y) Q := by
  split
  · exact hx (by assumption)
  · exact hy (by assumption)

theorem ExceptMeets.mono {x : Except ε α} {R : α → Prop} (hx : ExceptMeets fine x Q)
    (h : ∀ a, Q a → R a) : ExceptMeets fine x R := by
  cases x with
  | error e => exact hx
  | ok a => exact h a hx

end Except

namespace ReadAction

variable {δ ε : Type} {upd : δ → UInt8 → δ} {eof : ε} {α β σ : Type}

/-! ### Decoding exactly a byte string -/

/-- On the bytes `b` and nothing else, `p` returns `x` and leaves no byte. -/
def Decodes (p : ReadAction upd eof α) (b : Bytes) (x : α) : Prop :=
  ∀ d, (p.run ⟨b, d⟩).1 = .ok x ∧ (p.run ⟨b, d⟩).2.inner = []

/-- What follows the decoded bytes is left alone, and they are what is digested. -/
theorem Decodes.run {p : ReadAction upd eof α} {b : Bytes} {x : α} (h : Decodes p b x)
    (r : Bytes) (d : δ) : p.run ⟨b ++ r, d⟩ = (.ok x, ⟨r, b.foldl upd d⟩) := by
  obtain ⟨hval, hrest⟩ := h d
  have happ := p.run_append ⟨b, d⟩ r (by rw [hval]; simp)
  obtain ⟨b', hb', hd'⟩ := p.tracks ⟨b, d⟩
  rw [hrest, List.append_nil] at hb'
  have hsrc : (p.run ⟨b, d⟩).2 = ⟨[], b.foldl upd d⟩ := by
    cases hs : (p.run ⟨b, d⟩).2
    simp_all
  rw [hval, hsrc] at happ
  exact happ

theorem decodes_of_run {p : ReadAction upd eof α} {b : Bytes} {x : α}
    (h : ∀ d, ∃ d', p.run ⟨b, d⟩ = (.ok x, ⟨[], d'⟩)) : Decodes p b x := by
  intro d
  obtain ⟨d', hd'⟩ := h d
  rw [hd']
  exact ⟨rfl, rfl⟩

theorem Decodes.pure (x : α) : Decodes (pure x : ReadAction upd eof α) [] x :=
  fun _ => ⟨rfl, rfl⟩

theorem Decodes.lift {y : Except ε α} {x : α} (h : y = .ok x) :
    Decodes (lift y : ReadAction upd eof α) [] x := fun _ => ⟨h, rfl⟩

theorem Decodes.bind {p : ReadAction upd eof α} {f : α → ReadAction upd eof β} {b c : Bytes}
    {x : α} {y : β} (hp : Decodes p b x) (hf : Decodes (f x) c y) :
    Decodes (p >>= f) (b ++ c) y := by
  refine decodes_of_run fun d => ⟨c.foldl upd (b.foldl upd d), ?_⟩
  rw [run_bind_ok (hp.run c d)]
  have h := hf.run [] (b.foldl upd d)
  rwa [List.append_nil] at h

theorem Decodes.bind_pure {p : ReadAction upd eof α} {f : α → ReadAction upd eof β} {b : Bytes}
    {x : α} {y : β} (hp : Decodes p b x) (hf : Decodes (f x) [] y) :
    Decodes (p >>= f) b y := by
  have h := hp.bind hf
  rwa [List.append_nil] at h

theorem Decodes.map {p : ReadAction upd eof α} {b : Bytes} {x : α} (h : Decodes p b x)
    (g : α → β) : Decodes (p >>= fun a => Pure.pure (g a)) b (g x) := h.bind_pure (Decodes.pure _)

theorem decodes_readExact (b : Bytes) :
    Decodes (readExact b.length : ReadAction upd eof Bytes) b b := by
  intro d
  simp [run_readExact]

theorem decodes_readExact_of_length {n : Nat} {b : Bytes} (h : b.length = n) :
    Decodes (readExact n : ReadAction upd eof Bytes) b b := h ▸ decodes_readExact b

theorem Decodes.replicate {p : ReadAction upd eof α} {bs : List Bytes} {xs : List α}
    (h : List.Forall₂ (Decodes p) bs xs) :
    Decodes (ReadAction.replicate xs.length p) bs.flatten xs := by
  induction h with
  | nil => exact Decodes.pure []
  | cons hb _ ih => exact hb.bind (ih.bind_pure (Decodes.pure _))

theorem Decodes.iterate {ι : Type} {f : σ → ReadAction upd eof σ} {g : σ → ι → σ}
    {bs : List Bytes} {ts : List ι}
    (h : List.Forall₂ (fun b t => ∀ st, Decodes (f st) b (g st t)) bs ts) (st : σ) :
    Decodes (ReadAction.iterate ts.length f st) bs.flatten (ts.foldl g st) := by
  induction h generalizing st with
  | nil => exact Decodes.pure st
  | cons hb _ ih => exact (hb st).bind (ih _)

theorem run_loop (body : σ → ReadAction upd eof (σ ⊕ α)) (dv : ε) (st : σ) (s : Source δ) :
    (loop body dv st).run s = match (body st).run s with
      | (.error e, s') => (.error e, s')
      | (.ok (.inr a), s') => (.ok a, s')
      | (.ok (.inl st'), s') =>
        if s'.inner.length < s.inner.length then (loop body dv st').run s'
        else (.error dv, s') := by
  change loopRun body dv (s.inner.length + 1) st s = _
  rw [loopRun]
  rcases (body st).run s with ⟨x, s'⟩
  rcases x with e | (st' | a)
  · rfl
  · dsimp only
    split
    · exact loopRun_fuel body dv _ _ st' s' (by omega) (by omega)
    · rfl
  · rfl

theorem Decodes.loop_done {body : σ → ReadAction upd eof (σ ⊕ α)} {dv : ε} {st : σ} {b : Bytes}
    {x : α} (h : Decodes (body st) b (.inr x)) : Decodes (loop body dv st) b x := by
  refine decodes_of_run fun d => ⟨b.foldl upd d, ?_⟩
  have hr := h.run [] d
  rw [List.append_nil] at hr
  rw [run_loop, hr]

theorem Decodes.loop_step {body : σ → ReadAction upd eof (σ ⊕ α)} {dv : ε} {st st' : σ}
    {b b' : Bytes} {x : α} (hb : Decodes (body st) b (.inl st')) (hne : b ≠ [])
    (h : Decodes (loop body dv st') b' x) : Decodes (loop body dv st) (b ++ b') x := by
  refine decodes_of_run fun d => ⟨b'.foldl upd (b.foldl upd d), ?_⟩
  have hlen : b'.length < (b ++ b').length := by
    have := List.length_pos_of_ne_nil hne
    rw [List.length_append]
    omega
  rw [run_loop, hb.run b' d]
  dsimp only
  rw [if_pos hlen]
  have hr := h.run [] (b.foldl upd d)
  rwa [List.append_nil] at hr

/-! ### Stopping with a fault -/

/-- On the bytes `b` the action stops with the fault `e`, whatever follows them. -/
def FailsWith (p : ReadAction upd eof α) (b : Bytes) (e : ε) : Prop :=
  ∀ r d, (p.run ⟨b ++ r, d⟩).1 = .error e

theorem FailsWith.fail (e : ε) : FailsWith (ReadAction.fail e : ReadAction upd eof α) [] e :=
  fun _ _ => rfl

theorem FailsWith.lift {y : Except ε α} {e : ε} (h : y = .error e) :
    FailsWith (ReadAction.lift y : ReadAction upd eof α) [] e := fun _ _ => h

theorem FailsWith.bind {p : ReadAction upd eof α} {f : α → ReadAction upd eof β} {b : Bytes}
    {e : ε} (h : FailsWith p b e) : FailsWith (p >>= f) b e := by
  intro r d
  rw [run_bind]
  have hr := h r d
  rcases hp : p.run ⟨b ++ r, d⟩ with ⟨x, s'⟩
  rw [hp] at hr
  change x = _ at hr
  subst hr
  rfl

theorem Decodes.bind_fails {p : ReadAction upd eof α} {f : α → ReadAction upd eof β}
    {b b' : Bytes} {x : α} {e : ε} (hp : Decodes p b x) (hf : FailsWith (f x) b' e) :
    FailsWith (p >>= f) (b ++ b') e := by
  intro r d
  rw [List.append_assoc, run_bind_ok (hp.run (b' ++ r) d)]
  exact hf r _

/-! ### Results that are fine -/

/-- Every result of `p` is a value with `Q` or a fine fault. -/
def Meets (fine : ε → Prop) (p : ReadAction upd eof α) (Q : α → Prop) : Prop :=
  ∀ s, ExceptMeets fine (p.run s).1 Q

variable {fine : ε → Prop} {Q : α → Prop} {R : β → Prop}

theorem Meets.ok {p : ReadAction upd eof α} (h : Meets fine p Q) {s s' : Source δ} {a : α}
    (hr : p.run s = (.ok a, s')) : Q a := by
  have := h s
  rwa [hr] at this

theorem Meets.pure {a : α} (h : Q a) : Meets fine (pure a : ReadAction upd eof α) Q := fun _ => h

theorem Meets.fail {e : ε} (h : fine e) :
    Meets fine (ReadAction.fail e : ReadAction upd eof α) Q := fun _ => h

theorem Meets.lift {x : Except ε α} (h : ExceptMeets fine x Q) :
    Meets fine (ReadAction.lift x : ReadAction upd eof α) Q := fun _ => h

theorem Meets.mono {p : ReadAction upd eof α} {Q' : α → Prop} (h : Meets fine p Q)
    (hq : ∀ a, Q a → Q' a) : Meets fine p Q' := fun s => (h s).mono hq

theorem Meets.weaken {p : ReadAction upd eof α} {fine' : ε → Prop} (h : Meets fine p Q)
    (hf : ∀ e, fine e → fine' e) : Meets fine' p Q := by
  intro s
  have hs := h s
  generalize (p.run s).1 = x at hs ⊢
  cases x with
  | error e => exact hf e hs
  | ok a => exact hs

theorem Meets.bind {p : ReadAction upd eof α} {f : α → ReadAction upd eof β}
    (hp : Meets fine p Q) (hf : ∀ a, Q a → Meets fine (f a) R) : Meets fine (p >>= f) R := by
  intro s
  have h := hp s
  rw [run_bind]
  generalize p.run s = o at h ⊢
  obtain ⟨x, s'⟩ := o
  cases x with
  | error e => exact h
  | ok a => exact hf a h s'

theorem meets_readExact (he : fine eof) (n : Nat) :
    Meets fine (readExact n : ReadAction upd eof Bytes) (fun b => b.length = n) := by
  intro s
  rw [run_readExact]
  by_cases h : n ≤ s.inner.length
  · rw [if_pos h]
    exact List.length_take_of_le h
  · rw [if_neg h]
    exact he

theorem Meets.replicate {p : ReadAction upd eof α} (hp : Meets fine p Q) (n : Nat) :
    Meets fine (ReadAction.replicate n p) (fun as => as.length = n ∧ ∀ a ∈ as, Q a) := by
  induction n with
  | zero => exact Meets.pure (by simp)
  | succ n ih =>
    refine hp.bind fun a ha => ih.bind fun as has => Meets.pure ?_
    refine ⟨by rw [List.length_cons, has.1], fun x hx => ?_⟩
    rcases List.mem_cons.mp hx with rfl | hx
    · exact ha
    · exact has.2 x hx

theorem replicate_length {p : ReadAction upd eof α} {n : Nat} {s s' : Source δ} {as : List α}
    (h : (replicate n p).run s = (.ok as, s')) : as.length = n := by
  have hp : Meets (fun _ => True) p (fun _ => True) := by
    intro s
    cases (p.run s).1 <;> trivial
  exact ((hp.replicate n).ok h).1

theorem Meets.iterate {f : σ → ReadAction upd eof σ} {I : σ → Prop}
    (hf : ∀ st, I st → Meets fine (f st) I) (n : Nat) {st : σ} (h : I st) :
    Meets fine (ReadAction.iterate n f st) I := by
  induction n generalizing st with
  | zero => exact Meets.pure h
  | succ n ih => exact (hf st h).bind fun st' h' => ih h'

/-! ### Progress -/

/-- An action that returns has read at least one byte. -/
def Consumes (p : ReadAction upd eof α) : Prop :=
  ∀ s a, (p.run s).1 = .ok a → (p.run s).2.inner.length < s.inner.length

theorem Consumes.bind {p : ReadAction upd eof α} (hp : Consumes p)
    (f : α → ReadAction upd eof β) : Consumes (p >>= f) := by
  intro s b hb
  have h := hp s
  rw [run_bind] at hb ⊢
  generalize p.run s = o at h hb ⊢
  obtain ⟨x, s'⟩ := o
  cases x with
  | error e => cases hb
  | ok a =>
    have hlt : s'.inner.length < s.inner.length := h a rfl
    have hle := (f a).length_le s'
    exact lt_of_le_of_lt hle hlt

theorem consumes_readExact {n : Nat} (hn : 0 < n) :
    Consumes (readExact n : ReadAction upd eof Bytes) := by
  intro s a h
  rw [run_readExact] at h ⊢
  by_cases hle : n ≤ s.inner.length
  · rw [List.length_drop]
    omega
  · rw [if_neg hle] at h
    cases h

theorem Consumes.replicate {p : ReadAction upd eof α} (hp : Consumes p) {n : Nat} (hn : 0 < n) :
    Consumes (ReadAction.replicate n p) := by
  obtain ⟨m, rfl⟩ : ∃ m, n = m + 1 := ⟨n - 1, by omega⟩
  exact hp.bind _

/-- Rounds past the number of unread bytes are never reached, however many are asked for. -/
def CutShort (rounds : Nat → ReadAction upd eof α) : Prop :=
  ∀ s m n, s.inner.length < m → m ≤ n → (rounds n).run s = (rounds m).run s

theorem CutShort.bind {rounds : Nat → ReadAction upd eof α} (h : CutShort rounds)
    (f : α → ReadAction upd eof β) : CutShort fun n => rounds n >>= f := by
  intro s m n hm hmn
  change (rounds n >>= f).run s = (rounds m >>= f).run s
  rw [run_bind, run_bind, h s m n hm hmn]

theorem Consumes.cutShort_iterate {f : σ → ReadAction upd eof σ} (hf : ∀ st, Consumes (f st))
    (st : σ) : CutShort fun n => iterate n f st := by
  intro s m n hm hmn
  induction m generalizing n s st with
  | zero => omega
  | succ m ih =>
    obtain ⟨n, rfl⟩ : ∃ k, n = k + 1 := ⟨n - 1, by omega⟩
    have hcons := hf st s
    change (f st >>= fun st' => iterate n f st').run s = (f st >>= fun st' => iterate m f st').run s
    rw [run_bind, run_bind]
    rcases hr : (f st).run s with ⟨e | st', s'⟩
    · rfl
    · rw [hr] at hcons
      have hlt : s'.inner.length < s.inner.length := hcons st' rfl
      exact ih st' s' n (by omega) (by omega)

theorem Consumes.cutShort_replicate {p : ReadAction upd eof α} (hp : Consumes p) :
    CutShort fun n => ReadAction.replicate n p := by
  intro s m n hm hmn
  induction m generalizing n s with
  | zero => omega
  | succ m ih =>
    obtain ⟨n, rfl⟩ : ∃ k, n = k + 1 := ⟨n - 1, by omega⟩
    have hcons := hp s
    change (p >>= fun a => ReadAction.replicate n p >>= fun as => Pure.pure (a :: as)).run s =
      (p >>= fun a => ReadAction.replicate m p >>= fun as => Pure.pure (a :: as)).run s
    rw [run_bind, run_bind]
    rcases hr : p.run s with ⟨e | a, s'⟩
    · rfl
    · rw [hr] at hcons
      have hlt : s'.inner.length < s.inner.length := hcons a rfl
      have hrest := ih s' n (by omega) (by omega)
      dsimp only at hrest ⊢
      rw [run_bind, run_bind, hrest]

/-- The loop rule: an invariant, a fine exit, and progress in every round. -/
theorem Meets.loop {body : σ → ReadAction upd eof (σ ⊕ α)} {dv : ε} {I : σ → Prop}
    (hb : ∀ st, I st → Meets fine (body st) (Sum.elim I Q))
    (hc : ∀ st, Consumes (body st)) {st : σ} (h : I st) : Meets fine (loop body dv st) Q := by
  intro s
  change ExceptMeets fine (loopRun body dv (s.inner.length + 1) st s).1 Q
  generalize hn : s.inner.length + 1 = n
  have hlt : s.inner.length < n := by omega
  clear hn
  induction n generalizing st s with
  | zero => omega
  | succ n ih =>
    have hm := hb st h s
    have hprog := hc st s
    rw [loopRun]
    generalize (body st).run s = o at hm hprog ⊢
    obtain ⟨e | (st' | a), s'⟩ := o
    · exact hm
    · dsimp only
      have hshort : s'.inner.length < s.inner.length := hprog _ rfl
      rw [if_pos hshort]
      exact ih hm s' (by omega)
    · exact hm

/-! ### Splitting repetitions -/

theorem replicate_add (m n : Nat) (p : ReadAction upd eof α) :
    replicate (m + n) p = (do
      let as ← replicate m p
      let bs ← replicate n p
      pure (as ++ bs)) := by
  induction m with
  | zero => simp [replicate]
  | succ m ih =>
    rw [Nat.succ_add]
    simp only [replicate, ih, bind_assoc, pure_bind, List.cons_append]

/-! ### One action in the tracks of another -/

/-- Whenever `p` returns, `p'` returns at the same place with a result related by `R`. -/
def FollowedBy {α' : Type} (R : α → α' → Prop) (p : ReadAction upd eof α)
    (p' : ReadAction upd eof α') : Prop :=
  ∀ s s₁ a, p.run s = (.ok a, s₁) → ∃ a', p'.run s = (.ok a', s₁) ∧ R a a'

section Followed

variable {α' β' σ' : Type} {S : α → α' → Prop} {T : β → β' → Prop} {I : σ → σ' → Prop}

theorem FollowedBy.refl (p : ReadAction upd eof α) : FollowedBy Eq p p :=
  fun _ _ a h => ⟨a, h, rfl⟩

theorem FollowedBy.pure {a : α} {a' : α'} (h : S a a') :
    FollowedBy S (pure a : ReadAction upd eof α) (pure a') := by
  rintro s s₁ b hb
  cases hb
  exact ⟨a', rfl, h⟩

theorem FollowedBy.lift {x : Except ε α} {x' : Except ε α'}
    (h : ∀ a, x = .ok a → ∃ a', x' = .ok a' ∧ S a a') :
    FollowedBy S (ReadAction.lift x : ReadAction upd eof α) (ReadAction.lift x') := by
  rintro s s₁ a ha
  obtain ⟨hx, hs⟩ := Prod.mk.inj ha
  obtain ⟨a', hx', hR⟩ := h a hx
  exact ⟨a', Prod.ext hx' hs, hR⟩

theorem FollowedBy.bind {p : ReadAction upd eof α} {p' : ReadAction upd eof α'}
    {f : α → ReadAction upd eof β} {f' : α' → ReadAction upd eof β'} (hp : FollowedBy S p p')
    (hf : ∀ a a', S a a' → FollowedBy T (f a) (f' a')) : FollowedBy T (p >>= f) (p' >>= f') := by
  intro s s₂ b hb
  obtain ⟨a, s₁, ha, hrest⟩ := bind_eq_ok hb
  obtain ⟨a', ha', hS⟩ := hp s s₁ a ha
  obtain ⟨b', hb', hT⟩ := hf a a' hS s₁ s₂ b hrest
  exact ⟨b', by rw [run_bind_ok ha', hb'], hT⟩

/-- The simulation rule: two loops whose rounds stay together end together. -/
theorem FollowedBy.loop {body : σ → ReadAction upd eof (σ ⊕ α)}
    {body' : σ' → ReadAction upd eof (σ' ⊕ α')} {dv : ε}
    (hb : ∀ st st', I st st' → FollowedBy (Sum.LiftRel I S) (body st) (body' st')) {st : σ}
    {st' : σ'} (h : I st st') : FollowedBy S (loop body dv st) (loop body' dv st') := by
  intro s s₁ a
  change loopRun body dv (s.inner.length + 1) st s = _ →
    ∃ a', loopRun body' dv (s.inner.length + 1) st' s = _ ∧ _
  -- both loops have the fuel of the same source, and spend it round by round
  generalize s.inner.length + 1 = n
  induction n generalizing st st' s with
  | zero =>
    intro ha
    cases ha
  | succ n ih =>
    rw [loopRun, loopRun]
    intro ha
    rcases hr : (body st).run s with ⟨x, s₂⟩
    rw [hr] at ha
    rcases x with e | (next | b)
    · cases ha
    · obtain ⟨o', ho', hrel⟩ := hb st st' h s s₂ _ hr
      cases hrel with
      | inl hnext =>
        rw [ho']
        dsimp only at ha ⊢
        by_cases hlt : s₂.inner.length < s.inner.length
        · rw [if_pos hlt] at ha ⊢
          exact ih hnext s₂ ha
        · rw [if_neg hlt] at ha
          cases ha
    · obtain ⟨o', ho', hrel⟩ := hb st st' h s s₂ _ hr
      cases hrel with
      | inr hdone =>
        rw [ho']
        cases ha
        exact ⟨_, rfl, hdone⟩

end Followed

end ReadAction

end ValkeyRdb
