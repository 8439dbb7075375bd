import ValkeyRdb.Lib.ReadRules

/-!
# Reading what was written

An encoded item is read back when a condition holds, and refused when it does not.
`DecodesWhen c p b x` says both of an action at once; it has a rule for each way actions
and encodings are put together, so the exact condition of a whole format is found along
its structure.
-/

namespace ValkeyRdb.ReadAction

variable {δ ε : Type} {upd : δ → UInt8 → δ} {eof : ε} {α β σ ι : Type}

/-- On the bytes `b` the action returns `x` if `c` holds, and fails if it does not,
whatever follows them. -/
structure DecodesWhen (c : Prop) (p : ReadAction upd eof α) (b : Bytes) (x : α) : Prop where
  decodes : c → Decodes p b x
  fails : ¬c → ∃ e, FailsWith p b e

theorem FailsWith.append {p : ReadAction upd eof α} {b : Bytes} {e : ε} (h : FailsWith p b e)
    (b' : Bytes) : FailsWith p (b ++ b') e := by
  intro r d
  rw [List.append_assoc]
  exact h (b' ++ r) d

theorem Decodes.when {p : ReadAction upd eof α} {b : Bytes} {x : α} (h : Decodes p b x) :
    DecodesWhen True p b x :=
  ⟨fun _ => h, fun hc => absurd trivial hc⟩

theorem DecodesWhen.congr {c c' : Prop} {p : ReadAction upd eof α} {b : Bytes} {x : α}
    (h : DecodesWhen c p b x) (hc : c' ↔ c) : DecodesWhen c' p b x :=
  ⟨fun h' => h.decodes (hc.mp h'), fun h' => h.fails fun h'' => h' (hc.mpr h'')⟩

theorem DecodesWhen.bind {c c' : Prop} {p : ReadAction upd eof α}
    {f : α → ReadAction upd eof β} {b b' : Bytes} {x : α} {y : β} (hp : DecodesWhen c p b x)
    (hf : DecodesWhen c' (f x) b' y) : DecodesWhen (c ∧ c') (p >>= f) (b ++ b') y := by
  refine ⟨fun h => (hp.decodes h.1).bind (hf.decodes h.2), fun h => ?_⟩
  by_cases hc : c
  · obtain ⟨e, he⟩ := hf.fails fun hc' => h ⟨hc, hc'⟩
    exact ⟨e, (hp.decodes hc).bind_fails he⟩
  · obtain ⟨e, he⟩ := hp.fails hc
    exact ⟨e, he.bind.append b'⟩

theorem Decodes.bind_when {c : Prop} {p : ReadAction upd eof α} {f : α → ReadAction upd eof β}
    {b b' : Bytes} {x : α} {y : β} (hp : Decodes p b x) (hf : DecodesWhen c (f x) b' y) :
    DecodesWhen c (p >>= f) (b ++ b') y :=
  (hp.when.bind hf).congr (by simp)

theorem DecodesWhen.bind_decodes {c : Prop} {p : ReadAction upd eof α}
    {f : α → ReadAction upd eof β} {b b' : Bytes} {x : α} {y : β} (hp : DecodesWhen c p b x)
    (hf : Decodes (f x) b' y) : DecodesWhen c (p >>= f) (b ++ b') y :=
  (hp.bind hf.when).congr (by simp)

theorem DecodesWhen.map {c : Prop} {p : ReadAction upd eof α} {b : Bytes} {x : α}
    (hp : DecodesWhen c p b x) (g : α → β) :
    DecodesWhen c (p >>= fun a => Pure.pure (g a)) b (g x) := by
  have h := hp.bind_decodes (f := fun a => Pure.pure (g a)) (Decodes.pure (g x))
  rwa [List.append_nil] at h

theorem DecodesWhen.lift {c : Prop} {y : Except ε α} {x : α} (hok : c → y = .ok x)
    (herr : ¬c → ∃ e, y = .error e) :
    DecodesWhen c (ReadAction.lift y : ReadAction upd eof α) [] x := by
  refine ⟨fun h => Decodes.lift (hok h), fun h => ?_⟩
  obtain ⟨e, he⟩ := herr h
  exact ⟨e, FailsWith.lift he⟩

/-- The action takes exactly the bytes `b`, whatever follows them, and its result is `y`,
a value or a fault. -/
def Drains (p : ReadAction upd eof α) (b : Bytes) (y : Except ε α) : Prop :=
  ∀ r d, p.run ⟨b ++ r, d⟩ = (y, ⟨r, b.foldl upd d⟩)

theorem Drains.lift (y : Except ε α) : Drains (ReadAction.lift y : ReadAction upd eof α) [] y :=
  fun _ _ => rfl

theorem Decodes.bind_drains {p : ReadAction upd eof α} {f : α → ReadAction upd eof β}
    {b b' : Bytes} {x : α} {y : Except ε β} (hp : Decodes p b x) (hf : Drains (f x) b' y) :
    Drains (p >>= f) (b ++ b') y := by
  intro r d
  rw [List.append_assoc, run_bind_ok (hp.run (b' ++ r) d), hf, List.foldl_append]

/-! ### Lists of items -/

section Items

variable {bytes : ι → Bytes} {fits : ι → Prop}

theorem DecodesWhen.replicate {value : ι → α} {p : ReadAction upd eof α} {ts : List ι}
    (h : ∀ t ∈ ts, DecodesWhen (fits t) p (bytes t) (value t)) :
    DecodesWhen (∀ t ∈ ts, fits t) (ReadAction.replicate ts.length p) (ts.flatMap bytes)
      (ts.map value) := by
  induction ts with
  | nil => exact (Decodes.pure []).when.congr (by simp)
  | cons t ts ih =>
    have ht := h t List.mem_cons_self
    have hts := ih fun s hs => h s (List.mem_cons_of_mem t hs)
    have hlist := ht.bind (f := fun a => ReadAction.replicate ts.length p >>= fun as =>
      Pure.pure (a :: as)) (hts.map (value t :: ·))
    exact hlist.congr (by simp)

theorem DecodesWhen.iterate {g : σ → ι → σ} {f : σ → ReadAction upd eof σ} {ts : List ι}
    (h : ∀ t ∈ ts, ∀ st, DecodesWhen (fits t) (f st) (bytes t) (g st t)) (st : σ) :
    DecodesWhen (∀ t ∈ ts, fits t) (ReadAction.iterate ts.length f st) (ts.flatMap bytes)
      (ts.foldl g st) := by
  induction ts generalizing st with
  | nil => exact (Decodes.pure st).when.congr (by simp)
  | cons t ts ih =>
    have ht := h t List.mem_cons_self st
    have hts := ih (fun s hs => h s (List.mem_cons_of_mem t hs)) (g st t)
    exact (ht.bind hts).congr (by simp)

/-- Every item fits the state that the items in front of it have left. -/
def AllFit (fits : σ → ι → Prop) (g : σ → ι → σ) : σ → List ι → Prop
  | _, [] => True
  | st, t :: ts => fits st t ∧ AllFit fits g (g st t) ts

theorem FailsWith.loop {body : σ → ReadAction upd eof (σ ⊕ α)} {dv e : ε} {st : σ} {b : Bytes}
    (h : FailsWith (body st) b e) : FailsWith (loop body dv st) b e := by
  intro r d
  have hr := h r d
  rw [run_loop]
  rcases hb : (body st).run ⟨b ++ r, d⟩ with ⟨x, s⟩
  rw [hb] at hr
  change x = _ at hr
  subst hr
  rfl

theorem FailsWith.loop_step {body : σ → ReadAction upd eof (σ ⊕ α)} {dv e : ε} {st st' : σ}
    {b b' : Bytes} (hb : Decodes (body st) b (.inl st')) (hne : b ≠ [])
    (h : FailsWith (ReadAction.loop body dv st') b' e) :
    FailsWith (ReadAction.loop body dv st) (b ++ b') e := by
  intro r d
  have hlen : (b' ++ r).length < (b ++ (b' ++ r)).length := by
    have hpos := List.length_pos_of_ne_nil hne
    have hsum : (b ++ (b' ++ r)).length = b.length + (b' ++ r).length := List.length_append
    omega
  rw [List.append_assoc, run_loop, hb.run (b' ++ r) d]
  dsimp only
  rw [if_pos hlen]
  exact h r _

/-- A loop over items, each read in a round of its own, up to one that ends it. -/
theorem DecodesWhen.loop {body : σ → ReadAction upd eof (σ ⊕ α)} {dv : ε} {g : σ → ι → σ}
    (out : σ → α) {fits : σ → ι → Prop} {last : Bytes}
    (hround : ∀ t st, DecodesWhen (fits st t) (body st) (bytes t) (.inl (g st t)))
    (hne : ∀ t, bytes t ≠ []) (hlast : ∀ st, Decodes (body st) last (.inr (out st)))
    (ts : List ι) (st : σ) :
    DecodesWhen (AllFit fits g st ts) (ReadAction.loop body dv st) (ts.flatMap bytes ++ last)
      (out (ts.foldl g st)) := by
  induction ts generalizing st with
  | nil => exact (Decodes.loop_done (hlast st)).when
  | cons t ts ih =>
    have hts := ih (g st t)
    rw [List.flatMap_cons, List.append_assoc]
    refine ⟨fun h => ?_, fun h => ?_⟩
    · exact ((hround t st).decodes h.1).loop_step (hne t) (hts.decodes h.2)
    · by_cases ht : fits st t
      · obtain ⟨e, he⟩ := hts.fails fun h' => h ⟨ht, h'⟩
        exact ⟨e, FailsWith.loop_step ((hround t st).decodes ht) (hne t) he⟩
      · obtain ⟨e, he⟩ := (hround t st).fails ht
        exact ⟨e, he.loop.append _⟩

end Items

end ValkeyRdb.ReadAction
