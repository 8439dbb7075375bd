import ValkeyRdb.Reader.Pieces

/-!
# Errors under a chunk limit

An error that ends the iteration without chunking ends it under every limit.
-/

namespace ValkeyRdb

open StateAction (Rounds run_bind_ok run_bind_error bind_eq_error)

/-- An item of the iteration is an error that ends it. -/
def RdbReader.Aborts (r : RdbReader) : Prop :=
  ∃ items r', Steps RdbReader.next r items r' ∧ ∃ x ∈ items, Terminal x

theorem aborts_of_inner {r r' : RdbReader} {f : Fault} (hf : r.finished = false)
    (hn : nextInner r = (.error f, r')) (ht : Terminal (.error f)) : r.Aborts := by
  rcases next_error hf hn with ⟨hno, -⟩ | ⟨-, he⟩
  · exact absurd ht hno
  · exact ⟨[.error f], _, .cons he (.nil _), .error f, List.mem_singleton_self _, ht⟩

theorem aborts_of_steps {r s : RdbReader} {items : List (Res RdbEntry)}
    (h : Steps RdbReader.next r items s) (hs : s.Aborts) : r.Aborts := by
  obtain ⟨later, s', hlater, x, hx, ht⟩ := hs
  exact ⟨items ++ later, s', h.append hlater, x, List.mem_append_right _ hx, ht⟩

section Plain

variable {α : Type} {b : UInt8} {p : ReadM α} {mk : List α → RdbValue} {max : ℕ+}
  {r : RdbReader} {rd rd' : CrcReader} {key : Bytes} {f : Fault} {n : Nat}

theorem readN_error (hshape : PlainShape b p mk)
    (h : (ReadAction.replicate n p).run rd = (.error f, rd')) :
    (readNElements b n).run rd = (.error f, rd') ∧ Terminal (.error f) := by
  have hread : (readNElements b n).run rd = (.error f, rd') := by
    rw [hshape.readN, ReadAction.run_bind_error h]
  refine ⟨hread, terminal_of_inputError ?_⟩
  have hfine := readNElements_returns b n rd
  rwa [hread] at hfine

theorem chunks_abort (hshape : PlainShape b p mk) {s : ChunkedState} (hf : r.finished = false)
    (hm : r.maxKeyElements = some max) (hc : r.chunked = some s) (hs : s.Valid)
    (ht : s.typeCode = b)
    (h : (ReadAction.replicate s.remaining p).run r.reader = (.error f, rd)) : r.Aborts := by
  have hmax := max.pos
  generalize hn : s.remaining = n at h
  induction n using Nat.strong_induction_on generalizing r s with
  | _ n ih =>
    have hpos := hs.pos
    have hchunk := readChunk_eq hc hm hs
    have hinner := nextInner_chunked hc
    rw [ht] at hchunk
    by_cases hle : n ≤ max
    · -- the chunk that fails is the last one
      have hmin : min (max : Nat) s.remaining = n := by omega
      obtain ⟨hread, hterm⟩ := readN_error hshape h
      rw [hmin, hread] at hchunk
      exact aborts_of_inner hf (hinner.trans (run_bind_error hchunk)) hterm
    · have hmin : min (max : Nat) s.remaining = max := by omega
      have hsplit : n = max + (n - max) := by omega
      rw [hmin] at hchunk
      rw [hsplit, ReadAction.replicate_add] at h
      rcases ha : (ReadAction.replicate max p).run r.reader with ⟨f' | as, s₁⟩
      · obtain ⟨hread, hterm⟩ := readN_error hshape ha
        rw [hread] at hchunk
        exact aborts_of_inner hf (hinner.trans (run_bind_error hchunk)) hterm
      · rw [ReadAction.run_bind_ok ha] at h
        rcases hb : (ReadAction.replicate (n - max) p).run s₁ with ⟨f' | bs, s₂⟩
        · obtain ⟨s', hadv⟩ : ∃ s', s.advance max = some s' :=
            ⟨_, if_neg (by omega : ¬s.remaining - max = 0)⟩
          have hs' := advance_some hadv
          rw [hshape.readN, ReadAction.run_bind_ok ha] at hchunk
          dsimp only [ReadAction.run_pure] at hchunk
          rw [hadv] at hchunk
          rw [run_bind_ok hchunk] at hinner
          have hnext := next_entry hf hinner
          rw [ReadAction.run_bind_error hb] at h
          cases h
          refine aborts_of_steps (.cons hnext (.nil _)) (ih (n - max) (by omega) (s := s')
            hf hm rfl (hs.advance hadv) ?_ ?_ hb)
          · rw [hs']
            exact ht
          · rw [hs']
            dsimp only
            omega
        · rw [ReadAction.run_bind_ok hb] at h
          cases h

/-- How a key object ends the iteration under a limit: at once, or at a later chunk. -/
def EntryAborts (b : UInt8) (r : RdbReader) : Prop :=
  (∃ f r', readEntry b r = (.error f, r') ∧ Terminal (.error f)) ∨
    ∃ first r', readEntry b r = (.ok first, r') ∧ r'.Aborts

theorem readPlain_large_aborts (hp : isPlainType b = true) (hshape : PlainShape b p mk)
    (hf : r.finished = false) (hk : readString.run r.reader = (.ok key, rd))
    {s₁ s₂ : CrcReader} (hn : (readCount "element count").run rd = (.ok n, s₁))
    (h : (ReadAction.replicate n p).run s₁ = (.error f, s₂)) (hlt : (max : Nat) < n) :
    EntryAborts b (r.limited max) := by
  have hmax := max.pos
  have hbound : n ≤ maxAllocBytes := (readCount_returns _).ok hn
  have hcount : liftRead (readCount "element count") ((r.limited max).keyed rd) =
      (.ok n, (r.limited max).keyed s₁) := liftRead_ok hn
  have hplain := readEntry_plain hp max hk
  rw [readPlainEntry, run_bind_ok hcount, if_pos (by omega), readFirstChunk] at hplain
  have hsplit : n = max + (n - max) := by omega
  rw [hsplit, ReadAction.replicate_add] at h
  rcases ha : (ReadAction.replicate max p).run s₁ with ⟨f' | as, t₁⟩
  · obtain ⟨hread, hterm⟩ := readN_error hshape ha
    have hvalue : liftRead (readNElements b max) ((r.limited max).keyed s₁) =
        (.error f', (r.limited max).keyed t₁) := liftRead_error hread
    rw [run_bind_error hvalue] at hplain
    exact .inl ⟨_, _, hplain, hterm⟩
  · rw [ReadAction.run_bind_ok ha] at h
    rcases hb : (ReadAction.replicate (n - max) p).run t₁ with ⟨f' | bs, t₂⟩
    · have hread : (readNElements b max).run s₁ = (.ok (mk as), t₁) := by
        rw [hshape.readN, ReadAction.run_bind_ok ha]
        rfl
      have hvalue : liftRead (readNElements b max) ((r.limited max).keyed s₁) =
          (.ok (mk as), (r.limited max).keyed t₁) := liftRead_ok hread
      rw [run_bind_ok hvalue, sub64_eq (by omega)] at hplain
      -- the state of the key after its first chunk
      let s := ChunkedState.start r.currentDb b r.pending key n (n - max) max
      have hs : s.Valid := ⟨hp, by dsimp only [s, ChunkedState.start]; omega,
        by dsimp only [s, ChunkedState.start]; omega, hbound⟩
      have hsave : saveChunked s ((r.limited max).keyed t₁) =
          (.ok (), { (r.limited max).keyed t₁ with chunked := some s }) := by
        rw [saveChunked, if_pos hs.pos]
        rfl
      exact .inr ⟨_, _, hplain.trans (run_bind_ok hsave), chunks_abort hshape hf rfl rfl hs rfl hb⟩
    · rw [ReadAction.run_bind_ok hb] at h
      cases h

theorem readPlain_aborts (hp : isPlainType b = true) {r' : RdbReader} (hr : r.Unchunked)
    (hf : r.finished = false) (max : ℕ+) (h : readEntry b r = (.error f, r')) :
    EntryAborts b (r.limited max) := by
  obtain ⟨α, p, mk, hshape⟩ := isPlainType_shape hp
  rcases hk : readString.run r.reader with ⟨f' | key, rd⟩
  · have hk' : readString.run (r.limited max).reader = (.error f', rd) := hk
    have hfine := readString_returns r.reader
    rw [hk] at hfine
    exact .inl ⟨_, _, readEntry_error hk', terminal_of_inputError hfine⟩
  have hm : (r.keyed rd).maxKeyElements = none := hr.maxKeyElements
  rw [readEntry_ok hk, readEntryValue_unchunked hm] at h
  have hplain := readEntry_plain hp max hk
  rw [readPlainEntry] at hplain
  rcases hn : (readCount "element count").run rd with ⟨f' | n, s₁⟩
  · have hcount : liftRead (readCount "element count") ((r.limited max).keyed rd) =
        (.error f', (r.limited max).keyed s₁) := liftRead_error hn
    have hfine := readCount_returns "element count" rd
    rw [hn] at hfine
    rw [run_bind_error hcount] at hplain
    exact .inl ⟨_, _, hplain, terminal_of_inputError hfine⟩
  have hcount : liftRead (readCount "element count") ((r.limited max).keyed rd) =
      (.ok n, (r.limited max).keyed s₁) := liftRead_ok hn
  have hvalue : (readValue b).run rd = (readNElements b n).run s₁ := by
    rw [hshape.value, ReadAction.run_bind_ok hn]
  rcases hxs : (ReadAction.replicate n p).run s₁ with ⟨f' | xs, s₂⟩
  · by_cases hle : n ≤ max
    · obtain ⟨hread, hterm⟩ := readN_error hshape hxs
      have helements : liftRead (readNElements b n) ((r.limited max).keyed s₁) =
          (.error f', (r.limited max).keyed s₂) := liftRead_error hread
      rw [run_bind_ok hcount, if_neg (by omega), run_bind_error helements] at hplain
      exact .inl ⟨_, _, hplain, hterm⟩
    · exact readPlain_large_aborts hp hshape hf hk hn hxs (Nat.lt_of_not_le hle)
  · -- without chunking the key is then read
    have hread : (readValue b).run rd = (.ok (mk xs), s₂) := by
      rw [hvalue, hshape.readN, ReadAction.run_bind_ok hxs]
      rfl
    have hok := readWholeEntry_ok (r.keyed rd).currentDb r.pending key (r := r.keyed rd) hread
    rw [hok] at h
    cases h

end Plain

theorem readEntry_aborts {b : UInt8} {r r' : RdbReader} {f : Fault} (hr : r.Unchunked)
    (hf : r.finished = false) (max : ℕ+) (h : readEntry b r = (.error f, r'))
    (ht : Terminal (.error f)) : EntryAborts b (r.limited max) := by
  cases hp : isPlainType b with
  | true => exact readPlain_aborts hp hr hf max h
  | false => exact .inl ⟨_, _, (step_limited hr max (readEntry_same hp) h).1, ht⟩

theorem aborts_of_entry {b : UInt8} {r r₁ r₂ : RdbReader} (hf : r.finished = false)
    (hc : r.chunked = none) (hrounds : Rounds opcodeStep r r₁) (ho : readOpcode r₁ = (.ok b, r₂))
    (hb : isObjectType b = true) (h : EntryAborts b r₂) : r.Aborts := by
  have hinner := nextInner_unchunked hc
  rcases h with ⟨f, s, hs, ht⟩ | ⟨first, s, hs, habort⟩
  · have harm : opcodeArm b r₂ = (.error f, s) := by
      rw [opcodeArm_object hb, run_bind_error hs]
    rw [opcodeLoop_error hrounds ho harm] at hinner
    exact aborts_of_inner hf hinner ht
  · have harm : opcodeArm b r₂ = (.ok (some (some first)), s) := by
      rw [opcodeArm_object hb, run_bind_ok hs]
      rfl
    rw [opcodeLoop_done hrounds ho harm] at hinner
    exact aborts_of_steps (.cons (next_entry hf hinner) (.nil _)) habort

theorem next_aborts {r r' : RdbReader} {x : Res RdbEntry} (hr : r.Unchunked) (max : ℕ+)
    (hn : r.next = (some x, r')) (hx : Terminal x) : (r.limited max).Aborts := by
  have hf : r.finished = false := by
    cases hf : r.finished with
    | false => rfl
    | true =>
      rw [next_finished hf] at hn
      cases hn
  have hinner := nextInner_unchunked hr.chunked
  have hinner' : nextInner (r.limited max) = opcodeLoop (r.limited max) := nextInner_unchunked rfl
  obtain ⟨r₁, hrounds, hloop⟩ := opcodeLoop_cases r
  obtain ⟨hrounds', hr₁⟩ := rounds_limited hrounds hr max
  rcases hloop with ⟨ho, -⟩ | ⟨b, r₂, ho, hloop⟩
  · obtain ⟨ho', -⟩ := step_limited hr₁ max (fun _ => Rewiring.readOpcode _) ho
    have hstep : opcodeStep (r₁.limited max) = (.error eofFault, r₁.limited max) :=
      run_bind_error ho'
    have hend : opcodeLoop (r.limited max) = (.error eofFault, r₁.limited max) :=
      (hrounds'.loop_eq opcodeStep_descends).trans (StateAction.loop_error hstep)
    exact aborts_of_inner hf (hinner'.trans hend) trivial
  obtain ⟨ho', hr₂⟩ := step_limited hr₁ max (fun _ => Rewiring.readOpcode _) ho
  rcases hloop with ⟨y, r₃, -, hl⟩ | ⟨f, r₃, ha, hl⟩
  · rw [hl] at hinner
    cases y with
    | none =>
      rw [next_none hf hinner] at hn
      cases hn
    | some e =>
      rw [next_entry hf hinner] at hn
      cases hn
      exact absurd hx id
  · rw [hl] at hinner
    have ht : Terminal (.error f) := by
      rcases next_error hf hinner with ⟨-, he⟩ | ⟨ht, -⟩
      · rw [he] at hn
        cases hn
        exact hx
      · exact ht
    cases hb : isObjectType b with
    | false =>
      obtain ⟨ha', -⟩ := step_limited hr₂ max (opcodeArm_same hb) ha
      rw [opcodeLoop_error hrounds' ho' ha'] at hinner'
      exact aborts_of_inner hf hinner' ht
    | true =>
      have hf₂ : r₂.finished = false :=
        (readOpcode_advances ho).finished.trans ((rounds_advances hrounds).finished.trans hf)
      rw [opcodeArm_object hb] at ha
      rcases bind_eq_error ha with he | ⟨e, r₄, -, hpure⟩
      · exact aborts_of_entry hf rfl hrounds' ho' hb (readEntry_aborts hr₂ hf₂ max he ht)
      · cases hpure

theorem yields_aborts {r r' : RdbReader} {items : List (Res RdbEntry)} (hr : r.Unchunked)
    (max : ℕ+) (hy : Yields RdbReader.next r items r') (hx : ∃ x ∈ items, Terminal x) :
    (r.limited max).Aborts := by
  induction items generalizing r with
  | nil =>
    obtain ⟨x, hx, -⟩ := hx
    exact absurd hx List.not_mem_nil
  | cons y ys ih =>
    obtain ⟨s, hn, hys⟩ := hy.cons_inv
    by_cases hterm : Terminal y
    · exact next_aborts hr max hn hterm
    · obtain ⟨hs, group, hsteps, -⟩ := next_rechunked hr max hn hterm
      obtain ⟨x, hx, ht⟩ := hx
      rcases List.mem_cons.mp hx with rfl | hx
      · exact absurd ht hterm
      · exact aborts_of_steps hsteps (ih hs hys ⟨x, hx, ht⟩)

theorem clean_of_configured {input : Bytes} {r : RdbReader} (hnew : RdbReader.new input = .ok r)
    {limit : Option ℕ+} (h : ∀ x ∈ (r.configure limit).items.1, ¬Terminal x) :
    ∀ x ∈ r.withoutChunking.items.1, ¬Terminal x := by
  cases limit with
  | none => exact h
  | some max =>
    intro x hx ht
    have hy := (Reachable.new hnew).withoutChunking.yields
    have hy' := ((Reachable.new hnew).configure (some max)).yields
    have hchunked : r.chunked = none := by rw [new_eq hnew]; rfl
    have hsame : r.withoutChunking.limited max = r.configure (some max) :=
      limited_withoutChunking hchunked max
    obtain ⟨items, s, hsteps, y, hmem, hy''⟩ :=
      yields_aborts (r := r.withoutChunking) ⟨rfl, hchunked⟩ max hy ⟨x, hx, ht⟩
    rw [hsame] at hsteps
    exact h y ((hsteps.isPrefix hy').subset hmem) hy''

end ValkeyRdb
