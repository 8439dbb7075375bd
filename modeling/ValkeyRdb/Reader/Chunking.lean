import Mathlib.Data.List.Forall2
import ValkeyRdb.Reader.Prefix

/-!
# Chunking is lossless

Under a limit a large plain collection is yielded as a run of chunks; everything else is
yielded as without chunking. Both readers are followed side by side, key object by key
object.
-/

namespace ValkeyRdb

open StateAction (Rounds run_bind_ok run_bind_error bind_eq_ok bind_eq_error)

/-! ### Plain collections -/

def RdbValue.elementCount : RdbValue → Nat
  | .list elements => elements.length
  | .set members => members.length
  | .sortedSet pairs => pairs.length
  | .hash fields => fields.length
  | _ => 0

/-- The parts of a collection, in order, have exactly its elements. -/
inductive RdbValue.Joins : List RdbValue → RdbValue → Prop
  | list (parts : List (List Bytes)) : Joins (parts.map .list) (.list parts.flatten)
  | set (parts : List (List Bytes)) : Joins (parts.map .set) (.set parts.flatten)
  | sortedSet (parts : List (List (Bytes × F64))) :
      Joins (parts.map .sortedSet) (.sortedSet parts.flatten)
  | hash (parts : List (List HashField)) : Joins (parts.map .hash) (.hash parts.flatten)

/-- The value of a plain type is made of elements that are all read the same way. -/
structure PlainShape (typeCode : UInt8) {α : Type} (p : ReadM α) (mk : List α → RdbValue) :
    Prop where
  readN : ∀ n, readNElements typeCode n = (do
    let elements ← ReadAction.replicate n p
    pure (mk elements))
  joins : ∀ parts : List (List α), RdbValue.Joins (parts.map mk) (mk parts.flatten)
  count : ∀ elements, (mk elements).elementCount = elements.length
  value : readValue typeCode = (do
    let count ← readCount "element count"
    readNElements typeCode count)

theorem isPlainType_shape {typeCode : UInt8} (h : isPlainType typeCode = true) :
    ∃ (α : Type) (p : ReadM α) (mk : List α → RdbValue), PlainShape typeCode p mk := by
  unfold isPlainType at h
  split at h
  · exact ⟨_, readString, .list, fun _ => rfl, .list, fun _ => rfl, rfl⟩
  · exact ⟨_, readString, .set, fun _ => rfl, .set, fun _ => rfl, rfl⟩
  · exact ⟨_, readZsetPair, .sortedSet, fun _ => rfl, .sortedSet, fun _ => rfl, rfl⟩
  · exact ⟨_, readHashField, .hash, fun _ => rfl, .hash, fun _ => rfl, rfl⟩
  · exact ⟨_, readZset2Pair, .sortedSet, fun _ => rfl, .sortedSet, fun _ => rfl, rfl⟩
  · exact ⟨_, readHash2Field, .hash, fun _ => rfl, .hash, fun _ => rfl, rfl⟩
  · cases h

/-! ### The chunks of one key -/

/-- The chunks that a key with the state `s` and the elements `xs` left is split into. -/
inductive ChunkRun {α : Type} (max : ℕ+) (mk : List α → RdbValue) :
    ChunkedState → List α → List RdbEntry → Prop
  | last {s : ChunkedState} {xs : List α} (hne : xs ≠ []) (hle : xs.length ≤ max) :
      ChunkRun max mk s xs [s.entry (mk xs)]
  | next {s s' : ChunkedState} {xs : List α} {es : List RdbEntry}
      (hlt : (max : Nat) < xs.length) (ha : s.advance max = some s')
      (ht : ChunkRun max mk s' (xs.drop max) es) :
      ChunkRun max mk s xs (s.entry (mk (xs.take max)) :: es)

section ChunkRun

variable {α : Type} {max : ℕ+} {mk : List α → RdbValue}

theorem ChunkRun.length {s : ChunkedState} {xs : List α} {es : List RdbEntry}
    (h : ChunkRun max mk s xs es) : es.length = (xs.length + max - 1) / max := by
  have hpos := max.pos
  induction h with
  | @last s xs hne hle =>
    have hlen := List.length_pos_of_ne_nil hne
    have hdiv : (xs.length + max - 1) / max = 1 :=
      Nat.div_eq_of_lt_le (by omega) (by omega)
    rw [List.length_singleton, hdiv]
  | @next s s' xs es hlt _ _ ih =>
    have hsplit : xs.length + max - 1 = xs.length - max + max - 1 + max := by omega
    rw [List.length_cons, ih, List.length_drop, hsplit, Nat.add_div_right _ hpos]

theorem ChunkRun.parts {s : ChunkedState} {xs : List α} {es : List RdbEntry}
    (h : ChunkRun max mk s xs es) :
    ∃ parts : List (List α), es.map RdbEntry.value = parts.map mk ∧ parts.flatten = xs := by
  induction h with
  | @last s xs _ _ => exact ⟨[xs], rfl, List.append_nil xs⟩
  | @next s s' xs es _ _ _ ih =>
    obtain ⟨parts, hvalues, hflat⟩ := ih
    refine ⟨xs.take max :: parts, ?_, ?_⟩
    · rw [List.map_cons, List.map_cons, hvalues]
      rfl
    · rw [List.flatten_cons, hflat, List.take_append_drop]

/-- What a chunk has in common with the key it is cut from. -/
structure SameKey (e c : RdbEntry) : Prop where
  db : c.db = e.db
  key : c.key = e.key
  typeCode : c.typeCode = e.typeCode
  expiryMs : c.expiryMs = e.expiryMs
  lruIdleSecs : c.lruIdleSecs = e.lruIdleSecs
  lfuFrequency : c.lfuFrequency = e.lfuFrequency

theorem SameKey.trans {a b c : RdbEntry} (h : SameKey a b) (h' : SameKey b c) : SameKey a c :=
  ⟨h'.db.trans h.db, h'.key.trans h.key, h'.typeCode.trans h.typeCode,
    h'.expiryMs.trans h.expiryMs, h'.lruIdleSecs.trans h.lruIdleSecs,
    h'.lfuFrequency.trans h.lfuFrequency⟩

theorem advance_some {s s' : ChunkedState} {n : Nat} (h : s.advance n = some s') :
    s' = { s with remaining := s.remaining - n, elementOffset := s.elementOffset + n } := by
  rw [ChunkedState.advance] at h
  split at h
  · cases h
  · exact (Option.some.inj h).symm

theorem ChunkRun.sameKey {s : ChunkedState} {xs : List α} {es : List RdbEntry}
    (h : ChunkRun max mk s xs es) (v : RdbValue) :
    ∀ c ∈ es, SameKey (s.entry v) c ∧ c.totalElements = some s.totalCount := by
  induction h with
  | last _ _ =>
    intro c hc
    rw [List.mem_singleton.mp hc]
    exact ⟨⟨rfl, rfl, rfl, rfl, rfl, rfl⟩, rfl⟩
  | next _ ha _ ih =>
    intro c hc
    rw [advance_some ha] at ih
    rcases List.mem_cons.mp hc with rfl | hc
    · exact ⟨⟨rfl, rfl, rfl, rfl, rfl, rfl⟩, rfl⟩
    · exact ⟨⟨(ih c hc).1.db, (ih c hc).1.key, (ih c hc).1.typeCode, (ih c hc).1.expiryMs,
        (ih c hc).1.lruIdleSecs, (ih c hc).1.lfuFrequency⟩, (ih c hc).2⟩

/-- All chunks but the last are full, and the last is not empty. -/
theorem ChunkRun.sizes {s : ChunkedState} {xs : List α} {es : List RdbEntry}
    (h : ChunkRun max mk s xs es) (hcount : ∀ ys, (mk ys).elementCount = ys.length) :
    ∃ pre last, es = pre ++ [last] ∧ (∀ c ∈ pre, c.value.elementCount = (max : Nat)) ∧
      0 < last.value.elementCount ∧ last.value.elementCount ≤ (max : Nat) := by
  induction h with
  | @last s xs hne hle =>
    have hlast : (s.entry (mk xs)).value.elementCount = xs.length := hcount xs
    refine ⟨[], _, rfl, by simp, ?_, ?_⟩
    · rw [hlast]
      exact List.length_pos_of_ne_nil hne
    · rw [hlast]
      exact hle
  | @next s s' xs es hlt _ _ ih =>
    obtain ⟨pre, last, hes, hpre, hpos, hle⟩ := ih
    refine ⟨s.entry (mk (xs.take max)) :: pre, last, by rw [hes]; rfl, ?_, hpos, hle⟩
    intro c hc
    rcases List.mem_cons.mp hc with rfl | hc
    · have hfirst : (s.entry (mk (xs.take max))).value.elementCount = (xs.take max).length :=
        hcount _
      rw [hfirst, List.length_take]
      omega
    · exact hpre c hc

theorem ChunkRun.offsets {s : ChunkedState} {xs : List α} {es : List RdbEntry}
    (h : ChunkRun max mk s xs es) (hcount : ∀ ys, (mk ys).elementCount = ys.length) :
    ∀ pre c post, es = pre ++ c :: post → c.elementOffset =
      some (s.elementOffset + (pre.map fun e => e.value.elementCount).sum) := by
  induction h with
  | last _ _ =>
    intro pre c post he
    cases pre with
    | nil =>
      cases he
      rfl
    | cons p ps => simp at he
  | @next s s' xs es hlt ha _ ih =>
    intro pre c post he
    cases pre with
    | nil =>
      cases he
      rfl
    | cons p ps =>
      obtain ⟨hp, hes⟩ := List.cons.inj he
      have hc := ih ps c post hes
      have hcnt : p.value.elementCount = (max : Nat) := by
        have hfirst : (s.entry (mk (xs.take max))).value.elementCount = (xs.take max).length :=
          hcount _
        rw [← hp, hfirst, List.length_take]
        omega
      rw [hc, advance_some ha, List.map_cons, List.sum_cons, hcnt]
      dsimp only
      rw [Nat.add_assoc]

/-- A reader in the middle of a key yields the chunks of what is left of it. -/
theorem ChunkRun.steps {typeCode : UInt8} {p : ReadM α} (hshape : PlainShape typeCode p mk)
    {r : RdbReader} {s : ChunkedState} {xs : List α} {rd : CrcReader} (hf : r.finished = false)
    (hm : r.maxKeyElements = some max) (hc : r.chunked = some s) (hs : s.Valid)
    (ht : s.typeCode = typeCode)
    (hr : (ReadAction.replicate s.remaining p).run r.reader = (.ok xs, rd)) :
    ∃ es, ChunkRun max mk s xs es ∧
      Steps RdbReader.next r (es.map .ok) { r with reader := rd, chunked := none } := by
  have hmax := max.pos
  generalize hn : s.remaining = n at hr
  induction n using Nat.strong_induction_on generalizing r s xs with
  | _ n ih =>
    have hpos := hs.pos
    have hlen : xs.length = n := ReadAction.replicate_length hr
    have hne : xs ≠ [] := List.ne_nil_of_length_pos (by omega)
    have hchunk := readChunk_eq hc hm hs
    have hnext : ∀ e r', readChunk r = (.ok e, r') → r.next = (some (.ok e), r') := by
      intro e r' he
      have hinner := nextInner_chunked hc
      rw [run_bind_ok he] at hinner
      exact next_entry hf hinner
    rw [ht, hshape.readN] at hchunk
    by_cases hle : n ≤ max
    · -- the last chunk takes all that is left
      have hmin : min (max : Nat) s.remaining = n := by omega
      have hlast : s.advance n = none := by
        rw [ChunkedState.advance, if_pos (by omega)]
      rw [hmin, ReadAction.run_bind_ok hr] at hchunk
      dsimp only [ReadAction.run_pure] at hchunk
      rw [hlast] at hchunk
      exact ⟨_, .last hne (by omega), .cons (hnext _ _ hchunk) (.nil _)⟩
    · have hmin : min (max : Nat) s.remaining = max := by omega
      have hsplit : n = max + (n - max) := by omega
      rw [hsplit, ReadAction.replicate_add] at hr
      obtain ⟨as, s₁, ha, hr⟩ := ReadAction.bind_eq_ok hr
      obtain ⟨bs, s₂, hb, hr⟩ := ReadAction.bind_eq_ok hr
      cases hr
      have hal : as.length = max := ReadAction.replicate_length ha
      obtain ⟨s', hadv⟩ : ∃ s', s.advance max = some s' :=
        ⟨_, if_neg (by omega : ¬s.remaining - max = 0)⟩
      have hs' := advance_some hadv
      rw [hmin, ReadAction.run_bind_ok ha] at hchunk
      dsimp only [ReadAction.run_pure] at hchunk
      rw [hadv] at hchunk
      obtain ⟨es, hrun, hsteps⟩ := ih (n - max) (by omega)
        (r := { r with reader := s₁, chunked := some s' }) hf hm rfl (hs.advance hadv)
        (by rw [hs']; exact ht) (by rw [hs']; dsimp only; omega) hb
      have htake : (as ++ bs).take max = as := by rw [← hal, List.take_left]
      have hdrop : (as ++ bs).drop max = bs := by rw [← hal, List.drop_left]
      refine ⟨s.entry (mk as) :: es, ?_, .cons (hnext _ _ hchunk) hsteps⟩
      rw [← hdrop] at hrun
      have hcr : ChunkRun max mk s (as ++ bs) (s.entry (mk ((as ++ bs).take max)) :: es) :=
        .next (by omega) hadv hrun
      rwa [htake] at hcr

end ChunkRun

/-! ### An entry and its chunks -/

/-- How a large plain collection is yielded under a limit. -/
structure ChunksOf (max : ℕ+) (e : RdbEntry) (chunks : List RdbEntry) : Prop where
  plain : isPlainType e.typeCode = true
  large : (max : Nat) < e.value.elementCount
  count : chunks.length = (e.value.elementCount + max - 1) / max
  fields : ∀ c ∈ chunks, SameKey e c ∧ c.totalElements = some e.value.elementCount
  joins : RdbValue.Joins (chunks.map RdbEntry.value) e.value
  sizes : ∃ pre last, chunks = pre ++ [last] ∧
    (∀ c ∈ pre, c.value.elementCount = (max : Nat)) ∧
    0 < last.value.elementCount ∧ last.value.elementCount ≤ (max : Nat)
  offsets : ∀ pre c post, chunks = pre ++ c :: post →
    c.elementOffset = some (pre.map fun e => e.value.elementCount).sum

/-- An item of the iteration without chunking, and the items in its place under a limit. -/
inductive Rechunked (max : ℕ+) : Res RdbEntry → List (Res RdbEntry) → Prop
  | fault (f : Fault) : Rechunked max (.error f) [.error f]
  | whole {e : RdbEntry}
      (hsmall : isPlainType e.typeCode = true → e.value.elementCount ≤ (max : Nat))
      (ht : e.totalElements = none) (ho : e.elementOffset = none) :
      Rechunked max (.ok e) [.ok e]
  | chunks {e : RdbEntry} {chunks : List RdbEntry} (h : ChunksOf max e chunks) :
      Rechunked max (.ok e) (chunks.map .ok)

theorem ChunkRun.chunksOf {α : Type} {p : ReadM α} {max : ℕ+} {mk : List α → RdbValue}
    {s : ChunkedState} {xs : List α} {es : List RdbEntry} {e : RdbEntry}
    (h : ChunkRun max mk s xs es) (hshape : PlainShape e.typeCode p mk)
    (hplain : isPlainType e.typeCode = true) (hvalue : e.value = mk xs)
    (hlarge : (max : Nat) < xs.length) (htotal : s.totalCount = xs.length)
    (hoffset : s.elementOffset = 0) (hkey : SameKey e (s.entry (mk xs))) :
    ChunksOf max e es where
  plain := hplain
  large := by rwa [hvalue, hshape.count]
  count := by rw [hvalue, hshape.count, h.length]
  fields := by
    intro c hc
    obtain ⟨hsame, ht⟩ := h.sameKey (mk xs) c hc
    rw [hvalue, hshape.count, ← htotal]
    exact ⟨hkey.trans hsame, ht⟩
  joins := by
    obtain ⟨parts, hparts, hflat⟩ := h.parts
    rw [hparts, hvalue, ← hflat]
    exact hshape.joins parts
  sizes := h.sizes hshape.count
  offsets := by
    intro pre c post he
    rw [h.offsets hshape.count pre c post he, hoffset, Nat.zero_add]

/-! ### Two readers side by side -/

/-- No chunk limit, and no key in the middle of being read. -/
structure RdbReader.Unchunked (r : RdbReader) : Prop where
  maxKeyElements : r.maxKeyElements = none
  chunked : r.chunked = none

/-- The same reader under the limit `max`. -/
abbrev RdbReader.limited (r : RdbReader) (max : ℕ+) : RdbReader :=
  (chunkRewiring (some max) none).apply r

theorem Unchunked.same {r : RdbReader} (hr : r.Unchunked) {α : Type} {m : ReaderM α}
    (hm : (chunkRewiring none none).Same m) : (m r).2.Unchunked := by
  have happ : (chunkRewiring none none).apply r = r := by
    have h1 := hr.maxKeyElements
    have h2 := hr.chunked
    cases r
    subst h1 h2
    rfl
  have hfix := hm r fun _ _ hbad => hbad
  rw [happ] at hfix
  have hstate : (m r).2 = (chunkRewiring none none).apply (m r).2 := congrArg Prod.snd hfix
  rw [hstate]
  exact ⟨rfl, rfl⟩

theorem limited_same {r : RdbReader} {max : ℕ+} {α : Type} {m : ReaderM α} {x : Res α}
    {r' : RdbReader} (hm : (chunkRewiring (some max) none).Same m) (h : m r = (x, r')) :
    m (r.limited max) = (x, r'.limited max) := by
  have hrun := hm r fun _ _ hbad => hbad
  rwa [h] at hrun

theorem step_limited {r r' : RdbReader} (hr : r.Unchunked) (max : ℕ+) {α : Type}
    {m : ReaderM α} {x : Res α} (hm : ∀ limit, (chunkRewiring limit none).Same m)
    (h : m r = (x, r')) : m (r.limited max) = (x, r'.limited max) ∧ r'.Unchunked := by
  have hu := Unchunked.same hr (hm none)
  rw [h] at hu
  exact ⟨limited_same (hm _) h, hu⟩

theorem readEntry_same {typeCode : UInt8} (hp : isPlainType typeCode = false)
    (limit : Option ℕ+) : (chunkRewiring limit none).Same (readEntry typeCode) := by
  have w := chunkRewiring limit none
  refine (Rewiring.takePending _).bind fun pending => (Rewiring.liftRead _ _).bind fun key => ?_
  rw [readEntryValue_notPlain hp]
  exact StateAction.Commutes.get_bind (fun _ => rfl) fun r => Rewiring.readWholeEntry _ _ _ _ _

theorem opcodeArm_same {b : UInt8} (hb : isObjectType b = false) (limit : Option ℕ+) :
    (chunkRewiring limit none).Same (opcodeArm b) :=
  Rewiring.opcodeArm _ b fun h => by rw [hb] at h; cases h

theorem opcodeArm_ne_continue {b : UInt8} (hb : isObjectType b = true) {r r' : RdbReader} :
    opcodeArm b r ≠ (.ok none, r') := by
  intro h
  rw [opcodeArm_object hb] at h
  obtain ⟨e, r₁, -, hp⟩ := bind_eq_ok h
  cases hp

theorem rounds_limited {r r' : RdbReader} (h : Rounds opcodeStep r r') (hr : r.Unchunked)
    (max : ℕ+) : Rounds opcodeStep (r.limited max) (r'.limited max) ∧ r'.Unchunked := by
  induction h with
  | refl s => exact ⟨.refl _, hr⟩
  | head hs _ ih =>
    obtain ⟨b, r₁, -, ho, ha, -⟩ := opcodeStep_continue hs
    have hb : isObjectType b = false := by
      cases hb : isObjectType b with
      | false => rfl
      | true => exact absurd ha (opcodeArm_ne_continue hb)
    obtain ⟨ho', hr₁⟩ := step_limited hr max (fun _ => Rewiring.readOpcode _) ho
    obtain ⟨ha', hr₂⟩ := step_limited hr₁ max (opcodeArm_same hb) ha
    obtain ⟨hrest, hr'⟩ := ih hr₂
    have hstep : opcodeStep _ = (.ok none, _) := (run_bind_ok ho').trans ha'
    exact ⟨.head hstep hrest, hr'⟩

/-! ### Key objects under a limit -/

theorem terminal_of_inputError {f : Fault} (h : f.IsInputError) : Terminal (.error f) := by
  rcases f with (_ | _ | _ | _ | _) | _ | _
  · trivial
  · trivial
  · trivial
  · trivial
  · exact h
  · trivial
  · trivial

theorem readEntry_inv {b : UInt8} {r r' : RdbReader} {e : RdbEntry} (hr : r.Unchunked)
    (h : readEntry b r = (.ok e, r')) :
    ∃ key rd value rd', readString.run r.reader = (.ok key, rd) ∧
      (readValue b).run rd = (.ok value, rd') ∧
      e = keyEntry r.currentDb b r.pending key value none none ∧ r' = r.keyed rd' := by
  rcases hk : readString.run r.reader with ⟨f | key, rd⟩
  · rw [readEntry_error hk] at h
    cases h
  have hm : (r.keyed rd).maxKeyElements = none := hr.maxKeyElements
  rw [readEntry_ok hk, readEntryValue_unchunked hm] at h
  rcases hv : (readValue b).run rd with ⟨f | value, rd'⟩
  · have herr := readWholeEntry_error (r.keyed rd).currentDb r.pending key (r := r.keyed rd) hv
    rw [herr] at h
    cases h
  · have hok := readWholeEntry_ok (r.keyed rd).currentDb r.pending key (r := r.keyed rd) hv
    rw [hok] at h
    cases h
    exact ⟨key, rd, value, rd', rfl, hv, rfl, rfl⟩

theorem readEntry_whole {b : UInt8} {r r' : RdbReader} {e : RdbEntry} (hr : r.Unchunked)
    (h : readEntry b r = (.ok e, r')) :
    e.typeCode = b ∧ e.totalElements = none ∧ e.elementOffset = none := by
  obtain ⟨key, rd, value, rd', -, -, rfl, -⟩ := readEntry_inv hr h
  exact ⟨rfl, rfl, rfl⟩

section Plain

variable {α : Type} {b : UInt8} {p : ReadM α} {mk : List α → RdbValue} {r : RdbReader}
  {key : Bytes} {rd s₁ s₂ : CrcReader} {n : Nat} {xs : List α}

theorem readEntry_plain (hp : isPlainType b = true) (max : ℕ+)
    (hk : readString.run r.reader = (.ok key, rd)) :
    readEntry b (r.limited max) =
      readPlainEntry r.currentDb b r.pending key max ((r.limited max).keyed rd) := by
  have hm : ((r.limited max).keyed rd).maxKeyElements = some max := rfl
  have hk' : readString.run (r.limited max).reader = (.ok key, rd) := hk
  rw [readEntry_ok hk', readEntryValue_limited hm hp]
  rfl

theorem readPlain_small (hp : isPlainType b = true) (hshape : PlainShape b p mk) {max : ℕ+}
    (hk : readString.run r.reader = (.ok key, rd))
    (hn : (readCount "element count").run rd = (.ok n, s₁))
    (hxs : (ReadAction.replicate n p).run s₁ = (.ok xs, s₂)) (hle : n ≤ max) :
    readEntry b (r.limited max) =
      (.ok (keyEntry r.currentDb b r.pending key (mk xs) none none), (r.limited max).keyed s₂) := by
  have hcount : liftRead (readCount "element count") ((r.limited max).keyed rd) =
      (.ok n, (r.limited max).keyed s₁) := liftRead_ok hn
  have hread : (readNElements b n).run s₁ = (.ok (mk xs), s₂) := by
    rw [hshape.readN, ReadAction.run_bind_ok hxs]
    rfl
  have hvalue : liftRead (readNElements b n) ((r.limited max).keyed s₁) =
      (.ok (mk xs), (r.limited max).keyed s₂) := liftRead_ok hread
  rw [readEntry_plain hp max hk, readPlainEntry, run_bind_ok hcount, if_neg (by omega),
    run_bind_ok hvalue]
  rfl

theorem readPlain_large (hp : isPlainType b = true) (hshape : PlainShape b p mk) {max : ℕ+}
    (hf : r.finished = false) (hk : readString.run r.reader = (.ok key, rd))
    (hn : (readCount "element count").run rd = (.ok n, s₁))
    (hxs : (ReadAction.replicate n p).run s₁ = (.ok xs, s₂)) (hlt : (max : Nat) < n) :
    ∃ first r₁ later, readEntry b (r.limited max) = (.ok first, r₁) ∧ r₁.finished = false ∧
      Steps RdbReader.next r₁ (later.map .ok) ((r.keyed s₂).limited max) ∧
      ChunksOf max (keyEntry r.currentDb b r.pending key (mk xs) none none) (first :: later) := by
  have hlen : xs.length = n := ReadAction.replicate_length hxs
  have hbound : n ≤ maxAllocBytes := (readCount_returns _).ok hn
  have hcount : liftRead (readCount "element count") ((r.limited max).keyed rd) =
      (.ok n, (r.limited max).keyed s₁) := liftRead_ok hn
  have hsplit : n = max + (n - max) := by omega
  rw [hsplit, ReadAction.replicate_add] at hxs
  obtain ⟨as, t₁, has, hxs⟩ := ReadAction.bind_eq_ok hxs
  obtain ⟨bs, t₂, hbs, hxs⟩ := ReadAction.bind_eq_ok hxs
  cases hxs
  have hal : as.length = max := ReadAction.replicate_length has
  have hfirst : (readNElements b max).run s₁ = (.ok (mk as), t₁) := by
    rw [hshape.readN, ReadAction.run_bind_ok has]
    rfl
  have hvalue : liftRead (readNElements b max) ((r.limited max).keyed s₁) =
      (.ok (mk as), (r.limited max).keyed t₁) := liftRead_ok hfirst
  have hplain := readEntry_plain hp max hk
  rw [readPlainEntry, run_bind_ok hcount, if_pos (by omega), readFirstChunk, run_bind_ok hvalue,
    sub64_eq (by omega)] at hplain
  -- the state of the key before its first element, and after its first chunk
  let s := ChunkedState.start r.currentDb b r.pending key n n 0
  let s' := ChunkedState.start r.currentDb b r.pending key n (n - max) max
  have hs' : s'.Valid := ⟨hp, by dsimp only [s', ChunkedState.start]; omega,
    by dsimp only [s', ChunkedState.start]; omega, hbound⟩
  have hadv : s.advance max = some s' := by
    rw [ChunkedState.advance, if_neg (by dsimp only [s, ChunkedState.start]; omega)]
    simp [s, s', ChunkedState.start]
  have hsave : saveChunked s' ((r.limited max).keyed t₁) =
      (.ok (), { (r.limited max).keyed t₁ with chunked := some s' }) := by
    rw [saveChunked, if_pos hs'.pos]
    rfl
  obtain ⟨es, hrun, hsteps⟩ := ChunkRun.steps hshape
    (r := { (r.limited max).keyed t₁ with chunked := some s' }) hf rfl rfl hs' rfl hbs
  have hcr : ChunkRun max mk s (as ++ bs) (s.entry (mk as) :: es) := by
    have htake : (as ++ bs).take max = as := by rw [← hal, List.take_left]
    have hdrop : (as ++ bs).drop max = bs := by rw [← hal, List.drop_left]
    rw [← hdrop] at hrun
    have hnext : ChunkRun max mk s (as ++ bs) (s.entry (mk ((as ++ bs).take max)) :: es) :=
      .next (by omega) hadv hrun
    rwa [htake] at hnext
  have hchunks := hcr.chunksOf (e := keyEntry r.currentDb b r.pending key (mk (as ++ bs)) none none)
    hshape hp rfl (by omega) hlen.symm rfl ⟨rfl, rfl, rfl, rfl, rfl, rfl⟩
  exact ⟨_, _, es, hplain.trans (run_bind_ok hsave), hf, hsteps, hchunks⟩

end Plain

theorem readPlain_rechunked {b : UInt8} (hp : isPlainType b = true) {r r' : RdbReader}
    {e : RdbEntry} (hr : r.Unchunked) (hf : r.finished = false) (max : ℕ+)
    (h : readEntry b r = (.ok e, r')) : r'.Unchunked ∧
      ∃ first r₁ later, readEntry b (r.limited max) = (.ok first, r₁) ∧ r₁.finished = false ∧
        Steps RdbReader.next r₁ later (r'.limited max) ∧
        Rechunked max (.ok e) (.ok first :: later) := by
  obtain ⟨α, p, mk, hshape⟩ := isPlainType_shape hp
  obtain ⟨key, rd, value, rd', hk, hv, rfl, rfl⟩ := readEntry_inv hr h
  rw [hshape.value] at hv
  obtain ⟨n, s₁, hn, hv⟩ := ReadAction.bind_eq_ok hv
  rw [hshape.readN] at hv
  obtain ⟨xs, s₂, hxs, hv⟩ := ReadAction.bind_eq_ok hv
  cases hv
  refine ⟨⟨hr.maxKeyElements, hr.chunked⟩, ?_⟩
  by_cases hle : n ≤ max
  · have hsmall : (mk xs).elementCount ≤ max := by
      rw [hshape.count, ReadAction.replicate_length hxs]
      exact hle
    exact ⟨_, _, [], readPlain_small hp hshape hk hn hxs hle, hf, .nil _, .whole (fun _ => hsmall) rfl rfl⟩
  · obtain ⟨first, r₁, later, hfirst, hr₁, hsteps, hchunks⟩ :=
      readPlain_large hp hshape hf hk hn hxs (Nat.lt_of_not_le hle)
    exact ⟨first, r₁, later.map .ok, hfirst, hr₁, hsteps, .chunks hchunks⟩

theorem readEntry_rechunked {b : UInt8} {r r' : RdbReader} {e : RdbEntry} (hr : r.Unchunked)
    (hf : r.finished = false) (max : ℕ+) (h : readEntry b r = (.ok e, r')) :
    r'.Unchunked ∧ ∃ first r₁ later, readEntry b (r.limited max) = (.ok first, r₁) ∧
      r₁.finished = false ∧ Steps RdbReader.next r₁ later (r'.limited max) ∧
      Rechunked max (.ok e) (.ok first :: later) := by
  cases hp : isPlainType b with
  | true =>
    exact readPlain_rechunked hp hr hf max h
  | false =>
    obtain ⟨hl, hu⟩ := step_limited hr max (readEntry_same hp) h
    have hmoves := readEntry_moves b r
    rw [h] at hmoves
    have hfields := readEntry_whole hr h
    refine ⟨hu, e, _, [], hl, hmoves.finished.trans hf, .nil _, .whole ?_ hfields.2.1 hfields.2.2⟩
    rw [hfields.1, hp]
    intro hc
    cases hc

/-- A failure of a key object is the same under a limit, or ends the iteration. -/
theorem readEntry_fault {b : UInt8} {r r' : RdbReader} {f : Fault} (hr : r.Unchunked)
    (max : ℕ+) (h : readEntry b r = (.error f, r')) (hx : ¬Terminal (.error f)) :
    readEntry b (r.limited max) = (.error f, r'.limited max) ∧ r'.Unchunked := by
  cases hp : isPlainType b with
  | false => exact step_limited hr max (readEntry_same hp) h
  | true =>
    obtain ⟨α, p, mk, hshape⟩ := isPlainType_shape hp
    refine absurd (terminal_of_inputError ?_) hx
    rcases hk : readString.run r.reader with ⟨f' | key, rd⟩
    · rw [readEntry_error hk] at h
      cases h
      have hfine := readString_returns r.reader
      rwa [hk] at hfine
    · have hm : (r.keyed rd).maxKeyElements = none := hr.maxKeyElements
      rw [readEntry_ok hk, readEntryValue_unchunked hm] at h
      rcases hv : (readValue b).run rd with ⟨f' | value, rd'⟩
      · have herr := readWholeEntry_error (r.keyed rd).currentDb r.pending key
          (r := r.keyed rd) hv
        rw [herr] at h
        cases h
        have hfine := plainValue_returns b rd
        rw [← hshape.value, hv] at hfine
        exact hfine
      · have hok := readWholeEntry_ok (r.keyed rd).currentDb r.pending key
          (r := r.keyed rd) hv
        rw [hok] at h
        cases h

/-! ### Whole runs -/

theorem next_rechunked {r r' : RdbReader} {x : Res RdbEntry} (hr : r.Unchunked) (max : ℕ+)
    (hn : r.next = (some x, r')) (hx : ¬Terminal x) : r'.Unchunked ∧
      ∃ group, Steps RdbReader.next (r.limited max) group (r'.limited max) ∧
        Rechunked max x group := by
  have hf : r.finished = false := by
    cases hf : r.finished with
    | false => rfl
    | true =>
      rw [next_finished hf] at hn
      cases hn
  have hinner := nextInner_unchunked hr.chunked
  have hinner' : nextInner (r.limited max) = opcodeLoop (r.limited max) := nextInner_unchunked rfl
  obtain ⟨r₁, hrounds, hloop⟩ := opcodeLoop_cases r
  obtain ⟨hrounds', hr₁⟩ := rounds_limited hrounds hr max
  rcases hloop with ⟨-, hl⟩ | ⟨b, r₂, ho, hloop⟩
  · rw [hl] at hinner
    rcases next_error hf hinner with ⟨ht, -⟩ | ⟨ht, he⟩
    · exact absurd trivial ht
    · rw [he] at hn
      cases hn
      exact absurd ht hx
  obtain ⟨ho', hr₂⟩ := step_limited hr₁ max (fun _ => Rewiring.readOpcode _) ho
  have hf₂ : r₂.finished = false :=
    (readOpcode_advances ho).finished.trans ((rounds_advances hrounds).finished.trans hf)
  rcases hloop with ⟨y, r₃, ha, hl⟩ | ⟨f, r₃, ha, hl⟩
  · rw [hl] at hinner
    cases y with
    | none =>
      rw [next_none hf hinner] at hn
      cases hn
    | some e =>
      rw [next_entry hf hinner] at hn
      cases hn
      have hb := opcodeArm_entry ha
      rw [opcodeArm_object hb] at ha
      obtain ⟨e', r₄, he, hpure⟩ := bind_eq_ok ha
      cases hpure
      obtain ⟨hu, first, s₁, later, hfirst, hs₁, hlater, hre⟩ := readEntry_rechunked hr₂ hf₂ max he
      have harm : opcodeArm b (r₂.limited max) = (.ok (some (some first)), s₁) := by
        rw [opcodeArm_object hb, run_bind_ok hfirst]
        rfl
      rw [opcodeLoop_done hrounds' ho' harm] at hinner'
      exact ⟨hu, .ok first :: later, .cons (next_entry hf hinner') hlater, hre⟩
  · rw [hl] at hinner
    rcases next_error hf hinner with ⟨-, he⟩ | ⟨ht, he⟩
    · rw [he] at hn
      cases hn
      have harm : opcodeArm b (r₂.limited max) = (.error f, r'.limited max) ∧ r'.Unchunked := by
        cases hb : isObjectType b with
        | false => exact step_limited hr₂ max (opcodeArm_same hb) ha
        | true =>
          rw [opcodeArm_object hb] at ha ⊢
          rcases bind_eq_error ha with he' | ⟨e, r₄, -, hpure⟩
          · obtain ⟨hl', hu⟩ := readEntry_fault hr₂ max he' hx
            exact ⟨run_bind_error hl', hu⟩
          · cases hpure
      rw [opcodeLoop_error hrounds' ho' harm.1] at hinner'
      refine ⟨harm.2, [.error f], .cons ?_ (.nil _), .fault f⟩
      rcases next_error (r := r.limited max) hf hinner' with ⟨-, he'⟩ | ⟨ht, -⟩
      · exact he'
      · exact absurd ht hx
    · rw [he] at hn
      cases hn
      exact absurd ht hx

theorem next_none_limited {r r' : RdbReader} (hr : r.Unchunked) (max : ℕ+)
    (hn : r.next = (none, r')) :
    (r.limited max).next = (none, r'.limited max) ∧ r'.Unchunked := by
  cases hf : r.finished with
  | true =>
    have hf' : (r.limited max).finished = true := hf
    rw [next_finished hf] at hn
    cases hn
    exact ⟨next_finished hf', hr⟩
  | false =>
    have hinner := nextInner_unchunked hr.chunked
    have hinner' : nextInner (r.limited max) = opcodeLoop (r.limited max) :=
      nextInner_unchunked rfl
    obtain ⟨r₁, hrounds, hloop⟩ := opcodeLoop_cases r
    obtain ⟨hrounds', hr₁⟩ := rounds_limited hrounds hr max
    rcases hloop with ⟨-, hl⟩ | ⟨b, r₂, ho, ⟨y, r₃, ha, hl⟩ | ⟨f, r₃, ha, hl⟩⟩
    · rw [hl] at hinner
      rcases next_error hf hinner with ⟨-, he⟩ | ⟨-, he⟩ <;> rw [he] at hn <;> cases hn
    · rw [hl] at hinner
      cases y with
      | some e =>
        rw [next_entry hf hinner] at hn
        cases hn
      | none =>
        rw [next_none hf hinner] at hn
        cases hn
        have hb : b = rdbOpcodeEof := by
          by_contra hne
          exact opcodeArm_ne_end hne ha
        subst hb
        obtain ⟨ho', hr₂⟩ := step_limited hr₁ max (fun _ => Rewiring.readOpcode _) ho
        obtain ⟨ha', hr'⟩ := step_limited hr₂ max (opcodeArm_same (by decide)) ha
        rw [opcodeLoop_done hrounds' ho' ha'] at hinner'
        exact ⟨next_none hf hinner', hr'⟩
    · rw [hl] at hinner
      rcases next_error hf hinner with ⟨-, he⟩ | ⟨-, he⟩ <;> rw [he] at hn <;> cases hn

theorem yields_rechunked {r r' : RdbReader} {items : List (Res RdbEntry)} (hr : r.Unchunked)
    (max : ℕ+) (hy : Yields RdbReader.next r items r') (hx : ∀ x ∈ items, ¬Terminal x) :
    r'.Unchunked ∧ ∃ groups,
      Yields RdbReader.next (r.limited max) groups.flatten (r'.limited max) ∧
      List.Forall₂ (Rechunked max) items groups := by
  induction items generalizing r with
  | nil =>
    obtain ⟨hn, hr'⟩ := next_none_limited hr max hy.nil_inv
    exact ⟨hr', [], .nil hn, .nil⟩
  | cons x xs ih =>
    obtain ⟨s, hn, hy⟩ := hy.cons_inv
    obtain ⟨hs, group, hsteps, hgroup⟩ := next_rechunked hr max hn (hx x List.mem_cons_self)
    obtain ⟨hr', groups, hys, hgroups⟩ := ih hs hy fun y hm => hx y (List.mem_cons_of_mem _ hm)
    exact ⟨hr', group :: groups, hsteps.yields hys, .cons hgroup hgroups⟩

def startsKey : Res RdbEntry → Bool
  | .ok e => e.isFirstChunk
  | .error _ => false

theorem ChunksOf.startsKey {max : ℕ+} {e : RdbEntry} {chunks : List RdbEntry}
    (h : ChunksOf max e chunks) :
    ((chunks.map Except.ok : List (Res RdbEntry)).filter startsKey).length = 1 := by
  obtain ⟨pre, last, hchunks, hpre, -, -⟩ := h.sizes
  cases hc : chunks with
  | nil => simp [hchunks] at hc
  | cons c cs =>
    have hfirst := h.offsets [] c cs hc
    have hrest : ∀ d ∈ cs, d.isFirstChunk = false := by
      intro d hd
      obtain ⟨ps, post, hcs⟩ := List.append_of_mem hd
      have hoff := h.offsets (c :: ps) d post (by rw [hc, hcs]; rfl)
      have hmem : c ∈ pre := by
        cases pre with
        | nil =>
          rw [hchunks] at hc
          have hnil := (List.cons.inj hc).2
          rw [← hnil] at hd
          cases hd
        | cons p ps' =>
          rw [hchunks] at hc
          rw [(List.cons.inj hc).1]
          exact List.mem_cons_self
      have hpos := max.pos
      have hcnt := hpre c hmem
      rw [RdbEntry.isFirstChunk, hoff, List.map_cons, List.sum_cons, hcnt]
      simp
    have hnone : (cs.map Except.ok : List (Res RdbEntry)).filter ValkeyRdb.startsKey = [] := by
      rw [List.filter_eq_nil_iff]
      intro x hx
      obtain ⟨d, hd, rfl⟩ := List.mem_map.mp hx
      simp [ValkeyRdb.startsKey, hrest d hd]
    have hyes : ValkeyRdb.startsKey (.ok c) = true := by
      simp [ValkeyRdb.startsKey, RdbEntry.isFirstChunk, hfirst]
    rw [List.map_cons, List.filter_cons_of_pos hyes, hnone]
    rfl

theorem Rechunked.startsKey {max : ℕ+} {e : RdbEntry} {group : List (Res RdbEntry)}
    (h : Rechunked max (.ok e) group) : (group.filter startsKey).length = 1 := by
  cases h with
  | whole _ _ ho => simp [ValkeyRdb.startsKey, RdbEntry.isFirstChunk, ho]
  | chunks h => exact h.startsKey

theorem limited_withoutChunking {r : RdbReader} (h : r.chunked = none) (max : ℕ+) :
    r.withoutChunking.limited max = r.withMaxKeyElements max := by
  cases r
  subst h
  rfl

theorem rechunked_yields {input : Bytes} (max : ℕ+) {r r' : RdbReader}
    {items : List (Res RdbEntry)} (hnew : RdbReader.new input = .ok r)
    (hy : Yields RdbReader.next r.withoutChunking items r') (hclean : ∀ x ∈ items, ¬Terminal x) :
    ∃ groups, Yields RdbReader.next (r.withMaxKeyElements max) groups.flatten
        (r'.withMaxKeyElements max) ∧
      List.Forall₂ (Rechunked max) items groups := by
  have hchunked : r.chunked = none := by rw [new_eq hnew]; rfl
  obtain ⟨hr', groups, hys, hgroups⟩ :=
    yields_rechunked (r := r.withoutChunking) ⟨rfl, hchunked⟩ max hy hclean
  rw [limited_withoutChunking hchunked max] at hys
  have hend : r'.limited max = r'.withMaxKeyElements max :=
    limited_withoutChunking hr'.chunked max
  rw [hend] at hys
  exact ⟨groups, hys, hgroups⟩

/-- Under a limit every large plain collection of a well-formed file is yielded, at its
place, as its chunks, and every other item as it is without chunking. -/
theorem chunking_lossless (input : Bytes) (max : ℕ+) (r r' : RdbReader)
    (items : List (Res RdbEntry)) (hnew : RdbReader.new input = .ok r)
    (hy : Yields RdbReader.next r.withoutChunking items r') (hclean : ∀ x ∈ items, ¬Terminal x) :
    ∃ groups, Yields RdbReader.next (r.withMaxKeyElements max) groups.flatten
        (r'.withMaxKeyElements max) ∧
      List.Forall₂ (Rechunked max) items groups ∧
      List.Forall₂ (fun x group => ∀ e, x = .ok e → (group.filter startsKey).length = 1)
        items groups := by
  obtain ⟨groups, hys, hgroups⟩ := rechunked_yields max hnew hy hclean
  refine ⟨groups, hys, hgroups, hgroups.imp fun x group h e he => ?_⟩
  subst he
  exact h.startsKey

/-- "REDIS0011", the list "k" with the elements "a", "b" and "c", and the end. -/
def listFile : Bytes := magicRedis ++
  [48, 49, 49, 1, 1, 107, 3, 1, 97, 1, 98, 1, 99, 255, 0, 0, 0, 0, 0, 0, 0, 0]

def listReader : RdbReader :=
  { RdbReader.afterHeader ⟨listFile.drop 10, crc64 0 (listFile.take 10)⟩ ⟨.redis, 11⟩ with
    preambleByte := some rdbTypeList }

def listEntry : RdbEntry :=
  keyEntry 0 rdbTypeList (none, none, none) [107] (.list [[97], [98], [99]]) none none

theorem chunking_lossless_list : ∃ r' groups,
    Yields RdbReader.next (listReader.withMaxKeyElements 2) groups.flatten r' ∧
    List.Forall₂ (Rechunked 2) [.ok listEntry] groups := by
  have hnew : RdbReader.new listFile = .ok listReader := by decide +kernel
  have hy := (Reachable.new hnew).withoutChunking.yields
  have hitems : listReader.withoutChunking.items.1 = [.ok listEntry] := by decide +kernel
  rw [hitems] at hy
  obtain ⟨groups, hys, hgroups, -⟩ := chunking_lossless listFile 2 listReader _ [.ok listEntry]
    hnew hy (by simp [Terminal])
  exact ⟨_, groups, hys, hgroups⟩

end ValkeyRdb
