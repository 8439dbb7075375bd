import ValkeyRdb.Format.Records

/-!
# Key objects as they are written

A key object is passed if its key and its value are within the caps, under every chunk
setting; the chunks that a large plain collection is read in do not depend on what
follows it.
-/

namespace ValkeyRdb

open ReadAction (Decodes DecodesWhen FailsWith)
open StateAction (run_bind_ok run_bind_error)

/-! ### Plain collections -/

/-- The form of a plain collection: a number of items, each read by `p`. -/
structure ValueForm.Plain (f : ValueForm) {ι α : Type} (c : Counted ι) (item : ι → Bytes)
    (fits : ι → Prop) (value : ι → α) (p : ReadM α) (mk : List α → RdbValue) : Prop where
  shape : PlainShape f.typeCode p mk
  reads : ∀ t ∈ c.items, DecodesWhen (fits t) p (item t) (value t)
  bytes : f.bytes = c.bytes item
  fits : f.Fits ↔ c.Fits fits

theorem ValueForm.plain (f : ValueForm) (h : isPlainType f.typeCode = true) :
    ∃ (ι α : Type) (c : Counted ι) (item : ι → Bytes) (fits : ι → Prop) (value : ι → α)
      (p : ReadM α) (mk : List α → RdbValue), f.Plain c item fits value p mk := by
  have hnear : ∀ {P : Prop}, P ∧ True ↔ P := by simp
  cases f with
  | string s => cases h
  | list f =>
    cases f with
    | list c =>
      exact ⟨_, _, c, _, _, _, readString, .list, ⟨fun _ => rfl, .list, fun _ => rfl, rfl⟩,
        fun t _ => t.decodes, rfl, hnear⟩
    | ziplist b => cases h
    | quicklist c => cases h
    | quicklist2 c => cases h
  | set f =>
    cases f with
    | set c =>
      exact ⟨_, _, c, _, _, _, readString, .set, ⟨fun _ => rfl, .set, fun _ => rfl, rfl⟩,
        fun t _ => t.decodes, rfl, hnear⟩
    | listpack b => cases h
    | intset b => cases h
  | sortedSet f =>
    cases f with
    | zset c =>
      exact ⟨_, _, c, _, _, _, readZsetPair, .sortedSet,
        ⟨fun _ => rfl, .sortedSet, fun _ => rfl, rfl⟩, fun t _ => readZsetPair_when t.1 t.2, rfl,
        hnear⟩
    | zset2 c =>
      exact ⟨_, _, c, _, _, _, readZset2Pair, .sortedSet,
        ⟨fun _ => rfl, .sortedSet, fun _ => rfl, rfl⟩, fun t _ => readZset2Pair_when t.1 t.2, rfl,
        hnear⟩
    | ziplist b pairs hb => cases h
    | listpack b pairs hb => cases h
  | hash f =>
    cases f with
    | hash c =>
      exact ⟨_, _, c, _, _, _, readHashField, .hash, ⟨fun _ => rfl, .hash, fun _ => rfl, rfl⟩,
        fun t _ => readHashField_when t.1 t.2, rfl, hnear⟩
    | hash2 c =>
      exact ⟨_, _, c, _, _, _, readHash2Field, .hash, ⟨fun _ => rfl, .hash, fun _ => rfl, rfl⟩,
        fun t _ => t.decodes, rfl, hnear⟩
    | ziplist b pairs hb => cases h
    | listpack b pairs hb => cases h
  | stream f =>
    change isPlainType f.version.typeCode = true at h
    cases hv : f.version <;> rw [hv] at h <;> cases h
  | module f => cases h

section Chunks

variable {ι α : Type} {typeCode : UInt8} {p : ReadM α} {mk : List α → RdbValue}
  {item : ι → Bytes} {fits : ι → Prop} {value : ι → α}

theorem PlainShape.reads (hshape : PlainShape typeCode p mk) {ts : List ι}
    (h : ∀ t ∈ ts, DecodesWhen (fits t) p (item t) (value t)) :
    DecodesWhen (∀ t ∈ ts, fits t) (readNElements typeCode ts.length) (ts.flatMap item)
      (mk (ts.map value)) := by
  rw [hshape.readN]
  exact (DecodesWhen.replicate h).map mk

/-- A reader in the middle of a plain collection, with the items `ts` to come. -/
structure RdbReader.Within (r : RdbReader) (s : ChunkedState) (max : ℕ+) (input : Bytes) :
    Prop where
  preambleByte : r.preambleByte = none
  finished : r.finished = false
  maxKeyElements : r.maxKeyElements = some max
  chunked : r.chunked = some s
  inner : r.reader.inner = input

theorem chunk_next (hshape : PlainShape typeCode p mk) {s : ChunkedState} (hs : s.Valid)
    (ht : s.typeCode = typeCode) (max : ℕ+) {first : List ι}
    (h : ∀ t ∈ first, DecodesWhen (fits t) p (item t) (value t))
    (hlen : first.length = min (max : Nat) s.remaining) :
    ((∀ t ∈ first, fits t) → ∀ (r : RdbReader) (rest : Bytes), r.Within s max (first.flatMap item ++ rest) →
      r.next = (some (.ok (s.entry (mk (first.map value)))),
        { r.past (first.flatMap item) rest with chunked := s.advance first.length })) ∧
    ((¬∀ t ∈ first, fits t) → ∃ f, Terminal (.error f) ∧ ∀ (r : RdbReader) (rest : Bytes),
      r.Within s max (first.flatMap item ++ rest) →
        ∃ r', Yields RdbReader.next r [.error f] r') := by
  have hwhen := hshape.reads h
  have hread : ∀ {r : RdbReader} {rest : Bytes} {v rd},
      r.Within s max (first.flatMap item ++ rest) →
      (readNElements typeCode first.length).run r.reader = (.ok v, rd) →
      nextInner r = (.ok (some (s.entry v)),
        { r with reader := rd, chunked := s.advance first.length }) := by
    intro r rest v rd hr hv
    have hchunk := readChunk_eq hr.chunked hr.maxKeyElements hs
    rw [ht, ← hlen, hv] at hchunk
    rw [nextInner_chunked hr.chunked, run_bind_ok hchunk]
    rfl
  have hfault : ∀ {r : RdbReader} {rest : Bytes} {f rd},
      r.Within s max (first.flatMap item ++ rest) →
      (readNElements typeCode first.length).run r.reader = (.error f, rd) →
      nextInner r = (.error f, { r with reader := rd }) := by
    intro r rest f rd hr hv
    have hchunk := readChunk_eq hr.chunked hr.maxKeyElements hs
    rw [ht, ← hlen, hv] at hchunk
    rw [nextInner_chunked hr.chunked, run_bind_error hchunk]
  constructor
  · intro hfit r rest hr
    have hrun := (hwhen.decodes hfit).run rest r.reader.crc
    rw [← hr.inner] at hrun
    exact next_entry hr.finished (hread hr hrun)
  · intro hfit
    obtain ⟨f, hf⟩ := hwhen.fails hfit
    have hterm := terminal_of_fails (readNElements_returns typeCode first.length) hf
    refine ⟨f, hterm, fun r rest hr => ?_⟩
    have hrun := hf rest r.reader.crc
    rw [← hr.inner] at hrun
    have hinner := hfault hr (Prod.ext hrun rfl)
    rcases next_error hr.finished hinner with ⟨hno, -⟩ | ⟨-, hn⟩
    · exact absurd hterm hno
    · exact ⟨_, yields_terminal hn hterm⟩

/-- In the middle of a collection with these bytes to come: the chunks are yielded, or some
of them and then an error. -/
structure ChunksWhen (P : Prop) (max : ℕ+) (s : ChunkedState) (bytes : Bytes) : Prop where
  passes : P → ∃ es : List RdbEntry, ∀ (r : RdbReader) (rest : Bytes),
    r.Within s max (bytes ++ rest) →
      Steps RdbReader.next r (es.map .ok) { r.past bytes rest with chunked := none }
  stops : ¬P → ∃ (es : List RdbEntry) (f : Fault), Terminal (.error f) ∧
    ∀ (r : RdbReader) (rest : Bytes), r.Within s max (bytes ++ rest) →
      ∃ r', Yields RdbReader.next r (es.map .ok ++ [.error f]) r'

theorem RdbReader.Within.next {r : RdbReader} {s : ChunkedState} {max : ℕ+}
    {bytes later rest : Bytes} (h : r.Within s max (bytes ++ later ++ rest)) (s' : ChunkedState) :
    r.Within s max (bytes ++ (later ++ rest)) ∧
      RdbReader.Within { r.past bytes (later ++ rest) with chunked := some s' } s' max
        (later ++ rest) := by
  refine ⟨⟨h.preambleByte, h.finished, h.maxKeyElements, h.chunked, ?_⟩,
    ⟨h.preambleByte, h.finished, h.maxKeyElements, rfl, rfl⟩⟩
  rw [h.inner, List.append_assoc]

theorem ChunksWhen.cons {P Q : Prop} {max : ℕ+} {s s' : ChunkedState} {bytes later : Bytes}
    {e : RdbEntry}
    (hpass : P → ∀ (r : RdbReader) (rest : Bytes), r.Within s max (bytes ++ rest) →
      r.next = (some (.ok e), { r.past bytes rest with chunked := some s' }))
    (hstop : ¬P → ∃ f, Terminal (.error f) ∧ ∀ (r : RdbReader) (rest : Bytes),
      r.Within s max (bytes ++ rest) → ∃ r', Yields RdbReader.next r [.error f] r')
    (hlater : ChunksWhen Q max s' later) : ChunksWhen (P ∧ Q) max s (bytes ++ later) := by
  constructor
  · rintro ⟨hp, hq⟩
    obtain ⟨es, hes⟩ := hlater.passes hq
    refine ⟨e :: es, fun r rest hr => ?_⟩
    obtain ⟨hfirst, hrest⟩ := hr.next s'
    have hend : { r.past (bytes ++ later) rest with chunked := none } =
        { (RdbReader.past { r.past bytes (later ++ rest) with chunked := some s' } later rest) with
          chunked := none } := by
      rw [← past_past r _ _ rest (later ++ rest)]
      rfl
    rw [hend]
    exact .cons (hpass hp r _ hfirst) (hes _ rest hrest)
  · intro hno
    by_cases hp : P
    · obtain ⟨es, f, hterm, hf⟩ := hlater.stops fun hq => hno ⟨hp, hq⟩
      refine ⟨e :: es, f, hterm, fun r rest hr => ?_⟩
      obtain ⟨hfirst, hrest⟩ := hr.next s'
      obtain ⟨r', hy⟩ := hf _ rest hrest
      exact ⟨r', Yields.cons (hpass hp r _ hfirst) hy⟩
    · obtain ⟨f, hterm, hf⟩ := hstop hp
      exact ⟨[], f, hterm, fun r rest hr => hf r _ (hr.next s').1⟩

/-- The later chunks of a collection, whatever follows it. -/
theorem chunks_pass (hshape : PlainShape typeCode p mk) (max : ℕ+) {ts : List ι}
    (h : ∀ t ∈ ts, DecodesWhen (fits t) p (item t) (value t)) {s : ChunkedState} (hs : s.Valid)
    (ht : s.typeCode = typeCode) (hlen : s.remaining = ts.length) :
    ChunksWhen (∀ t ∈ ts, fits t) max s (ts.flatMap item) := by
  induction hn : ts.length using Nat.strong_induction_on generalizing ts s with
  | _ n ih =>
    have hpos := hs.pos
    have hmax := max.pos
    generalize hfirst : ts.take max = first
    generalize hlater : ts.drop max = later
    have hts : ts = first ++ later := by rw [← hfirst, ← hlater, List.take_append_drop]
    have hlen₁ : first.length = min (max : Nat) s.remaining := by
      rw [← hfirst, List.length_take, hlen]
    have hlen₂ : later.length = ts.length - max := by rw [← hlater, List.length_drop]
    have hone := chunk_next hshape hs ht max
      (fun t hmem => h t (hts ▸ List.mem_append_left later hmem)) hlen₁
    cases hadv : s.advance first.length with
    | none =>
      -- this chunk is the last one
      have hrem : s.remaining - first.length = 0 := by
        by_contra hne
        rw [ChunkedState.advance, if_neg hne] at hadv
        cases hadv
      have hnil : later = [] := List.eq_nil_of_length_eq_zero (by omega)
      subst hnil
      rw [List.append_nil] at hts
      subst hts
      rw [hadv] at hone
      constructor
      · intro hfit
        exact ⟨[s.entry (mk (ts.map value))], fun r rest hr => .cons (hone.1 hfit r rest hr) (.nil _)⟩
      · intro hfit
        obtain ⟨f, hterm, hf⟩ := hone.2 hfit
        exact ⟨[], f, hterm, hf⟩
    | some s' =>
      have hs' := hs.advance hadv
      have hstate := advance_some hadv
      have hrem : s'.remaining = later.length := by
        rw [hstate]
        dsimp only
        omega
      have hpos' := hs'.pos
      have ihlater := ih later.length (by omega)
        (fun t hmem => h t (hts ▸ List.mem_append_right first hmem)) hs'
        (by rw [hstate]; exact ht) hrem rfl
      rw [hadv] at hone
      rw [hts, List.flatMap_append, List.forall_mem_append]
      exact .cons hone.1 hone.2 ihlater

end Chunks

/-! ### Key objects -/

/-- The reader once the hints of a key are taken. -/
def RdbReader.cleared (r : RdbReader) : RdbReader := r.keyed r.reader

structure KeyForm where
  key : StringForm
  value : ValueForm

namespace KeyForm

def bytes (k : KeyForm) : Bytes := k.value.typeCode :: (k.key.bytes ++ k.value.bytes)

def Fits (k : KeyForm) : Prop := k.key.Fits ∧ k.value.Fits

/-- The entry of the key in a context, in one piece. -/
def entry (k : KeyForm) (c : Context) : RdbEntry :=
  keyEntry c.db k.value.typeCode c.pending k.key.value k.value.value none none

end KeyForm

theorem At.cleared {r : RdbReader} {c : Context} {limit : Option ℕ+} {b rest : Bytes}
    (h : r.At c limit (b ++ rest)) : (r.past b rest).cleared.At c.keyed limit rest := by
  refine ⟨⟨h.preambleByte, h.finished, h.chunked⟩, ?_, h.maxKeyElements, rfl⟩
  rw [← h.context]
  rfl

theorem entries_not_terminal (es : List RdbEntry) :
    ∀ x ∈ (es.map .ok : List (Res RdbEntry)), ¬Terminal x := by
  intro x hx
  obtain ⟨e, -, rfl⟩ := List.mem_map.mp hx
  exact fun h => h

theorem passes_object {limit : Option ℕ+} {c : Context} {b : UInt8} {payload : Bytes}
    (hb : isObjectType b = true) {e : RdbEntry} {later : List (Res RdbEntry)}
    (h : ∀ (r : RdbReader) (rest : Bytes), r.At c limit (b :: payload ++ rest) →
      ∃ r₁, readEntry b (r.past [b] (payload ++ rest)) = (.ok e, r₁) ∧
        Steps RdbReader.next r₁ later (r.past (b :: payload) rest).cleared) :
    Passes limit c (b :: payload) (.ok e :: later) c.keyed := by
  intro r rest hr
  obtain ⟨r₁, he, hsteps⟩ := h r rest hr
  have hnext := next_object hr.toBetween hb hr.inner he
  refine ⟨_, At.cleared hr, rfl, rfl, fun items s hs => ?_⟩
  exact Yields.cons hnext (hsteps.yields hs)

theorem stops_object {limit : Option ℕ+} {c : Context} {b : UInt8} {payload : Bytes}
    (hb : isObjectType b = true) {f : Fault} (ht : Terminal (.error f))
    (h : ∀ (r : RdbReader) (rest : Bytes), r.At c limit (b :: payload ++ rest) →
      ∃ r₁, readEntry b (r.past [b] (payload ++ rest)) = (.error f, r₁)) :
    Stops limit c (b :: payload) ([] ++ [.error f]) := by
  intro r rest hr
  obtain ⟨r₁, he⟩ := h r rest hr
  exact next_object_fault hr.toBetween hb hr.inner he ht

theorem readEntry_key {b : UInt8} {key : StringForm} {r : RdbReader} (rest : Bytes)
    (hkey : key.Fits) (hi : r.reader.inner = key.bytes ++ rest) :
    readEntry b r = readEntryValue b r.pending key.value (r.past key.bytes rest).cleared := by
  have hrun := (key.decodes.decodes hkey).run rest r.reader.crc
  rw [← hi] at hrun
  exact readEntry_ok hrun

theorem stops_key (limit : Option ℕ+) (c : Context) {b : UInt8} {key : StringForm}
    (payload : Bytes) (hb : isObjectType b = true) (hkey : ¬key.Fits) :
    ∃ f, Terminal (.error f) ∧ Stops limit c (b :: (key.bytes ++ payload)) ([] ++ [.error f]) := by
  obtain ⟨f, hf⟩ := key.decodes.fails hkey
  have ht := terminal_of_fails readString_returns hf
  refine ⟨f, ht, stops_object hb ht fun r rest hr => ?_⟩
  have hrun := hf (payload ++ rest) (r.past [b] (key.bytes ++ payload ++ rest)).reader.crc
  rw [← List.append_assoc] at hrun
  exact ⟨_, readEntry_error (Prod.ext hrun rfl)⟩

theorem readFirstChunk_when {ι α : Type} {typeCode : UInt8} {p : ReadM α}
    {mk : List α → RdbValue} {item : ι → Bytes} {fits : ι → Prop} {value : ι → α}
    (hshape : PlainShape typeCode p mk) {first : List ι}
    (h : ∀ t ∈ first, DecodesWhen (fits t) p (item t) (value t)) (db : Nat)
    (pending : Option Int × Option Nat × Option UInt8) (key : Bytes) {count : Nat}
    (hlt : first.length < count) :
    ArmWhen (∀ t ∈ first, fits t) (readFirstChunk db typeCode pending key count first.length)
      (first.flatMap item)
      (keyEntry db typeCode pending key (mk (first.map value)) (some count) (some 0))
      fun r => { r with
        chunked := some (ChunkedState.start db typeCode pending key count (count - first.length)
          first.length) } := by
  have hsave : ArmWhen True (do
      let remaining ← StateAction.lift (sub64 count first.length)
      saveChunked (ChunkedState.start db typeCode pending key count remaining first.length)
      pure (keyEntry db typeCode pending key (mk (first.map value)) (some count) (some 0))) []
      (keyEntry db typeCode pending key (mk (first.map value)) (some count) (some 0))
      fun r => { r with
        chunked := some (ChunkedState.start db typeCode pending key count (count - first.length)
          first.length) } := by
    rw [sub64_eq (by omega)]
    have hpos : count - first.length > 0 := by omega
    refine ⟨fun _ r rest hi => ?_, fun hno => absurd trivial hno⟩
    have hr : r.past [] rest = r := by
      cases r
      cases hi
      rfl
    have hmod : saveChunked (ChunkedState.start db typeCode pending key count
        (count - first.length) first.length) = StateAction.modify fun r => { r with
          chunked := some (ChunkedState.start db typeCode pending key count
            (count - first.length) first.length) } := if_pos hpos
    rw [hr]
    change (saveChunked _ >>= _ : ReaderM RdbEntry) r = _
    rw [hmod]
    rfl
  have harm := ArmWhen.bind_read (readNElements_returns typeCode first.length) (hshape.reads h)
    (f := fun v => do
      let remaining ← StateAction.lift (sub64 count first.length)
      saveChunked (ChunkedState.start db typeCode pending key count remaining first.length)
      pure (keyEntry db typeCode pending key v (some count) (some 0))) hsave
  rw [List.append_nil, and_true] at harm
  exact harm

namespace KeyForm

theorem readEntry_value {k : KeyForm} (hkey : k.key.Fits) {c : Context} {limit : Option ℕ+}
    {r : RdbReader} {rest : Bytes} (hr : r.At c limit (k.bytes ++ rest)) :
    ∃ r₂ : RdbReader, r₂.At c.keyed limit (k.value.bytes ++ rest) ∧
      r₂.past k.value.bytes rest = (r.past k.bytes rest).cleared ∧
      readEntry k.value.typeCode (r.past [k.value.typeCode] (k.key.bytes ++ k.value.bytes ++ rest)) =
        readEntryValue k.value.typeCode c.pending k.key.value r₂ := by
  have hr' : r.At c limit (k.value.typeCode :: k.key.bytes ++ (k.value.bytes ++ rest)) := by
    have hsplit : k.bytes ++ rest =
        k.value.typeCode :: k.key.bytes ++ (k.value.bytes ++ rest) := by
      rw [bytes]
      simp
    rw [← hsplit]
    exact hr
  refine ⟨_, At.cleared hr', ?_, ?_⟩
  · have hpast := past_past r (k.value.typeCode :: k.key.bytes) k.value.bytes rest
      (k.value.bytes ++ rest)
    exact congrArg RdbReader.cleared hpast
  · have hpending : r.pending = c.pending := congrArg Context.pending hr.context
    have hread := readEntry_key (b := k.value.typeCode)
      (r := r.past [k.value.typeCode] (k.key.bytes ++ k.value.bytes ++ rest))
      (k.value.bytes ++ rest) hkey (List.append_assoc _ _ _)
    rw [hread, past_past]
    change readEntryValue _ r.pending _ _ = _
    rw [hpending]
    rfl

theorem recordWhen_whole (k : KeyForm) (hkey : k.key.Fits) (limit : Option ℕ+) (c : Context)
    (h : ∀ r : RdbReader, r.maxKeyElements = limit → readEntryValue k.value.typeCode c.pending
      k.key.value r = readWholeEntry r.currentDb k.value.typeCode c.pending k.key.value r) :
    (k.value.Fits → Passes limit c k.bytes [.ok (k.entry c)] c.keyed) ∧
    (¬k.value.Fits → ∃ f, Terminal (.error f) ∧ Stops limit c k.bytes ([] ++ [.error f])) := by
  have hobject := k.value.typeCode_isObjectType
  constructor
  · intro hfit
    refine passes_object hobject fun r rest hr => ?_
    obtain ⟨r₂, hr₂, hend, hread⟩ := readEntry_value hkey hr
    have hrun := (k.value.decodes.decodes hfit).run rest r₂.reader.crc
    rw [← hr₂.inner] at hrun
    have hdb : r₂.currentDb = c.db := congrArg Context.db hr₂.context
    have hwhole : readWholeEntry r₂.currentDb k.value.typeCode c.pending k.key.value r₂ =
        (.ok (k.entry c), r₂.past k.value.bytes rest) := by
      rw [entry, ← hdb]
      exact readWholeEntry_ok _ _ _ hrun
    rw [← h r₂ hr₂.maxKeyElements, ← hread] at hwhole
    refine ⟨_, hwhole, ?_⟩
    have hstate : (r.past k.bytes rest).cleared = r₂.past k.value.bytes rest := hend.symm
    rw [bytes] at hstate
    rw [hstate]
    exact .nil _
  · intro hfit
    obtain ⟨f, hf⟩ := k.value.decodes.fails hfit
    have hne : k.value.typeCode ≠ rdbTypeHashZipmap := k.value.typeCode_ne_zipmap
    have ht := terminal_of_fails (readValue_returns hne) hf
    refine ⟨f, ht, stops_object hobject ht fun r rest hr => ?_⟩
    obtain ⟨r₂, hr₂, -, hread⟩ := readEntry_value hkey hr
    have hrun := hf rest r₂.reader.crc
    rw [← hr₂.inner] at hrun
    have hwhole := readWholeEntry_error r₂.currentDb c.pending k.key.value (r := r₂)
      (Prod.ext hrun rfl)
    rw [← h r₂ hr₂.maxKeyElements, ← hread] at hwhole
    exact ⟨_, hwhole⟩

theorem readPlainEntry_small {ι α : Type} {f : ValueForm} {cs : Counted ι} {item : ι → Bytes}
    {fits : ι → Prop} {value : ι → α} {p : ReadM α} {mk : List α → RdbValue}
    (hf : f.Plain cs item fits value p mk) (db : Nat)
    (pending : Option Int × Option Nat × Option UInt8) (key : Bytes) {max : ℕ+}
    (hle : cs.items.length ≤ (max : Nat)) :
    ArmWhen (cs.Fits fits) (readPlainEntry db f.typeCode pending key max) (cs.bytes item)
      (keyEntry db f.typeCode pending key (mk (cs.items.map value)) none none) id := by
  have hcount := cs.count.decodesCount "element count"
  rw [cs.count_eq] at hcount
  have hpure : ArmWhen True (pure (keyEntry db f.typeCode pending key (mk (cs.items.map value))
      none none) : ReaderM RdbEntry) [] (keyEntry db f.typeCode pending key
      (mk (cs.items.map value)) none none) id := by
    refine ⟨fun _ r rest hi => ?_, fun hno => absurd trivial hno⟩
    cases r
    cases hi
    rfl
  have hvalue := ArmWhen.bind_read (readNElements_returns f.typeCode cs.items.length)
    (hf.shape.reads hf.reads)
    (f := fun v => pure (keyEntry db f.typeCode pending key v none none)) hpure
  have harm := ArmWhen.bind_read (readCount_returns "element count") hcount
    (f := fun count => if count > (max : Nat) then
        readFirstChunk db f.typeCode pending key count max
      else do
        let value ← liftRead (readNElements f.typeCode count)
        pure (keyEntry db f.typeCode pending key value none none))
    (y := keyEntry db f.typeCode pending key (mk (cs.items.map value)) none none)
    (by rw [if_neg (by omega)]; exact hvalue)
  rw [List.append_nil, and_true] at harm
  exact harm

theorem readPlainEntry_large {ι α : Type} {f : ValueForm} {cs : Counted ι} {item : ι → Bytes}
    {fits : ι → Prop} {value : ι → α} {p : ReadM α} {mk : List α → RdbValue}
    (hf : f.Plain cs item fits value p mk) (db : Nat)
    (pending : Option Int × Option Nat × Option UInt8) (key : Bytes) {max : ℕ+}
    {first later : List ι} (hitems : cs.items = first ++ later) (hmax : first.length = max)
    (hlater : later ≠ []) :
    ArmWhen (cs.items.length ≤ maxAllocBytes ∧ ∀ t ∈ first, fits t)
      (readPlainEntry db f.typeCode pending key max) (cs.count.bytes ++ first.flatMap item)
      (keyEntry db f.typeCode pending key (mk (first.map value)) (some cs.items.length) (some 0))
      fun r => { r with
        chunked := some (ChunkedState.start db f.typeCode pending key cs.items.length
          (cs.items.length - max) max) } := by
  have hcount := cs.count.decodesCount "element count"
  rw [cs.count_eq] at hcount
  have hlen : cs.items.length = first.length + later.length := by
    rw [hitems, List.length_append]
  have hpos := List.length_pos_of_ne_nil hlater
  have hfirst := readFirstChunk_when hf.shape
    (fun t hmem => hf.reads t (hitems ▸ List.mem_append_left later hmem)) db pending key
    (show first.length < cs.items.length by omega)
  rw [hmax] at hfirst
  exact ArmWhen.bind_read (readCount_returns "element count") hcount
    (f := fun count => if count > (max : Nat) then
        readFirstChunk db f.typeCode pending key count max
      else do
        let value ← liftRead (readNElements f.typeCode count)
        pure (keyEntry db f.typeCode pending key value none none))
    (by rw [if_pos (by omega)]; exact hfirst)

section Plain

variable {ι α : Type} {k : KeyForm} {cs : Counted ι} {item : ι → Bytes} {fits : ι → Prop}
  {value : ι → α} {p : ReadM α} {mk : List α → RdbValue} {max : ℕ+} {c : Context}

theorem readEntry_plainEntry (hkey : k.key.Fits) (hp : isPlainType k.value.typeCode = true)
    {r : RdbReader} {rest : Bytes} (hr : r.At c (some max) (k.bytes ++ rest)) :
    ∃ r₂ : RdbReader, r₂.At c.keyed (some max) (k.value.bytes ++ rest) ∧
      r₂.past k.value.bytes rest = (r.past k.bytes rest).cleared ∧
      readEntry k.value.typeCode
        (r.past [k.value.typeCode] (k.key.bytes ++ k.value.bytes ++ rest)) =
        readPlainEntry c.db k.value.typeCode c.pending k.key.value max r₂ := by
  obtain ⟨r₂, hr₂, hend, hread⟩ := readEntry_value hkey hr
  have hdb : r₂.currentDb = c.db := congrArg Context.db hr₂.context
  refine ⟨r₂, hr₂, hend, hread.trans ?_⟩
  rw [readEntryValue_limited hr₂.maxKeyElements hp, hdb]

theorem recordWhen_small (hkey : k.key.Fits) (hp : isPlainType k.value.typeCode = true)
    (hf : k.value.Plain cs item fits value p mk) (hle : cs.items.length ≤ (max : Nat)) :
    RecordWhen k.value.Fits (some max) c k.bytes c.keyed := by
  have hobject := k.value.typeCode_isObjectType
  have harm := readPlainEntry_small hf c.db c.pending k.key.value hle
  rw [← hf.bytes] at harm
  constructor
  · intro hfit
    refine ⟨[_].map .ok, entries_not_terminal _, passes_object (e := keyEntry c.db
      k.value.typeCode c.pending k.key.value (mk (cs.items.map value)) none none) hobject
      fun r rest hr => ?_⟩
    obtain ⟨r₂, hr₂, hend, hread⟩ := readEntry_plainEntry hkey hp hr
    have hcall := harm.takes (hf.fits.mp hfit) r₂ rest hr₂.inner
    have hstate : (r.past k.bytes rest).cleared = r₂.past k.value.bytes rest := hend.symm
    rw [bytes] at hstate
    rw [hstate]
    exact ⟨_, hread.trans hcall, .nil _⟩
  · intro hfit
    obtain ⟨f, ht, hfails⟩ := harm.fails fun h => hfit (hf.fits.mpr h)
    refine ⟨[], .error f, ht, stops_object hobject ht fun r rest hr => ?_⟩
    obtain ⟨r₂, hr₂, -, hread⟩ := readEntry_plainEntry hkey hp hr
    obtain ⟨r₁, hcall⟩ := hfails r₂ rest hr₂.inner
    exact ⟨r₁, hread.trans hcall⟩

theorem readEntry_firstChunk (hkey : k.key.Fits) (hp : isPlainType k.value.typeCode = true)
    (hf : k.value.Plain cs item fits value p mk) {first later : List ι}
    (hitems : cs.items = first ++ later) (hmax : first.length = max) (hne : later ≠ [])
    (hfit : cs.items.length ≤ maxAllocBytes ∧ ∀ t ∈ first, fits t) {r : RdbReader} {rest : Bytes}
    (hr : r.At c (some max) (k.bytes ++ rest)) :
    ∃ r₁ : RdbReader, readEntry k.value.typeCode
        (r.past [k.value.typeCode] (k.key.bytes ++ k.value.bytes ++ rest)) =
          (.ok (keyEntry c.db k.value.typeCode c.pending k.key.value (mk (first.map value))
            (some cs.items.length) (some 0)), r₁) ∧
      r₁.Within (ChunkedState.start c.db k.value.typeCode c.pending k.key.value cs.items.length
        (cs.items.length - max) max) max (later.flatMap item ++ rest) ∧
      { r₁.past (later.flatMap item) rest with chunked := none } = (r.past k.bytes rest).cleared := by
  have harm := readPlainEntry_large hf c.db c.pending k.key.value hitems hmax hne
  have hbytes : k.value.bytes = cs.count.bytes ++ first.flatMap item ++ later.flatMap item := by
    rw [hf.bytes, Counted.bytes, hitems, List.flatMap_append, List.append_assoc]
  obtain ⟨r₂, hr₂, hend, hread⟩ := readEntry_plainEntry hkey hp hr
  have hinner : r₂.reader.inner =
      cs.count.bytes ++ first.flatMap item ++ (later.flatMap item ++ rest) := by
    rw [hr₂.inner, hbytes, List.append_assoc]
  have hcall := harm.takes hfit r₂ (later.flatMap item ++ rest) hinner
  refine ⟨_, hread.trans hcall, ⟨hr₂.preambleByte, hr₂.finished, hr₂.maxKeyElements, rfl, rfl⟩, ?_⟩
  rw [← hend, hbytes, ← past_past r₂ _ _ rest (later.flatMap item ++ rest)]
  have hnone : r₂.chunked = none := hr₂.chunked
  cases r₂
  cases hnone
  rfl

theorem recordWhen_large (hkey : k.key.Fits) (hp : isPlainType k.value.typeCode = true)
    (hf : k.value.Plain cs item fits value p mk) {first later : List ι}
    (hitems : cs.items = first ++ later) (hmax : first.length = max) (hne : later ≠ []) :
    RecordWhen k.value.Fits (some max) c k.bytes c.keyed := by
  have hobject := k.value.typeCode_isObjectType
  have hlen : cs.items.length = max + later.length := by
    rw [hitems, List.length_append, hmax]
  have hpos := List.length_pos_of_ne_nil hne
  have hfits : k.value.Fits ↔ (cs.items.length ≤ maxAllocBytes ∧ ∀ t ∈ first, fits t) ∧
      ∀ t ∈ later, fits t := by
    rw [hf.fits, Counted.Fits, hitems, List.forall_mem_append, and_assoc]
  by_cases hfit₁ : cs.items.length ≤ maxAllocBytes ∧ ∀ t ∈ first, fits t
  · -- the first chunk is read, and what becomes of the rest decides
    have hvalid : (ChunkedState.start c.db k.value.typeCode c.pending k.key.value cs.items.length
        (cs.items.length - max) max).Valid := by
      refine ⟨hp, ?_, ?_, hfit₁.1⟩
      · change 0 < cs.items.length - max
        omega
      · change max + (cs.items.length - max) = cs.items.length
        omega
    have hrem : cs.items.length - max = later.length := by omega
    have hchunks := chunks_pass hf.shape max
      (fun t hmem => hf.reads t (hitems ▸ List.mem_append_right first hmem)) hvalid rfl hrem
    constructor
    · intro hfit
      obtain ⟨es, hes⟩ := hchunks.passes (hfits.mp hfit).2
      refine ⟨(_ :: es).map .ok, entries_not_terminal _, passes_object (e := keyEntry c.db
        k.value.typeCode c.pending k.key.value (mk (first.map value)) (some cs.items.length)
        (some 0)) hobject fun r rest hr => ?_⟩
      obtain ⟨r₁, hcall, hwithin, hend⟩ := readEntry_firstChunk hkey hp hf hitems hmax hne hfit₁ hr
      have hsteps := hes r₁ rest hwithin
      rw [hend] at hsteps
      exact ⟨r₁, hcall, hsteps⟩
    · intro hfit
      obtain ⟨es, f, ht, hf'⟩ := hchunks.stops fun h => hfit (hfits.mpr ⟨hfit₁, h⟩)
      refine ⟨.ok (keyEntry c.db k.value.typeCode c.pending k.key.value (mk (first.map value))
        (some cs.items.length) (some 0)) :: es.map .ok, .error f, ht, fun r rest hr => ?_⟩
      obtain ⟨r₁, hcall, hwithin, -⟩ := readEntry_firstChunk hkey hp hf hitems hmax hne hfit₁ hr
      obtain ⟨r', hy⟩ := hf' r₁ rest hwithin
      exact ⟨r', Yields.cons (next_object hr.toBetween hobject hr.inner hcall) hy⟩
  · have harm := readPlainEntry_large hf c.db c.pending k.key.value hitems hmax hne
    obtain ⟨f, ht, hfails⟩ := harm.fails hfit₁
    refine ⟨fun hfit => absurd (hfits.mp hfit).1 hfit₁, fun _ => ⟨[], .error f, ht,
      stops_object hobject ht fun r rest hr => ?_⟩⟩
    obtain ⟨r₂, hr₂, -, hread⟩ := readEntry_plainEntry hkey hp hr
    have hinner : r₂.reader.inner =
        cs.count.bytes ++ first.flatMap item ++ (later.flatMap item ++ rest) := by
      rw [hr₂.inner, hf.bytes, Counted.bytes, hitems, List.flatMap_append]
      simp only [List.append_assoc]
    obtain ⟨r₁, hcall⟩ := hfails r₂ (later.flatMap item ++ rest) hinner
    exact ⟨r₁, hread.trans hcall⟩

end Plain

theorem recordWhen_plain (k : KeyForm) (hkey : k.key.Fits) (max : ℕ+) (c : Context)
    (hp : isPlainType k.value.typeCode = true) :
    RecordWhen k.value.Fits (some max) c k.bytes c.keyed := by
  obtain ⟨ι, α, cs, item, fits, value, p, mk, hf⟩ := k.value.plain hp
  by_cases hle : cs.items.length ≤ (max : Nat)
  · exact recordWhen_small hkey hp hf hle
  · have hlen : (cs.items.take max).length = max := by
      rw [List.length_take]
      omega
    have hne : cs.items.drop max ≠ [] := by
      apply List.ne_nil_of_length_pos
      rw [List.length_drop]
      omega
    exact recordWhen_large hkey hp hf (List.take_append_drop _ _).symm hlen hne

theorem recordWhen (k : KeyForm) (limit : Option ℕ+) (c : Context) :
    RecordWhen k.Fits limit c k.bytes c.keyed := by
  have hvalue (hkey : k.key.Fits) : RecordWhen k.value.Fits limit c k.bytes c.keyed := by
    have hwhole (h : ∀ r : RdbReader, r.maxKeyElements = limit →
        readEntryValue k.value.typeCode c.pending k.key.value r =
          readWholeEntry r.currentDb k.value.typeCode c.pending k.key.value r) :
        RecordWhen k.value.Fits limit c k.bytes c.keyed := by
      obtain ⟨hpasses, hstops⟩ := k.recordWhen_whole hkey limit c h
      refine ⟨fun hfit => ⟨_, entries_not_terminal [k.entry c], hpasses hfit⟩, fun hfit => ?_⟩
      obtain ⟨f, ht, hf⟩ := hstops hfit
      exact ⟨[], _, ht, hf⟩
    cases hp : isPlainType k.value.typeCode with
    | false =>
      refine hwhole fun r _ => ?_
      rw [readEntryValue_notPlain hp]
      rfl
    | true =>
      cases limit with
      | none => exact hwhole fun r hr => readEntryValue_unchunked hr _ _ _
      | some max => exact k.recordWhen_plain hkey max c hp
  by_cases hkey : k.key.Fits
  · have hrecord := hvalue hkey
    exact ⟨fun hfit => hrecord.passes hfit.2, fun hfit => hrecord.stops fun h => hfit ⟨hkey, h⟩⟩
  · obtain ⟨f, ht, hf⟩ := stops_key limit c k.value.bytes
      k.value.typeCode_isObjectType hkey
    exact ⟨fun hfit => absurd hfit.1 hkey, fun _ => ⟨[], _, ht, hf⟩⟩

end KeyForm

end ValkeyRdb
