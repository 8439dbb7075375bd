import ValkeyRdb.Reader.Laws

/-!
# Runs on a changed reader

A `Rewiring` changes the unread input and the chunking fields of a reader so that single
reads still do the same. Every method then does the same on the changed reader, the
methods of key objects as far as the chunking fields are not changed. More bytes behind
the input and another chunk limit are the two uses.
-/

namespace ValkeyRdb

open StateAction (Commutes)

/-- A change of a reader that reads cannot see, unless they end in a `bad` fault. -/
structure Rewiring (bad : Fault → Prop) where
  source : CrcReader → CrcReader
  limit : Option ℕ+ → Option ℕ+
  chunks : Option ChunkedState → Option ChunkedState
  digest : ∀ s, (source s).digest = s.digest
  reads : ∀ {α : Type} (p : ReadM α) (s : CrcReader),
    (∀ f, (p.run s).1 = .error f → ¬bad f) →
      p.run (source s) = ((p.run s).1, source (p.run s).2)
  trailer : ∀ s : CrcReader, (8 ≤ s.inner.length ∨ ¬bad eofFault) →
    ((8 ≤ (source s).inner.length ↔ 8 ≤ s.inner.length) ∧
      (source s).inner.take 8 = s.inner.take 8 ∧
      source ⟨s.inner.drop 8, s.digest⟩ = ⟨(source s).inner.drop 8, s.digest⟩)

namespace Rewiring

variable {bad : Fault → Prop} (w : Rewiring bad)

def apply (r : RdbReader) : RdbReader :=
  { r with
    reader := w.source r.reader
    maxKeyElements := w.limit r.maxKeyElements
    chunked := w.chunks r.chunked }

/-- The change is one of the input only. -/
structure KeepsChunking : Prop where
  limit : ∀ m, w.limit m = m
  chunks : ∀ s, w.chunks s = s

/-- `m` does the same on the changed reader. -/
abbrev Same {α : Type} (m : ReaderM α) : Prop := Commutes w.apply bad m

theorem liftRead {α : Type} (p : ReadM α) : w.Same (liftRead p) := by
  intro r h
  have hr := w.reads p r.reader h
  change ((p.run (w.source r.reader)).1, { w.apply r with reader := (p.run (w.source r.reader)).2 })
    = _
  rw [hr]
  rfl

theorem pure {α : Type} (a : α) : w.Same (pure a) := Commutes.pure a

theorem corruptData {α : Type} (msg : String) : w.Same (corruptData msg : ReaderM α) :=
  Commutes.lift _

theorem continueWith {m : ReaderM Unit} (h : w.Same m) : w.Same (continueWith m) :=
  h.bind fun _ => w.pure _

theorem readAuxField : w.Same readAuxField :=
  (w.liftRead _).bind fun _ => (w.liftRead _).bind fun _ =>
    Commutes.ite (Commutes.modify fun _ => rfl) (w.corruptData _)

theorem selectDb : w.Same selectDb :=
  (w.liftRead _).bind fun _ => Commutes.ite (Commutes.modify fun _ => rfl) (w.corruptData _)

theorem expireTimeMs : w.Same expireTimeMs :=
  (w.liftRead _).bind fun _ => Commutes.modify fun _ => rfl

theorem expireTime : w.Same expireTime := by
  refine (w.liftRead _).bind fun secs => ?_
  cases checkedMul64 secs 1000 with
  | some ms => exact Commutes.modify fun _ => rfl
  | none => exact w.corruptData _

theorem idle : w.Same idle := (w.liftRead _).bind fun _ => Commutes.modify fun _ => rfl

theorem freq : w.Same freq := (w.liftRead _).bind fun _ => Commutes.modify fun _ => rfl

/-! ### The end of the file -/

theorem readTrailer : w.Same readTrailer := by
  intro r h
  have hor : 8 ≤ r.reader.inner.length ∨ ¬bad eofFault := by
    by_cases hlen : 8 ≤ r.reader.inner.length
    · exact .inl hlen
    · refine .inr (h eofFault ?_)
      rw [ValkeyRdb.readTrailer, if_neg hlen]
  obtain ⟨hiff, htake, hdrop⟩ := w.trailer r.reader hor
  have hdig := w.digest r.reader
  change ((if 8 ≤ (w.source r.reader).inner.length then
      .ok ((w.source r.reader).inner.take 8) else .error eofFault : Res Bytes),
    { w.apply r with reader := ⟨(w.source r.reader).inner.drop 8, (w.source r.reader).digest⟩ }) =
    ((if 8 ≤ r.reader.inner.length then .ok (r.reader.inner.take 8) else .error eofFault : Res Bytes),
      { w.apply r with reader := w.source ⟨r.reader.inner.drop 8, r.reader.digest⟩ })
  rw [hdrop, hdig, htake]
  simp only [hiff]

theorem checkCrc (computed stored : BitVec 64) : w.Same (checkCrc computed stored) := by
  refine Commutes.get_bind (fun _ => rfl) fun r => ?_
  refine Commutes.ite (Commutes.ite (w.corruptData _) ?_) (w.pure _)
  exact Commutes.modify fun _ => rfl

theorem readEof : w.Same readEof := by
  refine Commutes.get_bind (fun r => ?_) fun r => ?_
  · change _ = fun _ => _
    have hcrc : (w.apply r).reader.crc = r.reader.crc := w.digest r.reader
    rw [hcrc]
  · exact w.readTrailer.bind fun _ => (w.checkCrc _ _).bind fun _ => Commutes.modify fun _ => rfl

/-! ### Key objects -/

theorem takePending : w.Same takePending := fun _ _ => rfl

theorem readWholeEntry (db : Nat) (typeCode : UInt8)
    (pending : Option Int × Option Nat × Option UInt8) (key : Bytes) :
    w.Same (readWholeEntry db typeCode pending key) :=
  (w.liftRead _).bind fun _ => w.pure _

section KeepsChunking

variable {w} (hk : w.KeepsChunking)

include hk

theorem KeepsChunking.saveChunked (state : ChunkedState) : w.Same (saveChunked state) := by
  refine Commutes.ite (Commutes.modify fun r => ?_) (w.pure _)
  change ({ w.apply r with chunked := some state } : RdbReader)
    = { w.apply r with chunked := w.chunks (some state) }
  rw [hk.chunks]

theorem KeepsChunking.readPlainEntry (db : Nat) (typeCode : UInt8)
    (pending : Option Int × Option Nat × Option UInt8) (key : Bytes) (max : Nat) :
    w.Same (readPlainEntry db typeCode pending key max) := by
  refine (w.liftRead _).bind fun count => Commutes.ite ?_ ?_
  · exact (w.liftRead _).bind fun _ => Commutes.bind (Commutes.lift _) fun _ =>
      (hk.saveChunked _).bind fun _ => w.pure _
  · exact (w.liftRead _).bind fun _ => w.pure _

theorem KeepsChunking.readEntry (typeCode : UInt8) : w.Same (readEntry typeCode) := by
  refine w.takePending.bind fun pending => (w.liftRead _).bind fun key => ?_
  refine Commutes.get_bind (fun r => ?_) fun r => ?_
  · have hm : (w.apply r).maxKeyElements = r.maxKeyElements := hk.limit _
    rw [hm]
    rfl
  · split
    · exact Commutes.ite (hk.readPlainEntry _ _ _ _ _) (w.readWholeEntry _ _ _ _)
    · exact w.readWholeEntry _ _ _ _

theorem KeepsChunking.chunkLimit : w.Same chunkLimit := by
  refine Commutes.get_bind (fun r => ?_) fun r => ?_
  · have hm : (w.apply r).maxKeyElements = r.maxKeyElements := hk.limit _
    rw [hm]
  · split
    · exact w.pure _
    · exact w.corruptData _

theorem KeepsChunking.chunkedState (msg : String) : w.Same (chunkedState msg) := by
  refine Commutes.get_bind (fun r => ?_) fun r => ?_
  · have hc : (w.apply r).chunked = r.chunked := hk.chunks _
    rw [hc]
  · split
    · exact w.pure _
    · exact w.corruptData _

theorem KeepsChunking.advanceChunk (chunkSize : Nat) : w.Same (advanceChunk chunkSize) := by
  refine (hk.chunkedState _).bind fun state => Commutes.bind (Commutes.lift _) fun remaining => ?_
  refine Commutes.bind (Commutes.lift _) fun offset => Commutes.modify fun r => ?_
  generalize (if remaining = 0 then none
    else some { state with remaining := remaining, elementOffset := offset }) = next
  change ({ w.apply r with chunked := next } : RdbReader)
    = { w.apply r with chunked := w.chunks next }
  rw [hk.chunks]

theorem KeepsChunking.readChunk : w.Same readChunk :=
  (hk.chunkedState _).bind fun _ => hk.chunkLimit.bind fun _ => (w.liftRead _).bind fun _ =>
    (hk.advanceChunk _).bind fun _ => w.pure _

end KeepsChunking

/-! ### The opcode loop -/

/-- Every arm does the same; the one for key objects needs the chunking as it was. -/
theorem opcodeArm (byte : UInt8) (h : isObjectType byte = true → w.KeepsChunking) :
    w.Same (opcodeArm byte) := by
  unfold ValkeyRdb.opcodeArm
  split
  · exact w.continueWith w.readAuxField
  · exact w.continueWith w.selectDb
  · exact w.continueWith (w.liftRead _)
  · exact w.continueWith w.expireTimeMs
  · exact w.continueWith w.expireTime
  · exact w.continueWith w.idle
  · exact w.continueWith w.freq
  · exact w.readEof.bind fun _ => w.pure _
  · exact w.continueWith (w.liftRead _)
  · exact w.corruptData _
  · exact w.continueWith (w.liftRead _)
  · exact w.continueWith (w.liftRead _)
  · exact w.continueWith (w.liftRead _)
  · split
    · exact ((h (by assumption)).readEntry _).bind fun _ => w.pure _
    · exact w.corruptData _

theorem readOpcode : w.Same readOpcode := by
  intro r h
  cases hp : r.preambleByte with
  | some b =>
    have hp' : (w.apply r).preambleByte = some b := hp
    rw [ValkeyRdb.readOpcode, ValkeyRdb.readOpcode, hp, hp']
    rfl
  | none =>
    have hp' : (w.apply r).preambleByte = none := hp
    have hr : ValkeyRdb.readOpcode r = ValkeyRdb.liftRead readU8 r := by
      rw [ValkeyRdb.readOpcode, hp]
    have hr' : ValkeyRdb.readOpcode (w.apply r) = ValkeyRdb.liftRead readU8 (w.apply r) := by
      rw [ValkeyRdb.readOpcode, hp']
    rw [hr] at h ⊢
    rw [hr', w.liftRead readU8 r h]

theorem readPreamble : w.Same readPreamble := by
  refine Commutes.loop preambleStep_descends ((w.liftRead _).bind fun b => Commutes.ite ?_ ?_)
  · exact w.readAuxField.bind fun _ => w.pure _
  · exact Commutes.bind (Commutes.modify fun _ => rfl) fun _ => w.pure _

section Run

variable {w} (hk : w.KeepsChunking)

include hk

theorem KeepsChunking.opcodeLoop : w.Same opcodeLoop :=
  Commutes.loop opcodeStep_descends (w.readOpcode.bind fun b => w.opcodeArm b fun _ => hk)

theorem KeepsChunking.nextInner : w.Same nextInner := by
  refine Commutes.get_bind (fun r => ?_) fun r => ?_
  · have hc : (w.apply r).chunked = r.chunked := hk.chunks _
    rw [hc]
  · exact Commutes.ite (hk.readChunk.bind fun _ => w.pure _) hk.opcodeLoop

theorem KeepsChunking.next {r : RdbReader} (h : ∀ f, r.next.1 = some (.error f) → ¬bad f) :
    (w.apply r).next = (r.next.1, w.apply r.next.2) := by
  cases hf : r.finished with
  | true =>
    have hf' : (w.apply r).finished = true := hf
    rw [next_finished hf, next_finished hf']
  | false =>
    have hf' : (w.apply r).finished = false := hf
    have hn := hk.nextInner r
    rcases hi : ValkeyRdb.nextInner r with ⟨f | _ | e, r'⟩
    · have hf₁ : r.next.1 = some (.error f) := by
        rcases next_error hf hi with ⟨-, he⟩ | ⟨-, he⟩ <;> rw [he]
      rw [hi] at hn
      have hn' := hn fun f' hf₂ => by cases hf₂; exact h f hf₁
      rcases next_error hf hi with ⟨ht, he⟩ | ⟨ht, he⟩
      · rcases next_error hf' hn' with ⟨-, he'⟩ | ⟨ht', -⟩
        · rw [he, he']
        · exact absurd ht' ht
      · rcases next_error hf' hn' with ⟨ht', -⟩ | ⟨-, he'⟩
        · exact absurd ht ht'
        · rw [he, he']
          rfl
    · rw [hi] at hn
      rw [next_none hf hi, next_none hf' (hn fun f' hf₂ => by cases hf₂)]
    · rw [hi] at hn
      rw [next_entry hf hi, next_entry hf' (hn fun f' hf₂ => by cases hf₂)]

/-- A run whose items are not bad is the same run on the changed reader. -/
theorem KeepsChunking.steps {r r' : RdbReader} {items : List (Res RdbEntry)}
    (hs : Steps RdbReader.next r items r') (h : ∀ f, .error f ∈ items → ¬bad f) :
    Steps RdbReader.next (w.apply r) items (w.apply r') := by
  induction hs with
  | nil => exact .nil _
  | @cons s s' s'' x xs hn _ ih =>
    have hx := hk.next (r := s) fun f hf => by
      rw [hn] at hf
      cases hf
      exact h f List.mem_cons_self
    rw [hn] at hx
    exact .cons hx (ih fun f hf => h f (List.mem_cons_of_mem _ hf))

theorem KeepsChunking.yields {r r' : RdbReader} {items : List (Res RdbEntry)}
    (hy : Yields RdbReader.next r items r') (h : ∀ f, .error f ∈ items → ¬bad f) :
    Yields RdbReader.next (w.apply r) items (w.apply r') := by
  obtain ⟨m, hs, hm⟩ := hy
  refine ⟨w.apply m, hk.steps hs h, ?_⟩
  have hn := hk.next (r := m) fun f hf => by
    rw [hm] at hf
    cases hf
  rwa [hm] at hn

end Run

end Rewiring

/-! ### More input -/

/-- `c` behind the input; only a read past the end can tell. -/
def appendRewiring (c : Bytes) : Rewiring (· = eofFault) where
  source s := s.append c
  limit m := m
  chunks s := s
  digest _ := rfl
  reads p s h := p.run_append s c fun he => h _ he rfl
  trailer s h := by
    have hlen : 8 ≤ s.inner.length := h.resolve_right fun hn => hn rfl
    refine ⟨?_, ?_, ?_⟩
    · rw [Source.append_inner, List.length_append]
      omega
    · rw [Source.append_inner, List.take_append_of_le_length hlen]
    · rw [Source.append_inner, List.drop_append_of_le_length hlen]
      rfl

theorem appendRewiring_keepsChunking (c : Bytes) : (appendRewiring c).KeepsChunking :=
  ⟨fun _ => rfl, fun _ => rfl⟩

/-- Other chunking fields. -/
def chunkRewiring (limit : Option ℕ+) (chunks : Option ChunkedState) :
    Rewiring (fun _ => False) where
  source s := s
  limit _ := limit
  chunks _ := chunks
  digest _ := rfl
  reads _ _ _ := rfl
  trailer _ _ := ⟨Iff.rfl, rfl, rfl⟩

end ValkeyRdb
