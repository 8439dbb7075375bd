import ValkeyRdb.Reader.Laws

/-!
# No input makes the reader panic or hang

Every value decoder returns a value or an `Err`. The iterator adds one piece of state
with arithmetic of its own, the chunk counters; `ChunkedState.Valid` is the invariant
that keeps them in range.
-/

namespace ValkeyRdb

open ReadAction (Meets)
open StateAction (Satisfies)

/-! ### Modules -/

theorem length_moduleTypeNameCharset : moduleTypeNameCharset.length = 64 := by decide

theorem moduleNameLoop_returns (n id : Nat) (name : Bytes) :
    Returns (moduleNameLoop n id name) (fun _ => True) := by
  induction n generalizing id name with
  | zero => trivial
  | succ n ih =>
    have hlt : id &&& 0x3F < moduleTypeNameCharset.length := by
      rw [length_moduleTypeNameCharset]
      exact Nat.lt_of_le_of_lt Nat.and_le_right (by decide)
    rw [moduleNameLoop, index_lt hlt, ok_bind]
    exact ih _ _

theorem decodeModuleId_returns (moduleId : Nat) :
    Returns (decodeModuleId moduleId) (fun _ => True) :=
  (moduleNameLoop_returns 9 (moduleId >>> 10) []).bind fun _ _ => trivial

theorem readModuleValue_returns : ReadReturns readModuleValue (fun _ => True) := by
  refine readLengthValue_returns.bind fun opcode _ => ?_
  refine returnsIte (fun _ => Meets.pure trivial) fun _ => ?_
  refine returnsIte (fun _ => readLengthValue_returns.bind fun _ _ => Meets.pure trivial) fun _ => ?_
  refine returnsIte (fun _ => readLengthValue_returns.bind fun _ _ => Meets.pure trivial) fun _ => ?_
  refine returnsIte (fun _ => readString_returns.bind fun _ _ => Meets.pure trivial) fun _ => ?_
  refine returnsIte (fun _ => (readExact_returns 4).bind fun _ _ => Meets.pure trivial) fun _ => ?_
  exact returnsIte (fun _ => (readExact_returns 8).bind fun _ _ => Meets.pure trivial)
    fun _ => corrupt_returns

theorem readModuleValue_consumes : ReadAction.Consumes readModuleValue :=
  readLengthValue_consumes.bind _

section Emit

variable {σ : Type} {emit : σ → ModuleValue → Res σ}

theorem moduleRound_returns (he : ∀ st v, Returns (emit st v) (fun _ => True)) (st : σ) :
    ReadReturns (moduleRound emit st) (fun _ => True) := by
  refine readModuleValue_returns.bind fun v _ => ?_
  cases v with
  | none => exact Meets.pure trivial
  | some v => exact (Meets.lift (he st v)).bind fun _ _ => Meets.pure trivial

theorem forEachModuleValue_returns (he : ∀ st v, Returns (emit st v) (fun _ => True)) (st : σ) :
    ReadReturns (forEachModuleValue emit st) (fun _ => True) := by
  refine Meets.loop (I := fun _ => True) (fun st _ => ?_)
    (fun st => readModuleValue_consumes.bind _) trivial
  refine (moduleRound_returns he st).mono fun o _ => ?_
  cases o <;> trivial

end Emit

theorem emitModuleValue_returns (st : List ModuleValue × Nat) (v : ModuleValue) :
    Returns (emitModuleValue st v) (fun _ => True) := by
  refine ExceptMeets.ite (fun _ => returns_corrupt) fun _ => ?_
  cases v with
  | string s => exact ExceptMeets.ite (fun _ => returns_corrupt) fun _ => trivial
  | _ => trivial

theorem readModuleData_returns : ReadReturns readModuleData (fun _ => True) :=
  (forEachModuleValue_returns emitModuleValue_returns _).bind fun _ _ => Meets.pure trivial

theorem skipModuleData_returns : ReadReturns skipModuleData (fun _ => True) :=
  forEachModuleValue_returns (fun _ _ => exceptMeets_ok.mpr trivial) ()

/-! ### Pairs of compact entries -/

theorem hashPairsLoop_returns (ctx : String) (es : List CompactEntry) :
    Returns (hashPairsLoop ctx es) (fun _ => True) := by
  induction es using hashPairsLoop.induct with
  | case1 => trivial
  | case2 e => exact returns_corrupt
  | case3 field value rest ih => exact ih.bind fun _ _ => trivial

theorem decodeHashPairs_returns (es : List CompactEntry) (ctx : String) :
    Returns (decodeHashPairs es ctx) (fun _ => True) :=
  ExceptMeets.ite (fun _ => returns_corrupt) fun _ => hashPairsLoop_returns ctx es

theorem toF64_returns (e : CompactEntry) : Returns e.toF64 (fun _ => True) := by
  cases e with
  | int n => trivial
  | str s =>
    refine ExceptMeets.ite (fun _ => ?_) fun _ => returns_corrupt
    cases parseF64 s with
    | some x => trivial
    | none => exact returns_corrupt

theorem zsetPairsLoop_returns (ctx : String) (es : List CompactEntry) :
    Returns (zsetPairsLoop ctx es) (fun _ => True) := by
  induction es using zsetPairsLoop.induct with
  | case1 => trivial
  | case2 e => exact returns_corrupt
  | case3 member score rest ih =>
    exact (toF64_returns score).bind fun _ _ => ih.bind fun _ _ => trivial

theorem decodeZsetPairs_returns (es : List CompactEntry) (ctx : String) :
    Returns (decodeZsetPairs es ctx) (fun _ => True) :=
  ExceptMeets.ite (fun _ => returns_corrupt) fun _ => zsetPairsLoop_returns ctx es

/-! ### Elements -/

theorem readZsetPair_returns : ReadReturns readZsetPair (fun _ => True) :=
  readString_returns.bind fun _ _ => readDoubleValue_returns.bind fun _ _ => Meets.pure trivial

theorem readHashField_returns : ReadReturns readHashField (fun _ => True) :=
  readString_returns.bind fun _ _ => readString_returns.bind fun _ _ => Meets.pure trivial

theorem readZset2Pair_returns : ReadReturns readZset2Pair (fun _ => True) :=
  readString_returns.bind fun _ _ => (readExact_returns 8).bind fun _ _ => Meets.pure trivial

theorem readHash2Field_returns : ReadReturns readHash2Field (fun _ => True) :=
  readString_returns.bind fun _ _ => readString_returns.bind fun _ _ =>
    readI64Le_returns.bind fun _ _ => Meets.pure trivial

theorem replicate_pure_returns {α : Type} {p : ReadM α} {Q : α → Prop} (hp : ReadReturns p Q)
    (n : Nat) (f : List α → RdbValue) :
    ReadReturns (do let as ← ReadAction.replicate n p; pure (f as)) (fun _ => True) :=
  (hp.replicate n).bind fun _ _ => Meets.pure trivial

theorem readNElements_returns (typeCode : UInt8) (n : Nat) :
    ReadReturns (readNElements typeCode n) (fun _ => True) := by
  unfold readNElements
  split
  · exact replicate_pure_returns readString_returns n _
  · exact replicate_pure_returns readString_returns n _
  · exact replicate_pure_returns readZsetPair_returns n _
  · exact replicate_pure_returns readHashField_returns n _
  · exact replicate_pure_returns readZset2Pair_returns n _
  · exact replicate_pure_returns readHash2Field_returns n _
  · exact corrupt_returns

/-! ### Streams -/

/-- The error that is kept is one about the input. -/
def StreamAcc.Sound (acc : StreamAcc) : Prop :=
  ∀ e, acc.deferredErr = some e → (Fault.error e).IsInputError

theorem streamAccPush_returns {acc : StreamAcc} {masterId lpData : Bytes} (hacc : acc.Sound)
    (h : lpData.length ≤ maxAllocBytes) :
    Returns (streamAccPush acc masterId lpData) StreamAcc.Sound := by
  refine ExceptMeets.ite (fun _ => hacc) fun _ => ?_
  refine ExceptMeets.ite (fun _ => fun e he => by cases he; trivial) fun hlen => ?_
  have h16 : masterId.length = 16 := not_not.mp hlen
  rw [slice_eq ⟨by omega, by omega⟩, slice_eq ⟨by omega, by omega⟩, ok_bind, ok_bind]
  have h63 : maxAllocBytes < 2 ^ 63 := by decide
  dsimp only
  have hdec := Stream.decodeStreamListpack_returns (beVal ((masterId.take 8).drop 0))
    (beVal ((masterId.take 16).drop 8)) (show lpData.length < 2 ^ 63 by omega)
    (Stream.maxStreamEntries - acc.allEntries.length)
  revert hdec
  generalize Stream.decodeStreamListpack _ _ _ _ = o
  intro hdec
  rcases o with (e | _ | _) | entries
  · intro e' he
    cases he
    exact hdec
  · exact hdec
  · exact hdec
  · exact hacc

theorem readStreamListpack_returns {acc : StreamAcc} (hacc : acc.Sound) :
    ReadReturns (readStreamListpack acc) StreamAcc.Sound :=
  readString_returns.bind fun _ _ => readString_returns.bind fun _ hlp =>
    Meets.lift (streamAccPush_returns hacc hlp)

theorem skipPelEntry_returns : ReadReturns skipPelEntry (fun _ => True) :=
  (readExact_returns 16).bind fun _ _ => readI64Le_returns.bind fun _ _ =>
    readLengthValue_returns.bind fun _ _ => Meets.pure trivial

theorem readSince_returns {α : Type} {p : ReadM α} {Q : α → Prop} (hp : ReadReturns p Q)
    (minType typeCode : UInt8) : ReadReturns (readSince minType typeCode p) (fun _ => True) :=
  returnsIte (fun _ => hp.bind fun _ _ => Meets.pure trivial) fun _ => Meets.pure trivial

theorem skipConsumer_returns (typeCode : UInt8) :
    ReadReturns (skipConsumer typeCode) (fun _ => True) := by
  refine readString_returns.bind fun _ _ => readI64Le_returns.bind fun _ _ => ?_
  refine (readSince_returns readI64Le_returns _ _).bind fun _ _ => ?_
  refine (readCount_returns _).bind fun n _ => ?_
  exact ((readExact_returns 16).replicate n).bind fun _ _ => Meets.pure trivial

theorem skipConsumerGroup_returns (typeCode : UInt8) :
    ReadReturns (skipConsumerGroup typeCode) (fun _ => True) := by
  refine readString_returns.bind fun _ _ => readLengthValue_returns.bind fun _ _ => ?_
  refine readLengthValue_returns.bind fun _ _ => ?_
  refine (readSince_returns readLengthValue_returns _ _).bind fun _ _ => ?_
  refine (readCount_returns _).bind fun n _ => ?_
  refine (skipPelEntry_returns.replicate n).bind fun _ _ => ?_
  refine (readCount_returns _).bind fun m _ => ?_
  exact ((skipConsumer_returns typeCode).replicate m).bind fun _ _ => Meets.pure trivial

theorem skipStreamConsumerGroups_returns (typeCode : UInt8) :
    ReadReturns (skipStreamConsumerGroups typeCode) (fun _ => True) :=
  (readCount_returns _).bind fun n _ =>
    ((skipConsumerGroup_returns typeCode).replicate n).bind fun _ _ => Meets.pure trivial

theorem skipStreamIdFields_returns : ReadReturns skipStreamIdFields (fun _ => True) :=
  (readLengthValue_returns.replicate 5).bind fun _ _ => Meets.pure trivial

/-- As `ReadReturns`, when the error may also be the one for a skipped type. -/
abbrev ReadEnds {α : Type} (p : ReadM α) (Q : α → Prop) : Prop := Meets Fault.IsError p Q

theorem ReadReturns.ends {α : Type} {p : ReadM α} {Q : α → Prop} (h : ReadReturns p Q) :
    ReadEnds p Q := Meets.weaken h fun _ => Fault.IsInputError.isError

theorem finishStream_returns {acc : StreamAcc} (hacc : acc.Sound)
    (length lastIdMs lastIdSeq : Nat) :
    Returns (finishStream acc length lastIdMs lastIdSeq) (fun _ => True) := by
  rw [finishStream]
  cases he : acc.deferredErr with
  | some e => exact hacc e he
  | none => exact ExceptMeets.ite (fun _ => trivial) fun _ => trivial

theorem readStream_returns (typeCode : UInt8) :
    ReadReturns (readStream typeCode) (fun _ => True) := by
  have hstart : StreamAcc.Sound ⟨[], none⟩ := fun e he => by cases he
  refine (readCount_returns _).bind fun n _ => ?_
  refine (Meets.iterate (fun acc => readStreamListpack_returns) n hstart).bind fun acc hacc => ?_
  refine readLengthValue_returns.bind fun length _ => ?_
  refine readLengthValue_returns.bind fun ms _ => ?_
  refine readLengthValue_returns.bind fun seq _ => ?_
  refine (readSince_returns skipStreamIdFields_returns _ _).bind fun _ _ => ?_
  exact (skipStreamConsumerGroups_returns typeCode).bind fun _ _ =>
    Meets.lift (finishStream_returns hacc length ms seq)

/-! ### Values -/

theorem readBlob_returns {α : Type} {decode : Bytes → Res α}
    (h : ∀ b, Returns (decode b) (fun _ => True)) : ReadReturns (readBlob decode) (fun _ => True) :=
  readString_returns.bind fun b _ => Meets.lift (h b)

theorem listpackBlob_returns (b : Bytes) : Returns (Listpack.decode b) (fun _ => True) :=
  (Listpack.decode_returns b).mono fun _ _ => trivial

theorem readQuicklistNode_returns : ReadReturns readQuicklistNode (fun _ => True) :=
  readString_returns.bind fun node _ =>
    (Meets.lift (Ziplist.decode_returns node)).bind fun _ _ => Meets.pure trivial

theorem readQuicklist2Node_returns : ReadReturns readQuicklist2Node (fun _ => True) := by
  refine readLengthValue_returns.bind fun container _ => readString_returns.bind fun node _ => ?_
  refine returnsIte (fun _ => Meets.pure trivial) fun _ => ?_
  exact returnsIte (fun _ =>
    (Meets.lift (Listpack.decode_returns node)).bind fun _ _ => Meets.pure trivial)
    fun _ => corrupt_returns

theorem blobValue_returns {α : Type} {decode : Bytes → Res (List CompactEntry)}
    (h : ∀ b, Returns (decode b) (fun _ => True)) {build : List CompactEntry → Res α}
    (hb : ∀ es, Returns (build es) (fun _ => True)) (f : α → RdbValue) :
    ReadReturns (do let es ← readBlob decode; let a ← ReadAction.lift (build es); pure (f a))
      (fun _ => True) :=
  (readBlob_returns h).bind fun es _ => (Meets.lift (hb es)).bind fun _ _ => Meets.pure trivial

theorem plainValue_returns (typeCode : UInt8) :
    ReadReturns (do let n ← readCount "element count"; readNElements typeCode n)
      (fun _ => True) :=
  (readCount_returns _).bind fun n _ => readNElements_returns typeCode n

/-- Only an object of the type that is skipped gives the error for a skipped type. -/
theorem readValue_returns {typeCode : UInt8} (h : typeCode ≠ rdbTypeHashZipmap) :
    ReadReturns (readValue typeCode) (fun _ => True) := by
  unfold readValue
  split
  · exact readString_returns.bind fun _ _ => Meets.pure trivial
  · exact (readBlob_returns listpackBlob_returns).bind fun _ _ => Meets.pure trivial
  · exact blobValue_returns listpackBlob_returns (fun es => decodeHashPairs_returns es _) _
  · exact blobValue_returns listpackBlob_returns (fun es => decodeZsetPairs_returns es _) _
  · exact (readBlob_returns Ziplist.decode_returns).bind fun _ _ => Meets.pure trivial
  · exact blobValue_returns Ziplist.decode_returns (fun es => decodeHashPairs_returns es _) _
  · exact blobValue_returns Ziplist.decode_returns (fun es => decodeZsetPairs_returns es _) _
  · exact (readBlob_returns Intset.decode_returns).bind fun _ _ => Meets.pure trivial
  · exact absurd rfl h
  · exact plainValue_returns _
  · exact plainValue_returns _
  · exact plainValue_returns _
  · exact plainValue_returns _
  · exact plainValue_returns _
  · exact plainValue_returns _
  · exact (readCount_returns _).bind fun n _ =>
      (readQuicklistNode_returns.replicate n).bind fun _ _ => Meets.pure trivial
  · exact (readCount_returns _).bind fun n _ =>
      (readQuicklist2Node_returns.replicate n).bind fun _ _ => Meets.pure trivial
  · exact readStream_returns _
  · exact readStream_returns _
  · exact readStream_returns _
  · exact readLengthValue_returns.bind fun id _ =>
      (Meets.lift (decodeModuleId_returns id)).bind fun _ _ =>
        readModuleData_returns.bind fun _ _ => Meets.pure trivial
  · exact corrupt_returns
  · exact corrupt_returns

theorem readValue_ends (typeCode : UInt8) : ReadEnds (readValue typeCode) (fun _ => True) := by
  by_cases h : typeCode = rdbTypeHashZipmap
  · subst h
    exact readString_returns.ends.bind fun _ _ => Meets.lift trivial
  · exact (readValue_returns h).ends

/-! ### The iterator -/

/-- The invariant of a reader: a key being read in chunks has counters that add up. -/
def RdbReader.Valid (r : RdbReader) : Prop := ∀ s, r.chunked = some s → s.Valid

/-- From a valid reader the method returns a value with `Q` or an `Err`, and leaves the
reader valid. -/
abbrev Safe {α : Type} (m : ReaderM α) (Q : α → Prop) : Prop :=
  Satisfies RdbReader.Valid m (fun a r => r.Valid ∧ Q a) (fun f r => f.IsError ∧ r.Valid)

section SafeRules

variable {α β : Type} {Q : α → Prop} {R : β → Prop}

theorem Safe.pure {a : α} (h : Q a) : Safe (pure a : ReaderM α) Q :=
  Satisfies.pure fun _ hr => ⟨hr, h⟩

theorem Safe.bind {m : ReaderM α} {f : α → ReaderM β} (hm : Safe m Q)
    (hf : ∀ a, Q a → Safe (f a) R) : Safe (m >>= f) R :=
  Satisfies.bind hm fun a r ⟨hr, hq⟩ => hf a hq r hr

theorem Safe.mono {m : ReaderM α} {Q' : α → Prop} (hm : Safe m Q) (h : ∀ a, Q a → Q' a) :
    Safe m Q' :=
  Satisfies.mono hm (fun _ hr => hr) (fun a _ ⟨hr, hq⟩ => ⟨hr, h a hq⟩) fun _ _ he => he

theorem Safe.modify {f : RdbReader → RdbReader} (h : ∀ r, r.Valid → (f r).Valid) :
    Safe (StateAction.modify f : ReaderM Unit) (fun _ => True) :=
  Satisfies.modify fun r hr => ⟨h r hr, trivial⟩

theorem Safe.corruptData {msg : String} : Safe (corruptData msg : ReaderM α) Q :=
  fun _ hr => ⟨trivial, hr⟩

theorem Safe.liftRead {p : ReadM α} (hp : ReadEnds p Q) : Safe (liftRead p) Q := by
  intro r hr
  have h := hp r.reader
  rw [ValkeyRdb.liftRead]
  generalize p.run r.reader = o at h ⊢
  obtain ⟨x, rd⟩ := o
  cases x with
  | error f => exact ⟨h, hr⟩
  | ok a => exact ⟨hr, h⟩

theorem Safe.ite {c : Prop} [Decidable c] {m m' : ReaderM α} (hm : c → Safe m Q)
    (hm' : ¬c → Safe m' Q) : Safe (if c then m else m') Q := by
  split
  · exact hm (by assumption)
  · exact hm' (by assumption)

theorem Safe.continueWith {m : ReaderM Unit} (h : Safe m (fun _ => True)) :
    Safe (continueWith m) (fun _ => True) := h.bind fun _ _ => Safe.pure trivial

end SafeRules

theorem readAuxField_safe : Safe readAuxField (fun _ => True) :=
  (Safe.liftRead readString_returns.ends).bind fun _ _ =>
    (Safe.liftRead readString_returns.ends).bind fun _ _ =>
      Safe.ite (fun _ => Safe.modify fun _ hr => hr) fun _ => Safe.corruptData

theorem saveChunked_safe {state : ChunkedState} (h : state.remaining > 0 → state.Valid) :
    Safe (saveChunked state) (fun _ => True) := by
  refine Safe.ite (fun hpos => Safe.modify fun r _ s hs => ?_) fun _ => Safe.pure trivial
  cases hs
  exact h hpos

theorem readFirstChunk_safe {db : Nat} {typeCode : UInt8}
    {pending : Option Int × Option Nat × Option UInt8} {key : Bytes} {count max : Nat}
    (hp : isPlainType typeCode = true) (hmax : max < count) (hcount : count ≤ maxAllocBytes) :
    Safe (readFirstChunk db typeCode pending key count max) (fun _ => True) := by
  refine (Safe.liftRead (readNElements_returns typeCode max).ends).bind fun value _ => ?_
  rw [sub64_eq (by omega)]
  refine (saveChunked_safe fun hpos => ?_).bind fun _ _ => Safe.pure trivial
  exact ⟨hp, hpos, show max + (count - max) = count by omega, hcount⟩

theorem readPlainEntry_safe {db : Nat} {typeCode : UInt8}
    {pending : Option Int × Option Nat × Option UInt8} {key : Bytes} {max : Nat}
    (hp : isPlainType typeCode = true) :
    Safe (readPlainEntry db typeCode pending key max) (fun _ => True) := by
  refine (Safe.liftRead (readCount_returns _).ends).bind fun count hcount => ?_
  refine Safe.ite (fun hmax => readFirstChunk_safe hp hmax hcount) fun _ => ?_
  exact (Safe.liftRead (readNElements_returns typeCode count).ends).bind fun _ _ => Safe.pure trivial

theorem readWholeEntry_safe {db : Nat} {typeCode : UInt8}
    {pending : Option Int × Option Nat × Option UInt8} {key : Bytes} :
    Safe (readWholeEntry db typeCode pending key) (fun _ => True) :=
  (Safe.liftRead (readValue_ends typeCode)).bind fun _ _ => Safe.pure trivial

theorem readEntryValue_safe {typeCode : UInt8}
    {pending : Option Int × Option Nat × Option UInt8} {key : Bytes} :
    Safe (readEntryValue typeCode pending key) (fun _ => True) := by
  intro r hr
  rw [readEntryValue, StateAction.run_get_bind]
  cases r.maxKeyElements with
  | none => exact readWholeEntry_safe r hr
  | some max => exact Safe.ite readPlainEntry_safe (fun _ => readWholeEntry_safe) r hr

theorem readEntry_safe (typeCode : UInt8) : Safe (readEntry typeCode) (fun _ => True) := by
  have htake : Safe takePending (fun _ => True) := fun r hr => ⟨hr, trivial⟩
  exact htake.bind fun _ _ => (Safe.liftRead readString_returns.ends).bind fun _ _ =>
    readEntryValue_safe

theorem readChunk_safe : Safe readChunk (fun _ => True) := by
  intro r hr
  cases hc : r.chunked with
  | none =>
    have hrun : chunkedState "read_chunk called without chunked state" r
        = (corrupt "read_chunk called without chunked state", r) := by
      rw [chunkedState, StateAction.run_get_bind, hc]
      rfl
    rw [readChunk, StateAction.run_bind_error hrun]
    exact ⟨trivial, hr⟩
  | some s =>
    cases hm : r.maxKeyElements with
    | none =>
      have hrun : chunkedState "read_chunk called without chunked state" r = (.ok s, r) := by
        rw [chunkedState, StateAction.run_get_bind, hc]
        rfl
      have hlimit : chunkLimit r = (corrupt "chunked state without max_key_elements", r) := by
        rw [chunkLimit, StateAction.run_get_bind, hm]
        rfl
      rw [readChunk, StateAction.run_bind_ok hrun, StateAction.run_bind_error hlimit]
      exact ⟨trivial, hr⟩
    | some max =>
      have hs := hr s hc
      have hread := readNElements_returns s.typeCode (min max s.remaining) r.reader
      rw [readChunk_eq hc hm hs]
      generalize (readNElements s.typeCode (min max s.remaining)).run r.reader = o at hread ⊢
      obtain ⟨f | value, rd⟩ := o
      · exact ⟨Fault.IsInputError.isError hread, hr⟩
      · exact ⟨fun s' hs' => hs.advance hs', trivial⟩

theorem readTrailer_safe : Safe readTrailer (fun _ => True) := by
  intro r hr
  by_cases h : 8 ≤ r.reader.inner.length
  · rw [readTrailer, if_pos h]
    exact ⟨hr, trivial⟩
  · rw [readTrailer, if_neg h]
    exact ⟨trivial, hr⟩

theorem checkCrc_safe (computed stored : BitVec 64) :
    Safe (checkCrc computed stored) (fun _ => True) := by
  intro r hr
  rw [checkCrc, StateAction.run_get_bind]
  refine Safe.ite (fun _ => ?_) (fun _ => Safe.pure trivial) r hr
  exact Safe.ite (fun _ => Safe.corruptData) fun _ => Safe.modify fun _ hr => hr

theorem readEof_safe : Safe readEof (fun _ => True) := by
  intro r hr
  rw [readEof, StateAction.run_get_bind]
  refine (readTrailer_safe.bind fun _ _ => ?_) r hr
  exact (checkCrc_safe _ _).bind fun _ _ => Safe.modify fun _ hr => hr

/-- Reads that an opcode arm only skips. -/
theorem skips_return {α : Type} {p : ReadM α} {Q : α → Prop} (hp : ReadReturns p Q) :
    ReadReturns (do let _ ← p; pure ()) (fun _ => True) := hp.bind fun _ _ => Meets.pure trivial

theorem resizeDb_returns : ReadReturns resizeDb (fun _ => True) :=
  readLengthValue_returns.bind fun _ _ => skips_return readLengthValue_returns

theorem skipSlotInfo_returns : ReadReturns skipSlotInfo (fun _ => True) :=
  readLengthValue_returns.bind fun _ _ => resizeDb_returns

theorem skipModuleAux_returns : ReadReturns skipModuleAux (fun _ => True) :=
  readLengthValue_returns.bind fun _ _ => readLengthValue_returns.bind fun _ _ =>
    readLengthValue_returns.bind fun _ _ => skipModuleData_returns

theorem skipSlotImport_returns : ReadReturns skipSlotImport (fun _ => True) :=
  readString_returns.bind fun _ _ => (readCount_returns _).bind fun n _ =>
    skips_return (resizeDb_returns.replicate n)

theorem selectDb_safe : Safe selectDb (fun _ => True) :=
  (Safe.liftRead readLengthValue_returns.ends).bind fun _ _ =>
    Safe.ite (fun _ => Safe.modify fun _ hr => hr) fun _ => Safe.corruptData

theorem expireTime_safe : Safe expireTime (fun _ => True) := by
  refine (Safe.liftRead readI32Le_returns.ends).bind fun secs _ => ?_
  cases checkedMul64 secs 1000 with
  | some ms => exact Safe.modify fun _ hr => hr
  | none => exact Safe.corruptData

theorem opcodeArm_safe (byte : UInt8) : Safe (opcodeArm byte) (fun _ => True) := by
  unfold opcodeArm
  split
  · exact Safe.continueWith readAuxField_safe
  · exact Safe.continueWith selectDb_safe
  · exact Safe.continueWith (Safe.liftRead resizeDb_returns.ends)
  · exact Safe.continueWith
      ((Safe.liftRead readI64Le_returns.ends).bind fun _ _ => Safe.modify fun _ hr => hr)
  · exact Safe.continueWith expireTime_safe
  · exact Safe.continueWith
      ((Safe.liftRead readLengthValue_returns.ends).bind fun _ _ => Safe.modify fun _ hr => hr)
  · exact Safe.continueWith
      ((Safe.liftRead readU8_returns.ends).bind fun _ _ => Safe.modify fun _ hr => hr)
  · exact readEof_safe.bind fun _ _ => Safe.pure trivial
  · exact Safe.continueWith (Safe.liftRead (skips_return readString_returns).ends)
  · exact Safe.corruptData
  · exact Safe.continueWith (Safe.liftRead skipModuleAux_returns.ends)
  · exact Safe.continueWith (Safe.liftRead skipSlotInfo_returns.ends)
  · exact Safe.continueWith (Safe.liftRead skipSlotImport_returns.ends)
  · exact Safe.ite (fun _ => (readEntry_safe _).bind fun _ _ => Safe.pure trivial)
      fun _ => Safe.corruptData

theorem readOpcode_safe : Safe readOpcode (fun _ => True) := by
  intro r hr
  rcases readOpcode_cases r with ⟨b, hp, he⟩ | ⟨hp, b, rest, hi, he⟩ | ⟨hp, hi, he⟩
  · rw [he]
    exact ⟨hr, trivial⟩
  · rw [he]
    exact ⟨hr, trivial⟩
  · rw [he]
    exact ⟨trivial, hr⟩

theorem opcodeStep_safe : Safe opcodeStep (fun _ => True) :=
  readOpcode_safe.bind fun b _ => opcodeArm_safe b

theorem Safe.loop {α : Type} {measure : RdbReader → Nat} {body : ReaderM (Option α)}
    (hd : StateAction.Descends measure body) (hb : Safe body (fun _ => True)) :
    Safe (StateAction.loop measure body .diverge) (fun _ => True) := by
  refine Satisfies.loop hd (Satisfies.mono hb (fun _ hr => hr) (fun o r h => ?_) fun _ _ h => h)
  cases o with
  | none => exact h.1
  | some a => exact h

theorem nextInner_safe : Safe nextInner (fun _ => True) := by
  intro r hr
  rw [nextInner, StateAction.run_get_bind]
  exact Safe.ite (fun _ => readChunk_safe.bind fun _ _ => Safe.pure trivial)
    (fun _ => Safe.loop opcodeStep_descends opcodeStep_safe) r hr

theorem preambleStep_safe : Safe preambleStep (fun _ => True) := by
  refine (Safe.liftRead readU8_returns.ends).bind fun b _ => Safe.ite (fun _ => ?_) fun _ => ?_
  · exact readAuxField_safe.bind fun _ _ => Safe.pure trivial
  · exact Safe.bind (Safe.modify fun _ hr => hr) fun _ _ => Safe.pure trivial

theorem readPreamble_safe : Safe readPreamble (fun _ => True) :=
  Safe.loop preambleStep_descends preambleStep_safe

theorem parseHeader_returns (buf : Bytes) : Returns (parseHeader buf) (fun _ => True) := by
  have hversion : ∀ magic digits, Returns (parseVersion magic digits) (fun _ => True) := by
    intro magic digits
    refine ExceptMeets.ite (fun _ => ?_) fun _ => trivial
    cases parseUnsigned (2 ^ 32) digits with
    | none => trivial
    | some version => exact ExceptMeets.ite (fun _ => trivial) fun _ => trivial
  refine ExceptMeets.ite (fun _ => hversion _ _) fun _ => ?_
  exact ExceptMeets.ite (fun _ => hversion _ _) fun _ => trivial

theorem readHeader_returns : ReadReturns readHeader (fun _ => True) :=
  (readExact_returns 9).bind fun buf _ => Meets.lift (parseHeader_returns buf)

theorem new_ends (input : Bytes) :
    ExceptMeets Fault.IsError (RdbReader.new input) RdbReader.Valid := by
  have hh := readHeader_returns.ends ⟨input, 0⟩
  rw [RdbReader.new]
  generalize readHeader.run ⟨input, 0⟩ = o at hh ⊢
  obtain ⟨f | header, reader⟩ := o
  · exact hh
  · have hp := readPreamble_safe (RdbReader.afterHeader reader header) fun s hs => by cases hs
    dsimp only
    generalize readPreamble _ = o at hp ⊢
    obtain ⟨f | u, r⟩ := o
    · exact hp.1
    · exact hp.1

/-- One call of `next` yields no fault but an `Err`, and keeps the reader valid. -/
theorem next_safe {r : RdbReader} (hr : r.Valid) :
    r.next.2.Valid ∧ ∀ f, r.next.1 = some (.error f) → f.IsError := by
  cases hf : r.finished with
  | true =>
    rw [next_finished hf]
    exact ⟨hr, fun f h => by cases h⟩
  | false =>
    have h := nextInner_safe r hr
    rcases hn : nextInner r with ⟨f | _ | e, r'⟩
    · rw [hn] at h
      rcases next_error hf hn with ⟨-, he⟩ | ⟨-, he⟩
      · rw [he]
        exact ⟨h.2, fun f' hf' => by cases hf'; exact h.1⟩
      · rw [he]
        exact ⟨h.2, fun f' hf' => by cases hf'; exact h.1⟩
    · rw [hn] at h
      rw [next_none hf hn]
      exact ⟨h.1, fun f' hf' => by cases hf'⟩
    · rw [hn] at h
      rw [next_entry hf hn]
      exact ⟨h.1, fun f' hf' => by cases hf'⟩

theorem Reachable.valid {input : Bytes} {r : RdbReader} (h : Reachable input r) : r.Valid := by
  induction h with
  | new h =>
    have hv := new_ends input
    rwa [h] at hv
  | withMaxKeyElements _ max ih => exact ih
  | withoutChunking _ ih => exact ih
  | next _ ih => exact (next_safe ih).1

/-- No input and no chunk setting makes the reader panic or hang: construction and every
call of `next` return, and so do the decoders it is built from on any slice. -/
theorem no_panic :
    (∀ input, ExceptMeets Fault.IsError (RdbReader.new input) (fun _ => True)) ∧
    (∀ input r, Reachable input r → ∀ f, r.next.1 = some (.error f) → f.IsError) ∧
    (∀ data, Returns (Listpack.decode data) (fun _ => True)) ∧
    (∀ data, Returns (Ziplist.decode data) (fun _ => True)) ∧
    (∀ data, Returns (Intset.decode data) (fun _ => True)) ∧
    (∀ compressed expectedLen, compressed.length ≤ maxSliceLen → expectedLen ≤ maxSliceLen →
      Returns (Lzf.decompress compressed expectedLen) (fun _ => True)) ∧
    (∀ masterMs masterSeq lpData budget, lpData.length ≤ maxSliceLen →
      Returns (Stream.decodeStreamListpack masterMs masterSeq lpData budget) (fun _ => True)) ∧
    (∀ moduleId, Returns (decodeModuleId moduleId) (fun _ => True)) := by
  have h63 : maxSliceLen < 2 ^ 63 := by decide
  refine ⟨fun input => (new_ends input).mono fun _ _ => trivial,
    fun input r h => (next_safe h.valid).2, listpackBlob_returns, Ziplist.decode_returns,
    Intset.decode_returns, fun compressed expectedLen hc he => ?_,
    fun ms seq lpData budget h => ?_, decodeModuleId_returns⟩
  · exact (Lzf.decompress_returns (by omega) (by omega)).mono fun _ _ => trivial
  · exact Stream.decodeStreamListpack_returns ms seq (by omega) budget

end ValkeyRdb
