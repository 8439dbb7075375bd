import ValkeyRdb.Reader.Iterator

/-!
# What a method of the reader can do to its state

Every method but the end-of-file arm only reads through the `CrcReader` and leaves the
header, the settings and the outcome fields alone (`Moves`). The rounds of the two
loops take at least one byte, so both end. `nextInner_cases` says once what a call can
do; the properties of whole runs are derived from it.
-/

namespace ValkeyRdb

open StateAction (Keeps Rounds Descends bind_eq_ok bind_eq_error run_bind_ok run_bind_error)

/-! ### Moving through the input -/

/-- Between two states bytes were read and digested, and nothing was concluded. -/
structure Advances (r r' : RdbReader) : Prop where
  bytes : ∃ b, r.reader.inner = b ++ r'.reader.inner ∧ r'.reader.crc = crc64 r.reader.crc b
  header : r'.header = r.header
  finished : r'.finished = r.finished
  maxKeyElements : r'.maxKeyElements = r.maxKeyElements
  crcChecked : r'.crcChecked = r.crcChecked

/-- As `Advances`, with the replayed byte left alone. -/
structure Moves (r r' : RdbReader) : Prop extends Advances r r' where
  preambleByte : r'.preambleByte = r.preambleByte

theorem Advances.refl (r : RdbReader) : Advances r r := ⟨⟨[], rfl, rfl⟩, rfl, rfl, rfl, rfl⟩

theorem Advances.trans {r r' r'' : RdbReader} (h : Advances r r') (h' : Advances r' r'') :
    Advances r r'' where
  bytes := by
    obtain ⟨b, hb, hc⟩ := h.bytes
    obtain ⟨b', hb', hc'⟩ := h'.bytes
    refine ⟨b ++ b', ?_, ?_⟩
    · rw [hb, hb', List.append_assoc]
    · rw [hc', hc, crc64_append]
  header := h'.header.trans h.header
  finished := h'.finished.trans h.finished
  maxKeyElements := h'.maxKeyElements.trans h.maxKeyElements
  crcChecked := h'.crcChecked.trans h.crcChecked

theorem Advances.length_le {r r' : RdbReader} (h : Advances r r') :
    r'.reader.inner.length ≤ r.reader.inner.length := by
  obtain ⟨b, hb, -⟩ := h.bytes
  rw [hb, List.length_append]
  omega

theorem Moves.refl (r : RdbReader) : Moves r r := ⟨Advances.refl r, rfl⟩

theorem Moves.trans {r r' r'' : RdbReader} (h : Moves r r') (h' : Moves r' r'') : Moves r r'' :=
  ⟨h.toAdvances.trans h'.toAdvances, h'.preambleByte.trans h.preambleByte⟩

theorem Moves.pendingBytes_le {r r' : RdbReader} (h : Moves r r') :
    r'.pendingBytes ≤ r.pendingBytes := by
  have hlen := h.length_le
  rw [RdbReader.pendingBytes, RdbReader.pendingBytes, h.preambleByte]
  omega

theorem moves_of_fields {r r' : RdbReader} (h : r'.reader = r.reader) (hh : r'.header = r.header)
    (hf : r'.finished = r.finished) (hm : r'.maxKeyElements = r.maxKeyElements)
    (hc : r'.crcChecked = r.crcChecked) (hp : r'.preambleByte = r.preambleByte) : Moves r r' :=
  ⟨⟨⟨[], by rw [h]; rfl, by rw [h]; rfl⟩, hh, hf, hm, hc⟩, hp⟩

section Rules

variable {α β : Type}

theorem bind_moves {m : ReaderM α} {f : α → ReaderM β} (hm : Keeps Moves m)
    (hf : ∀ a, Keeps Moves (f a)) : Keeps Moves (m >>= f) := by
  have htrans : ∀ a b c, Moves a b → Moves b c → Moves a c := fun _ _ _ => Moves.trans
  exact Keeps.bind htrans hm hf

theorem pure_moves (a : α) : Keeps Moves (pure a : ReaderM α) := Keeps.pure Moves.refl a

theorem lift_moves (x : Res α) : Keeps Moves (StateAction.lift x : ReaderM α) :=
  Keeps.lift Moves.refl x

theorem corruptData_moves (msg : String) : Keeps Moves (corruptData msg : ReaderM α) :=
  lift_moves _

theorem get_moves : Keeps Moves (StateAction.get : ReaderM RdbReader) := Keeps.get Moves.refl

theorem liftRead_moves (p : ReadM α) : Keeps Moves (liftRead p) := fun r =>
  ⟨⟨p.tracks r.reader, rfl, rfl, rfl, rfl⟩, rfl⟩

theorem continueWith_moves {m : ReaderM Unit} (h : Keeps Moves m) :
    Keeps Moves (continueWith m) := bind_moves h fun _ => pure_moves _

end Rules

theorem readAuxField_moves : Keeps Moves readAuxField := by
  refine bind_moves (liftRead_moves _) fun key => bind_moves (liftRead_moves _) fun value => ?_
  intro r
  split
  · exact moves_of_fields rfl rfl rfl rfl rfl rfl
  · exact Moves.refl r

/-! ### Methods of the iterator -/

theorem saveChunked_moves (state : ChunkedState) : Keeps Moves (saveChunked state) := by
  intro r
  rw [saveChunked]
  split
  · exact moves_of_fields rfl rfl rfl rfl rfl rfl
  · exact Moves.refl r

theorem readFirstChunk_moves {db : Nat} {typeCode : UInt8}
    {pending : Option Int × Option Nat × Option UInt8} {key : Bytes} {count max : Nat} :
    Keeps Moves (readFirstChunk db typeCode pending key count max) := by
  refine bind_moves (liftRead_moves _) fun value => bind_moves (lift_moves _) fun remaining => ?_
  exact bind_moves (saveChunked_moves _) fun _ => pure_moves _

theorem readWholeEntry_moves {db : Nat} {typeCode : UInt8}
    {pending : Option Int × Option Nat × Option UInt8} {key : Bytes} :
    Keeps Moves (readWholeEntry db typeCode pending key) :=
  bind_moves (liftRead_moves _) fun _ => pure_moves _

theorem readPlainEntry_moves {db : Nat} {typeCode : UInt8}
    {pending : Option Int × Option Nat × Option UInt8} {key : Bytes} {max : Nat} :
    Keeps Moves (readPlainEntry db typeCode pending key max) := by
  refine bind_moves (liftRead_moves _) fun count => ?_
  split
  · exact readFirstChunk_moves
  · exact bind_moves (liftRead_moves _) fun _ => pure_moves _

theorem readEntryValue_moves (typeCode : UInt8)
    (pending : Option Int × Option Nat × Option UInt8) (key : Bytes) :
    Keeps Moves (readEntryValue typeCode pending key) := by
  refine bind_moves get_moves fun r => ?_
  split
  · split
    · exact readPlainEntry_moves
    · exact readWholeEntry_moves
  · exact readWholeEntry_moves

theorem readEntry_moves (typeCode : UInt8) : Keeps Moves (readEntry typeCode) :=
  bind_moves (fun _ => moves_of_fields rfl rfl rfl rfl rfl rfl) fun pending =>
    bind_moves (liftRead_moves _) fun key => readEntryValue_moves typeCode pending key

theorem chunkedState_moves (msg : String) : Keeps Moves (chunkedState msg) := by
  refine bind_moves get_moves fun r => ?_
  split
  · exact pure_moves _
  · exact corruptData_moves _

theorem chunkLimit_moves : Keeps Moves chunkLimit := by
  refine bind_moves get_moves fun r => ?_
  split
  · exact pure_moves _
  · exact corruptData_moves _

theorem advanceChunk_moves (chunkSize : Nat) : Keeps Moves (advanceChunk chunkSize) := by
  refine bind_moves (chunkedState_moves _) fun state => bind_moves (lift_moves _) fun _ => ?_
  exact bind_moves (lift_moves _) fun _ _ => moves_of_fields rfl rfl rfl rfl rfl rfl

theorem readChunk_moves : Keeps Moves readChunk := by
  refine bind_moves (chunkedState_moves _) fun state => bind_moves chunkLimit_moves fun max => ?_
  refine bind_moves (liftRead_moves _) fun value => ?_
  exact bind_moves (advanceChunk_moves _) fun _ => pure_moves _

theorem selectDb_moves : Keeps Moves selectDb := by
  refine bind_moves (liftRead_moves _) fun db r => ?_
  split
  · exact moves_of_fields rfl rfl rfl rfl rfl rfl
  · exact Moves.refl r

theorem expireTime_moves : Keeps Moves expireTime := by
  refine bind_moves (liftRead_moves _) fun secs => ?_
  cases checkedMul64 secs 1000 with
  | some ms => exact fun _ => moves_of_fields rfl rfl rfl rfl rfl rfl
  | none => exact corruptData_moves _

/-- Every arm of the opcode `match` but the one for EOF. -/
theorem opcodeArm_moves {byte : UInt8} (h : byte ≠ rdbOpcodeEof) :
    Keeps Moves (opcodeArm byte) := by
  unfold opcodeArm
  split
  · exact continueWith_moves readAuxField_moves
  · exact continueWith_moves selectDb_moves
  · exact continueWith_moves (liftRead_moves _)
  · exact continueWith_moves
      (bind_moves (liftRead_moves _) fun _ _ => moves_of_fields rfl rfl rfl rfl rfl rfl)
  · exact continueWith_moves expireTime_moves
  · exact continueWith_moves
      (bind_moves (liftRead_moves _) fun _ _ => moves_of_fields rfl rfl rfl rfl rfl rfl)
  · exact continueWith_moves
      (bind_moves (liftRead_moves _) fun _ _ => moves_of_fields rfl rfl rfl rfl rfl rfl)
  · exact absurd rfl h
  · exact continueWith_moves (liftRead_moves _)
  · exact corruptData_moves _
  · exact continueWith_moves (liftRead_moves _)
  · exact continueWith_moves (liftRead_moves _)
  · exact continueWith_moves (liftRead_moves _)
  · split
    · exact bind_moves (readEntry_moves _) fun _ => pure_moves _
    · exact corruptData_moves _

theorem continueWith_ne_some {m : ReaderM Unit} {r r' : RdbReader} {x : Option RdbEntry} :
    continueWith m r ≠ (.ok (some x), r') := by
  intro h
  obtain ⟨u, r₁, -, hp⟩ := bind_eq_ok h
  cases hp

theorem corruptData_ne_ok {α : Type} {msg : String} {r r' : RdbReader} {a : α} :
    corruptData msg r ≠ (.ok a, r') := by
  intro h
  cases h

/-- Only the EOF arm ends the loop without an entry. -/
theorem opcodeArm_ne_end {byte : UInt8} (hb : byte ≠ rdbOpcodeEof) {r r' : RdbReader} :
    opcodeArm byte r ≠ (.ok (some none), r') := by
  unfold opcodeArm
  split
  · exact continueWith_ne_some
  · exact continueWith_ne_some
  · exact continueWith_ne_some
  · exact continueWith_ne_some
  · exact continueWith_ne_some
  · exact continueWith_ne_some
  · exact continueWith_ne_some
  · exact absurd rfl hb
  · exact continueWith_ne_some
  · exact corruptData_ne_ok
  · exact continueWith_ne_some
  · exact continueWith_ne_some
  · exact continueWith_ne_some
  · split
    · intro h
      obtain ⟨e, r₁, -, hp⟩ := bind_eq_ok h
      cases hp
    · exact corruptData_ne_ok

/-! ### The opcode byte -/

/-- The reader after its next byte was taken from the input. -/
def RdbReader.afterByte (r : RdbReader) (b : UInt8) (rest : Bytes) : RdbReader :=
  { r with reader := ⟨rest, crcByte r.reader.crc b⟩ }

theorem liftRead_readU8_cons {r : RdbReader} {b : UInt8} {rest : Bytes}
    (h : r.reader.inner = b :: rest) : liftRead readU8 r = (.ok b, r.afterByte b rest) := by
  obtain ⟨⟨inner, crc⟩, _⟩ := r
  subst h
  rfl

theorem liftRead_readU8_nil {r : RdbReader} (h : r.reader.inner = []) :
    liftRead readU8 r = (.error eofFault, r) := by
  obtain ⟨⟨inner, crc⟩, _⟩ := r
  subst h
  rfl

/-- Where an opcode byte comes from, and that there is one or the input has ended. -/
theorem readOpcode_cases (r : RdbReader) :
    (∃ b, r.preambleByte = some b ∧ readOpcode r = (.ok b, { r with preambleByte := none })) ∨
      (r.preambleByte = none ∧ ∃ b rest, r.reader.inner = b :: rest ∧
        readOpcode r = (.ok b, r.afterByte b rest)) ∨
      (r.preambleByte = none ∧ r.reader.inner = [] ∧ readOpcode r = (.error eofFault, r)) := by
  cases hp : r.preambleByte with
  | some b => exact .inl ⟨b, rfl, by rw [readOpcode, hp]⟩
  | none =>
    refine .inr ?_
    have hread : readOpcode r = liftRead readU8 r := by rw [readOpcode, hp]
    cases hi : r.reader.inner with
    | nil => exact .inr ⟨rfl, rfl, by rw [hread, liftRead_readU8_nil hi]⟩
    | cons b rest => exact .inl ⟨rfl, b, rest, rfl, by rw [hread, liftRead_readU8_cons hi]⟩

theorem readOpcode_ok {r r' : RdbReader} {b : UInt8} (h : readOpcode r = (.ok b, r')) :
    (r.preambleByte = some b ∧ r' = { r with preambleByte := none }) ∨
      (r.preambleByte = none ∧ ∃ rest, r.reader.inner = b :: rest ∧ r' = r.afterByte b rest) := by
  rcases readOpcode_cases r with ⟨c, hp, he⟩ | ⟨hp, c, rest, hi, he⟩ | ⟨hp, hi, he⟩
  · rw [he] at h
    cases h
    exact .inl ⟨hp, rfl⟩
  · rw [he] at h
    cases h
    exact .inr ⟨hp, rest, hi, rfl⟩
  · rw [he] at h
    cases h

theorem readOpcode_advances {r r' : RdbReader} {b : UInt8} (h : readOpcode r = (.ok b, r')) :
    Advances r r' := by
  obtain ⟨-, rfl⟩ | ⟨-, rest, hi, rfl⟩ := readOpcode_ok h
  · exact ⟨⟨[], rfl, rfl⟩, rfl, rfl, rfl, rfl⟩
  · exact ⟨⟨[b], hi, rfl⟩, rfl, rfl, rfl, rfl⟩

theorem readOpcode_preambleByte {r r' : RdbReader} {b : UInt8}
    (h : readOpcode r = (.ok b, r')) : r'.preambleByte = none := by
  obtain ⟨-, rfl⟩ | ⟨hp, rest, -, rfl⟩ := readOpcode_ok h
  · rfl
  · exact hp

theorem readOpcode_pendingBytes {r r' : RdbReader} {b : UInt8} (h : readOpcode r = (.ok b, r')) :
    r'.pendingBytes < r.pendingBytes := by
  obtain ⟨hp, rfl⟩ | ⟨-, rest, hi, rfl⟩ := readOpcode_ok h
  · simp [RdbReader.pendingBytes, hp]
  · simp [RdbReader.pendingBytes, RdbReader.afterByte, hi]

/-! ### The loops end -/

theorem readEof_ne_none {r r' : RdbReader} :
    opcodeArm rdbOpcodeEof r ≠ (.ok none, r') := by
  intro h
  obtain ⟨u, r₁, -, h'⟩ := bind_eq_ok (show (readEof >>= fun _ => pure (some none)) r = _ from h)
  cases h'

theorem opcodeStep_continue {r r' : RdbReader} (h : opcodeStep r = (.ok none, r')) :
    ∃ b r₁, b ≠ rdbOpcodeEof ∧ readOpcode r = (.ok b, r₁) ∧ opcodeArm b r₁ = (.ok none, r') ∧
      Moves r₁ r' := by
  obtain ⟨b, r₁, hb, harm⟩ := bind_eq_ok h
  have hne : b ≠ rdbOpcodeEof := by
    rintro rfl
    exact readEof_ne_none harm
  have hm := opcodeArm_moves hne r₁
  rw [harm] at hm
  exact ⟨b, r₁, hne, hb, harm, hm⟩

theorem opcodeStep_advances {r r' : RdbReader} (h : opcodeStep r = (.ok none, r')) :
    Advances r r' := by
  obtain ⟨b, r₁, -, hb, -, hm⟩ := opcodeStep_continue h
  exact (readOpcode_advances hb).trans hm.toAdvances

theorem opcodeStep_descends : Descends RdbReader.pendingBytes opcodeStep := by
  intro r r' h
  obtain ⟨b, r₁, -, hb, -, hm⟩ := opcodeStep_continue h
  exact lt_of_le_of_lt hm.pendingBytes_le (readOpcode_pendingBytes hb)

theorem rounds_advances {r r' : RdbReader} (h : Rounds opcodeStep r r') : Advances r r' :=
  h.along Advances.refl (fun _ _ _ => Advances.trans) fun _ _ => opcodeStep_advances

theorem rounds_pendingBytes {r r' : RdbReader} (h : Rounds opcodeStep r r') :
    r'.pendingBytes ≤ r.pendingBytes :=
  h.along (R := fun r r' => r'.pendingBytes ≤ r.pendingBytes) (fun _ => le_refl _)
    (fun _ _ _ hab hbc => le_trans hbc hab) fun _ _ hs => (opcodeStep_descends _ _ hs).le

theorem preambleStep_cases (r : RdbReader) :
    (r.reader.inner = [] ∧ preambleStep r = (.error eofFault, r)) ∨
      ∃ b rest, r.reader.inner = b :: rest ∧
        ((b = rdbOpcodeAux ∧ preambleStep r =
            (do readAuxField; pure none : ReaderM (Option Unit)) (r.afterByte b rest)) ∨
          b ≠ rdbOpcodeAux ∧ preambleStep r =
            (.ok (some ()), { r.afterByte b rest with preambleByte := some b })) := by
  cases hi : r.reader.inner with
  | nil => exact .inl ⟨rfl, run_bind_error (liftRead_readU8_nil hi)⟩
  | cons b rest =>
    refine .inr ⟨b, rest, rfl, ?_⟩
    have hb := run_bind_ok (f := fun byte => if byte = rdbOpcodeAux then do
      readAuxField
      pure none else do
      StateAction.modify fun r => { r with preambleByte := some byte }
      pure (some ())) (liftRead_readU8_cons hi)
    change preambleStep r = _ at hb
    by_cases hb' : b = rdbOpcodeAux
    · rw [if_pos hb'] at hb
      exact .inl ⟨hb', hb⟩
    · rw [if_neg hb'] at hb
      exact .inr ⟨hb', hb⟩

theorem preambleStep_continue {r r' : RdbReader} (h : preambleStep r = (.ok none, r')) :
    ∃ rest, r.reader.inner = rdbOpcodeAux :: rest ∧
      readAuxField (r.afterByte rdbOpcodeAux rest) = (.ok (), r') := by
  rcases preambleStep_cases r with ⟨-, he⟩ | ⟨b, rest, hi, ⟨rfl, he⟩ | ⟨-, he⟩⟩
  · rw [he] at h
    cases h
  · rw [he] at h
    obtain ⟨u, r₁, hr, hp⟩ := bind_eq_ok h
    cases hp
    exact ⟨rest, hi, hr⟩
  · rw [he] at h
    cases h

theorem afterByte_advances {r : RdbReader} {b : UInt8} {rest : Bytes}
    (h : r.reader.inner = b :: rest) : Moves r (r.afterByte b rest) :=
  ⟨⟨⟨[b], h, rfl⟩, rfl, rfl, rfl, rfl⟩, rfl⟩

theorem preambleStep_moves {r r' : RdbReader} (h : preambleStep r = (.ok none, r')) :
    Moves r r' := by
  obtain ⟨rest, hi, hr⟩ := preambleStep_continue h
  have hm := readAuxField_moves (r.afterByte rdbOpcodeAux rest)
  rw [hr] at hm
  exact (afterByte_advances hi).trans hm

theorem preambleStep_descends : Descends RdbReader.pendingBytes preambleStep := by
  intro r r' h
  obtain ⟨rest, hi, hr⟩ := preambleStep_continue h
  have hm := readAuxField_moves (r.afterByte rdbOpcodeAux rest)
  rw [hr] at hm
  refine lt_of_le_of_lt hm.pendingBytes_le ?_
  simp [RdbReader.pendingBytes, RdbReader.afterByte, hi]

def SameSettings (r r' : RdbReader) : Prop :=
  r' = { r with reader := r'.reader, metadata := r'.metadata }

theorem SameSettings.refl (r : RdbReader) : SameSettings r r := rfl

theorem SameSettings.trans {r r' r'' : RdbReader} (h : SameSettings r r')
    (h' : SameSettings r' r'') : SameSettings r r'' := by
  rw [SameSettings, h', h]

theorem readAuxField_settings : Keeps SameSettings readAuxField := by
  have htrans : ∀ a b c, SameSettings a b → SameSettings b c → SameSettings a c :=
    fun _ _ _ => SameSettings.trans
  refine Keeps.bind htrans (fun _ => rfl) fun key => Keeps.bind htrans (fun _ => rfl) fun value => ?_
  intro r
  split <;> rfl

theorem preambleStep_settings {r r' : RdbReader} (h : preambleStep r = (.ok none, r')) :
    SameSettings r r' := by
  obtain ⟨rest, hi, hr⟩ := preambleStep_continue h
  have hs := readAuxField_settings (r.afterByte rdbOpcodeAux rest)
  rw [hr] at hs
  have hb : SameSettings r (r.afterByte rdbOpcodeAux rest) := rfl
  exact hb.trans hs

/-- The preamble reads AUX fields up to the first byte that is not one, or to an error. -/
theorem readPreamble_cases (r : RdbReader) :
    ∃ r₁, Rounds preambleStep r r₁ ∧ Moves r r₁ ∧ SameSettings r r₁ ∧
      ((∃ b rest, r₁.reader.inner = b :: rest ∧ b ≠ rdbOpcodeAux ∧
          readPreamble r = (.ok (), { r₁.afterByte b rest with preambleByte := some b })) ∨
        ∃ f r', preambleStep r₁ = (.error f, r') ∧ readPreamble r = (.error f, r')) := by
  obtain ⟨r₁, hrounds, hend⟩ :=
    StateAction.loop_cases (d := Fault.diverge) preambleStep_descends r
  refine ⟨r₁, hrounds,
    hrounds.along Moves.refl (fun _ _ _ => Moves.trans) fun _ _ => preambleStep_moves,
    hrounds.along SameSettings.refl (fun _ _ _ => SameSettings.trans)
      fun _ _ => preambleStep_settings, ?_⟩
  rcases hend with ⟨u, r', hb, hl⟩ | ⟨f, r', hb, hl⟩
  · refine .inl ?_
    rcases preambleStep_cases r₁ with ⟨-, he⟩ | ⟨b, rest, hi, ⟨hb', he⟩ | ⟨hb', he⟩⟩
    · rw [he] at hb
      cases hb
    · rw [he] at hb
      obtain ⟨v, r₂, -, hp⟩ := bind_eq_ok hb
      cases hp
    · rw [he] at hb
      cases hb
      exact ⟨b, rest, hi, hb', hl⟩
  · exact .inr ⟨f, r', hb, hl⟩

theorem new_eq {input : Bytes} {r : RdbReader} (h : RdbReader.new input = .ok r) :
    r = { RdbReader.afterHeader r.reader r.header with
      metadata := r.metadata, preambleByte := r.preambleByte } := by
  rw [RdbReader.new] at h
  rcases hh : readHeader.run ⟨input, 0⟩ with ⟨f | header, reader⟩
  · rw [hh] at h
    cases h
  · rw [hh] at h
    dsimp only at h
    obtain ⟨r₁, -, -, hset, hend⟩ := readPreamble_cases (RdbReader.afterHeader reader header)
    rcases hend with ⟨b, rest, -, -, he⟩ | ⟨f, r', -, he⟩
    · rw [he] at h
      cases h
      rw [hset]
      rfl
    · rw [he] at h
      cases h

/-! ### Key objects -/

theorem liftRead_ok {α : Type} {p : ReadM α} {r : RdbReader} {a : α} {rd : CrcReader}
    (h : p.run r.reader = (.ok a, rd)) : liftRead p r = (.ok a, { r with reader := rd }) := by
  rw [liftRead, h]

theorem liftRead_error {α : Type} {p : ReadM α} {r : RdbReader} {f : Fault} {rd : CrcReader}
    (h : p.run r.reader = (.error f, rd)) :
    liftRead p r = (.error f, { r with reader := rd }) := by
  rw [liftRead, h]

/-- The fields that opcodes have set for the next key. -/
def RdbReader.pending (r : RdbReader) : Option Int × Option Nat × Option UInt8 :=
  (r.pendingExpiryMs, r.pendingLruIdle, r.pendingLfuFreq)

/-- The reader once these fields are taken and the key is read. -/
def RdbReader.keyed (r : RdbReader) (rd : CrcReader) : RdbReader :=
  { r with
    reader := rd
    pendingExpiryMs := none
    pendingLruIdle := none
    pendingLfuFreq := none }

theorem readEntry_ok {typeCode : UInt8} {r : RdbReader} {key : Bytes} {rd : CrcReader}
    (h : readString.run r.reader = (.ok key, rd)) :
    readEntry typeCode r = readEntryValue typeCode r.pending key (r.keyed rd) := by
  have htake : takePending r = (.ok r.pending, r.keyed r.reader) := rfl
  have hkey : liftRead readString (r.keyed r.reader) = (.ok key, r.keyed rd) := liftRead_ok h
  rw [readEntry, run_bind_ok htake, run_bind_ok hkey]

theorem readEntry_error {typeCode : UInt8} {r : RdbReader} {f : Fault} {rd : CrcReader}
    (h : readString.run r.reader = (.error f, rd)) :
    readEntry typeCode r = (.error f, r.keyed rd) := by
  have htake : takePending r = (.ok r.pending, r.keyed r.reader) := rfl
  have hkey : liftRead readString (r.keyed r.reader) = (.error f, r.keyed rd) := liftRead_error h
  rw [readEntry, run_bind_ok htake, run_bind_error hkey]

theorem readEntryValue_unchunked {r : RdbReader} (h : r.maxKeyElements = none) (typeCode : UInt8)
    (pending : Option Int × Option Nat × Option UInt8) (key : Bytes) :
    readEntryValue typeCode pending key r = readWholeEntry r.currentDb typeCode pending key r := by
  simp only [readEntryValue, StateAction.run_get_bind, h]

theorem readEntryValue_limited {r : RdbReader} {max : ℕ+} (h : r.maxKeyElements = some max)
    {typeCode : UInt8} (hp : isPlainType typeCode = true)
    (pending : Option Int × Option Nat × Option UInt8) (key : Bytes) :
    readEntryValue typeCode pending key r =
      readPlainEntry r.currentDb typeCode pending key max r := by
  simp only [readEntryValue, StateAction.run_get_bind, h, hp, if_true]

theorem readEntryValue_notPlain {typeCode : UInt8} (hp : isPlainType typeCode = false)
    (pending : Option Int × Option Nat × Option UInt8) (key : Bytes) :
    readEntryValue typeCode pending key = (do
      let r ← StateAction.get
      readWholeEntry r.currentDb typeCode pending key) := by
  funext r
  cases hm : r.maxKeyElements with
  | none => simp only [readEntryValue, StateAction.run_get_bind, hm]
  | some max => simp [readEntryValue, StateAction.run_get_bind, hm, hp]

theorem readWholeEntry_ok (db : Nat) {typeCode : UInt8}
    (pending : Option Int × Option Nat × Option UInt8) (key : Bytes) {r : RdbReader}
    {value : RdbValue} {rd : CrcReader} (h : (readValue typeCode).run r.reader = (.ok value, rd)) :
    readWholeEntry db typeCode pending key r =
      (.ok (keyEntry db typeCode pending key value none none), { r with reader := rd }) := by
  rw [readWholeEntry, run_bind_ok (liftRead_ok h)]
  rfl

theorem readWholeEntry_error (db : Nat) {typeCode : UInt8}
    (pending : Option Int × Option Nat × Option UInt8) (key : Bytes) {r : RdbReader}
    {f : Fault} {rd : CrcReader} (h : (readValue typeCode).run r.reader = (.error f, rd)) :
    readWholeEntry db typeCode pending key r = (.error f, { r with reader := rd }) := by
  rw [readWholeEntry, run_bind_error (liftRead_error h)]

/-! ### Chunks -/

/-- What the reader keeps true of the state of a large key. -/
structure ChunkedState.Valid (s : ChunkedState) : Prop where
  plain : isPlainType s.typeCode = true
  pos : 0 < s.remaining
  total : s.elementOffset + s.remaining = s.totalCount
  bound : s.totalCount ≤ maxAllocBytes

/-- The state of the key after `n` more of its elements. -/
def ChunkedState.advance (s : ChunkedState) (n : Nat) : Option ChunkedState :=
  if s.remaining - n = 0 then none
  else some { s with remaining := s.remaining - n, elementOffset := s.elementOffset + n }

def ChunkedState.entry (s : ChunkedState) (value : RdbValue) : RdbEntry :=
  keyEntry s.db s.typeCode (s.expiryMs, s.lruIdleSecs, s.lfuFrequency) s.key value
    (some s.totalCount) (some s.elementOffset)

theorem ChunkedState.Valid.advance {s s' : ChunkedState} (h : s.Valid) {n : Nat}
    (ha : s.advance n = some s') : s'.Valid := by
  rw [ChunkedState.advance] at ha
  split at ha
  · cases ha
  · cases ha
    have htotal := h.total
    exact ⟨h.plain, by dsimp only; omega, by dsimp only; omega, h.bound⟩

theorem advanceChunk_eq {r : RdbReader} {s : ChunkedState} (hc : r.chunked = some s)
    (h : s.Valid) {n : Nat} (hn : n ≤ s.remaining) :
    advanceChunk n r = (.ok (), { r with chunked := s.advance n }) := by
  have hstate : chunkedState "internal: chunked state missing after read_n_elements" r
      = (.ok s, r) := by
    rw [chunkedState, StateAction.run_get_bind, hc]
    rfl
  have h64 : s.elementOffset + n < 2 ^ 64 := by
    have htotal := h.total
    have hbound := h.bound
    rw [maxAllocBytes] at hbound
    omega
  rw [advanceChunk, run_bind_ok hstate, sub64_eq hn, add64_eq h64]
  rfl

theorem readChunk_eq {r : RdbReader} {s : ChunkedState} {max : ℕ+} (hc : r.chunked = some s)
    (hm : r.maxKeyElements = some max) (h : s.Valid) :
    readChunk r = match (readNElements s.typeCode (min max s.remaining)).run r.reader with
      | (.ok value, rd) => (.ok (s.entry value),
          { r with reader := rd, chunked := s.advance (min max s.remaining) })
      | (.error f, rd) => (.error f, { r with reader := rd }) := by
  have hstate : chunkedState "read_chunk called without chunked state" r = (.ok s, r) := by
    rw [chunkedState, StateAction.run_get_bind, hc]
    rfl
  have hlimit : chunkLimit r = (.ok max, r) := by
    rw [chunkLimit, StateAction.run_get_bind, hm]
    rfl
  rw [readChunk, run_bind_ok hstate, run_bind_ok hlimit]
  rcases hr : (readNElements s.typeCode (min max s.remaining)).run r.reader with ⟨f | value, rd⟩
  · have hread : liftRead (readNElements s.typeCode (min max s.remaining)) r
        = (.error f, { r with reader := rd }) := by rw [liftRead, hr]
    exact run_bind_error hread
  · have hread : liftRead (readNElements s.typeCode (min max s.remaining)) r
        = (.ok value, { r with reader := rd }) := by rw [liftRead, hr]
    rw [run_bind_ok hread]
    have hadv := advanceChunk_eq (r := { r with reader := rd }) hc h
      (Nat.min_le_right max s.remaining)
    exact run_bind_ok hadv

/-! ### One call of `next` -/

theorem opcodeLoop_cases (r : RdbReader) : ∃ r₁, Rounds opcodeStep r r₁ ∧
    ((readOpcode r₁ = (.error eofFault, r₁) ∧ opcodeLoop r = (.error eofFault, r₁)) ∨
      ∃ b r₂, readOpcode r₁ = (.ok b, r₂) ∧
        ((∃ x r', opcodeArm b r₂ = (.ok (some x), r') ∧ opcodeLoop r = (.ok x, r')) ∨
          ∃ f r', opcodeArm b r₂ = (.error f, r') ∧ opcodeLoop r = (.error f, r'))) := by
  obtain ⟨r₁, hr, h⟩ := StateAction.loop_cases (d := Fault.diverge) opcodeStep_descends r
  refine ⟨r₁, hr, ?_⟩
  rcases h with ⟨x, r', hb, hl⟩ | ⟨f, r', hb, hl⟩
  · obtain ⟨b, r₂, ho, ha⟩ := bind_eq_ok hb
    exact .inr ⟨b, r₂, ho, .inl ⟨x, r', ha, hl⟩⟩
  · rcases bind_eq_error hb with ho | ⟨b, r₂, ho, ha⟩
    · refine .inl ?_
      rcases readOpcode_cases r₁ with ⟨c, hp, he⟩ | ⟨hp, c, rest, hi, he⟩ | ⟨hp, hi, he⟩
      · rw [he] at ho
        cases ho
      · rw [he] at ho
        cases ho
      · rw [he] at ho
        cases ho
        exact ⟨he, hl⟩
    · exact .inr ⟨b, r₂, ho, .inr ⟨f, r', ha, hl⟩⟩

/-- The other direction: rounds, then the arm of an opcode that ends the loop. -/
theorem opcodeLoop_done {r r₁ r₂ r' : RdbReader} {b : UInt8} {x : Option RdbEntry}
    (h : Rounds opcodeStep r r₁) (ho : readOpcode r₁ = (.ok b, r₂))
    (ha : opcodeArm b r₂ = (.ok (some x), r')) : opcodeLoop r = (.ok x, r') := by
  have hstep : opcodeStep r₁ = (.ok (some x), r') := (run_bind_ok ho).trans ha
  exact (h.loop_eq opcodeStep_descends).trans (StateAction.loop_done hstep)

theorem opcodeLoop_error {r r₁ r₂ r' : RdbReader} {b : UInt8} {f : Fault}
    (h : Rounds opcodeStep r r₁) (ho : readOpcode r₁ = (.ok b, r₂))
    (ha : opcodeArm b r₂ = (.error f, r')) : opcodeLoop r = (.error f, r') := by
  have hstep : opcodeStep r₁ = (.error f, r') := (run_bind_ok ho).trans ha
  exact (h.loop_eq opcodeStep_descends).trans (StateAction.loop_error hstep)

theorem opcodeArm_object {b : UInt8} (h : isObjectType b = true) :
    opcodeArm b = (do
      let entry ← readEntry b
      pure (some (some entry))) := by
  unfold opcodeArm
  split
  · cases h
  · cases h
  · cases h
  · cases h
  · cases h
  · cases h
  · cases h
  · cases h
  · cases h
  · cases h
  · cases h
  · cases h
  · cases h
  · rw [if_pos h]

theorem opcodeArm_entry {b : UInt8} {r r' : RdbReader} {e : RdbEntry}
    (h : opcodeArm b r = (.ok (some (some e)), r')) : isObjectType b = true := by
  cases hb : isObjectType b with
  | true => rfl
  | false =>
    unfold opcodeArm at h
    split at h
    · exact absurd h continueWith_ne_some
    · exact absurd h continueWith_ne_some
    · exact absurd h continueWith_ne_some
    · exact absurd h continueWith_ne_some
    · exact absurd h continueWith_ne_some
    · exact absurd h continueWith_ne_some
    · exact absurd h continueWith_ne_some
    · obtain ⟨u, r₁, -, hp⟩ := bind_eq_ok h
      cases hp
    · exact absurd h continueWith_ne_some
    · exact absurd h corruptData_ne_ok
    · exact absurd h continueWith_ne_some
    · exact absurd h continueWith_ne_some
    · exact absurd h continueWith_ne_some
    · rw [if_neg (by rw [hb]; exact Bool.false_ne_true)] at h
      exact absurd h corruptData_ne_ok

theorem nextInner_chunked {r : RdbReader} {state : ChunkedState} (h : r.chunked = some state) :
    nextInner r = (do let entry ← readChunk; pure (some entry) : ReaderM _) r := by
  change (if r.chunked.isSome then _ else _ : ReaderM _) r = _
  rw [if_pos (by rw [h]; rfl)]

theorem nextInner_unchunked {r : RdbReader} (h : r.chunked = none) :
    nextInner r = opcodeLoop r := by
  change (if r.chunked.isSome then _ else _ : ReaderM _) r = _
  rw [if_neg (by rw [h]; exact Bool.false_ne_true)]

/-- An item that ends the iteration: any error but the one for a skipped type. -/
def Terminal : Res RdbEntry → Prop
  | .error (.error (.unknownType _)) => False
  | .error _ => True
  | .ok _ => False

theorem next_finished {r : RdbReader} (h : r.finished = true) : r.next = (none, r) := if_pos h

theorem next_eq {r : RdbReader} (h : r.finished = false) :
    r.next = match nextInner r with
      | (.ok (some entry), r') => (some (.ok entry), r')
      | (.ok none, r') => (none, r')
      | (.error (.error (.unknownType t)), r') => (some (.error (.error (.unknownType t))), r')
      | (.error f, r') => (some (.error f), { r' with finished := true }) :=
  if_neg (by rw [h]; exact Bool.false_ne_true)

theorem next_entry {r r' : RdbReader} {e : RdbEntry} (h : r.finished = false)
    (hn : nextInner r = (.ok (some e), r')) : r.next = (some (.ok e), r') := by
  rw [next_eq h, hn]

theorem next_none {r r' : RdbReader} (h : r.finished = false)
    (hn : nextInner r = (.ok none, r')) : r.next = (none, r') := by
  rw [next_eq h, hn]

/-- A failing call yields the fault; only an unknown type leaves the iterator open. -/
theorem next_error {r r' : RdbReader} {f : Fault} (h : r.finished = false)
    (hn : nextInner r = (.error f, r')) :
    (¬Terminal (.error f) ∧ r.next = (some (.error f), r')) ∨
      (Terminal (.error f) ∧ r.next = (some (.error f), { r' with finished := true })) := by
  rw [next_eq h, hn]
  rcases f with (_ | _ | _ | _ | _) | _ | _
  · exact .inr ⟨trivial, rfl⟩
  · exact .inr ⟨trivial, rfl⟩
  · exact .inr ⟨trivial, rfl⟩
  · exact .inr ⟨trivial, rfl⟩
  · exact .inl ⟨fun h => h, rfl⟩
  · exact .inr ⟨trivial, rfl⟩
  · exact .inr ⟨trivial, rfl⟩

theorem next_terminal {r r' : RdbReader} {x : Res RdbEntry} (hn : r.next = (some x, r'))
    (hx : Terminal x) : r'.finished = true := by
  cases hf : r.finished with
  | true =>
    rw [next_finished hf] at hn
    cases hn
  | false =>
    rcases hi : nextInner r with ⟨f | _ | e, r₁⟩
    · rcases next_error hf hi with ⟨ht, he⟩ | ⟨-, he⟩
      · rw [he] at hn
        cases hn
        exact absurd hx ht
      · rw [he] at hn
        cases hn
        rfl
    · rw [next_none hf hi] at hn
      cases hn
    · rw [next_entry hf hi] at hn
      cases hn
      cases hx

theorem steps_finished {r r' : RdbReader} {items : List (Res RdbEntry)} (h : r.finished = true)
    (hs : Steps RdbReader.next r items r') : items = [] := by
  cases hs with
  | nil => rfl
  | cons hn _ =>
    rw [next_finished h] at hn
    cases hn

/-- A reader that `new`, the settings and calls of `next` can lead to. -/
inductive Reachable (input : Bytes) : RdbReader → Prop
  | new {r : RdbReader} (h : RdbReader.new input = .ok r) : Reachable input r
  | withMaxKeyElements {r : RdbReader} (h : Reachable input r) (max : ℕ+) :
      Reachable input (r.withMaxKeyElements max)
  | withoutChunking {r : RdbReader} (h : Reachable input r) : Reachable input r.withoutChunking
  | next {r : RdbReader} (h : Reachable input r) : Reachable input r.next.2

theorem Reachable.steps {input : Bytes} {r r' : RdbReader} {items : List (Res RdbEntry)}
    (h : Reachable input r) (hs : Steps RdbReader.next r items r') : Reachable input r' := by
  induction hs with
  | nil => exact h
  | cons hx _ ih =>
    refine ih ?_
    have hn := h.next
    rwa [hx] at hn

end ValkeyRdb
