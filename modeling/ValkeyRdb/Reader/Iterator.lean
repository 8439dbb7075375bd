import Mathlib.Data.PNat.Defs
import ValkeyRdb.Lib.SortedMap
import ValkeyRdb.Lib.StateAction
import ValkeyRdb.Reader.Values

/-!
# The RDB reader as an iterator (reader.rs:88-183, 463-570, 922-1137, 1192-1223)

`RdbReader.new` reads the header and the AUX fields in front of the first other
opcode, `RdbReader.next` is one call of the iterator. The state of a reader, its
unread input included, is a plain record.
-/

namespace ValkeyRdb

open StateAction (get modify fault)

/-! ### State -/

/-- types.rs:40-46 -/
structure RdbMetadata where
  aux : SortedMap Bytes Bytes
  deriving DecidableEq

/-- A large key whose elements are read chunk by chunk (reader.rs:95-105). -/
structure ChunkedState where
  db : Nat
  key : Bytes
  typeCode : UInt8
  expiryMs : Option Int
  lruIdleSecs : Option Nat
  lfuFrequency : Option UInt8
  totalCount : Nat
  remaining : Nat
  elementOffset : Nat
  deriving DecidableEq

/-- reader.rs:108-128 -/
structure RdbReader where
  reader : CrcReader
  header : RdbHeader
  metadata : RdbMetadata
  currentDb : Nat
  pendingExpiryMs : Option Int
  pendingLruIdle : Option Nat
  pendingLfuFreq : Option UInt8
  preambleByte : Option UInt8
  finished : Bool
  maxKeyElements : Option ℕ+
  chunked : Option ChunkedState
  crcChecked : Bool
  deriving DecidableEq

/-- reader.rs:88 -/
def defaultMaxKeyElements : ℕ+ := ⟨50000, by decide⟩

/-- Methods of `RdbReader`. -/
abbrev ReaderM := StateAction RdbReader Fault

/-- A method that touches the `CrcReader` only. -/
def liftRead {α : Type} (p : ReadM α) : ReaderM α := fun r =>
  ((p.run r.reader).1, { r with reader := (p.run r.reader).2 })

/-- `Err(RdbError::CorruptData(msg))` -/
def corruptData {α : Type} (msg : String) : ReaderM α := StateAction.lift (corrupt msg)

/-- Bytes a method can still take from the reader: unread ones and the replayed one. -/
def RdbReader.pendingBytes (r : RdbReader) : Nat :=
  r.reader.inner.length + r.preambleByte.toList.length

/-- reader.rs:179 -/
def RdbReader.withMaxKeyElements (r : RdbReader) (max : ℕ+) : RdbReader :=
  { r with maxKeyElements := some max }

/-- reader.rs:187 -/
def RdbReader.withoutChunking (r : RdbReader) : RdbReader := { r with maxKeyElements := none }

/-! ### Header and preamble -/

def rdbVersionMaxRedisNative : Nat := 11
def rdbVersionValkey : Nat := 80

/-- The check of the three version bytes (reader.rs:1204-1221). -/
def parseVersion (magic : RdbMagic) (digits : Bytes) : Res RdbHeader :=
  if validUtf8 digits then
    match parseUnsigned (2 ^ 32) digits with
    | none => .error (.error .invalidMagic)
    | some version =>
      let valid : Bool := match magic with
        | .redis => 1 ≤ version && version ≤ rdbVersionMaxRedisNative
        | .valkey => version = rdbVersionValkey
      if valid then .ok ⟨magic, version⟩ else .error (.error (.unsupportedVersion version))
  else .error (.error .invalidMagic)

/-- "REDIS0" -/
def magicRedis : Bytes := [82, 69, 68, 73, 83, 48]

/-- "VALKEY" -/
def magicValkey : Bytes := [86, 65, 76, 75, 69, 89]

/-- reader.rs:1192-1223 -/
def parseHeader (buf : Bytes) : Res RdbHeader :=
  if buf.take 6 = magicRedis then parseVersion .redis (buf.drop 6)
  else if buf.take 6 = magicValkey then parseVersion .valkey (buf.drop 6)
  else .error (.error .invalidMagic)

def readHeader : ReadM RdbHeader := do
  let buf ← ReadAction.readExact 9
  ReadAction.lift (parseHeader buf)

/-- The value of an AUX field, lossy where it is not UTF-8 (reader.rs:476-477). -/
def auxValue (value : Bytes) : Bytes := if validUtf8 value then value else fromUtf8Lossy value

def RdbReader.insertAux (key value : Bytes) (r : RdbReader) : RdbReader :=
  { r with metadata := ⟨r.metadata.aux.insert key value⟩ }

/-- reader.rs:466-480 -/
def readAuxField : ReaderM Unit := do
  let key ← liftRead readString
  let value ← liftRead readString
  if validUtf8 key then modify (RdbReader.insertAux key (auxValue value))
  else corruptData "AUX key is not valid UTF-8"

/-- One round of the loop of `read_preamble`. -/
def preambleStep : ReaderM (Option Unit) := do
  let byte ← liftRead readU8
  if byte = rdbOpcodeAux then do
    readAuxField
    pure none
  else do
    modify fun r => { r with preambleByte := some byte }
    pure (some ())

/-- reader.rs:483-493 -/
def readPreamble : ReaderM Unit :=
  StateAction.loop RdbReader.pendingBytes preambleStep .diverge

/-- A reader whose header was just read. -/
def RdbReader.afterHeader (reader : CrcReader) (header : RdbHeader) : RdbReader where
  reader := reader
  header := header
  metadata := ⟨SortedMap.empty⟩
  currentDb := 0
  pendingExpiryMs := none
  pendingLruIdle := none
  pendingLfuFreq := none
  preambleByte := none
  finished := false
  maxKeyElements := some defaultMaxKeyElements
  chunked := none
  crcChecked := false

/-- reader.rs:134-153 -/
def RdbReader.new (input : Bytes) : Res RdbReader :=
  match readHeader.run ⟨input, 0⟩ with
  | (.error e, _) => .error e
  | (.ok header, reader) =>
    match readPreamble (RdbReader.afterHeader reader header) with
    | (.error e, _) => .error e
    | (.ok (), r) => .ok r

/-! ### Key objects -/

/-- reader.rs:968-973 -/
def isPlainType (typeCode : UInt8) : Bool :=
  match typeCode with
  | rdbTypeList | rdbTypeSet | rdbTypeZset | rdbTypeHash | rdbTypeZset2 | rdbTypeHash2 => true
  | _ => false

/-- `take` of the three pending fields (reader.rs:499-501). -/
def takePending : ReaderM (Option Int × Option Nat × Option UInt8) := fun r =>
  (.ok (r.pendingExpiryMs, r.pendingLruIdle, r.pendingLfuFreq),
    { r with pendingExpiryMs := none, pendingLruIdle := none, pendingLfuFreq := none })

/-- The entry that `read_entry` builds around a value. -/
def keyEntry (db : Nat) (typeCode : UInt8) (pending : Option Int × Option Nat × Option UInt8)
    (key : Bytes) (value : RdbValue) (totalElements elementOffset : Option Nat) : RdbEntry where
  db := db
  key := key
  value := value
  typeCode := typeCode
  expiryMs := pending.1
  lruIdleSecs := pending.2.1
  lfuFrequency := pending.2.2
  totalElements := totalElements
  elementOffset := elementOffset

/-- The state saved after the first chunk (reader.rs:519-529). -/
def ChunkedState.start (db : Nat) (typeCode : UInt8)
    (pending : Option Int × Option Nat × Option UInt8) (key : Bytes)
    (count remaining offset : Nat) : ChunkedState where
  db := db
  key := key
  typeCode := typeCode
  expiryMs := pending.1
  lruIdleSecs := pending.2.1
  lfuFrequency := pending.2.2
  totalCount := count
  remaining := remaining
  elementOffset := offset

/-- Saves the state if there are elements left (reader.rs:518-530). -/
def saveChunked (state : ChunkedState) : ReaderM Unit :=
  if state.remaining > 0 then modify fun r => { r with chunked := some state } else pure ()

/-- The first chunk of a plain collection of `count > max` elements, and the state its
later chunks are read from (reader.rs:513-545). -/
def readFirstChunk (db : Nat) (typeCode : UInt8)
    (pending : Option Int × Option Nat × Option UInt8) (key : Bytes) (count max : Nat) :
    ReaderM RdbEntry := do
  let value ← liftRead (readNElements typeCode max)
  let remaining ← StateAction.lift (sub64 count max)
  saveChunked (ChunkedState.start db typeCode pending key count remaining max)
  pure (keyEntry db typeCode pending key value (some count) (some 0))

/-- A plain collection under a chunk limit (reader.rs:509-557). -/
def readPlainEntry (db : Nat) (typeCode : UInt8)
    (pending : Option Int × Option Nat × Option UInt8) (key : Bytes) (max : Nat) :
    ReaderM RdbEntry := do
  let count ← liftRead (readCount "element count")
  if count > max then readFirstChunk db typeCode pending key count max
  else do
    let value ← liftRead (readNElements typeCode count)
    pure (keyEntry db typeCode pending key value none none)

/-- Any value read at once (reader.rs:560-570). -/
def readWholeEntry (db : Nat) (typeCode : UInt8)
    (pending : Option Int × Option Nat × Option UInt8) (key : Bytes) : ReaderM RdbEntry := do
  let value ← liftRead (readValue typeCode)
  pure (keyEntry db typeCode pending key value none none)

/-- The part of `read_entry` after the key (reader.rs:508-570). -/
def readEntryValue (typeCode : UInt8) (pending : Option Int × Option Nat × Option UInt8)
    (key : Bytes) : ReaderM RdbEntry := do
  let r ← get
  match r.maxKeyElements with
  | some max =>
    if isPlainType typeCode then readPlainEntry r.currentDb typeCode pending key max
    else readWholeEntry r.currentDb typeCode pending key
  | none => readWholeEntry r.currentDb typeCode pending key

/-- reader.rs:496-570 -/
def readEntry (typeCode : UInt8) : ReaderM RdbEntry := do
  let pending ← takePending
  let key ← liftRead readString
  readEntryValue typeCode pending key

/-- `self.chunked.as_mut().ok_or_else(..)?` -/
def chunkedState (msg : String) : ReaderM ChunkedState := do
  let r ← get
  match r.chunked with
  | some state => pure state
  | none => corruptData msg

/-- `self.max_key_elements.ok_or_else(..)?` -/
def chunkLimit : ReaderM ℕ+ := do
  let r ← get
  match r.maxKeyElements with
  | some max => pure max
  | none => corruptData "chunked state without max_key_elements"

/-- The update of the chunk state after `chunk_size` elements (reader.rs:944-952). -/
def advanceChunk (chunkSize : Nat) : ReaderM Unit := do
  let state ← chunkedState "internal: chunked state missing after read_n_elements"
  let remaining ← StateAction.lift (sub64 state.remaining chunkSize)
  let elementOffset ← StateAction.lift (add64 state.elementOffset chunkSize)
  modify fun r => { r with
    chunked := if remaining = 0 then none
      else some { state with remaining := remaining, elementOffset := elementOffset } }

/-- The next chunk of a large key (reader.rs:922-964). -/
def readChunk : ReaderM RdbEntry := do
  let state ← chunkedState "read_chunk called without chunked state"
  let max ← chunkLimit
  let chunkSize := min (max : Nat) state.remaining
  let value ← liftRead (readNElements state.typeCode chunkSize)
  advanceChunk chunkSize
  pure (keyEntry state.db state.typeCode
    (state.expiryMs, state.lruIdleSecs, state.lfuFrequency) state.key value
    (some state.totalCount) (some state.elementOffset))

/-! ### The end of the file (reader.rs:1062-1087) -/

/-- Eight bytes from the inner reader, which the CRC does not see. -/
def readTrailer : ReaderM Bytes := fun r =>
  (if 8 ≤ r.reader.inner.length then .ok (r.reader.inner.take 8) else .error eofFault,
    { r with reader := ⟨r.reader.inner.drop 8, r.reader.crc⟩ })

/-- The comparison of the stored checksum, where there is one. -/
def checkCrc (computedCrc storedCrc : BitVec 64) : ReaderM Unit := do
  let r ← get
  if r.header.version ≥ 5 ∧ storedCrc ≠ 0 then
    if computedCrc ≠ storedCrc then
      corruptData s!"CRC64 mismatch: computed 0x{hexText 16 computedCrc.toNat}, stored 0x{hexText 16 storedCrc.toNat}"
    else modify fun r => { r with crcChecked := true }
  else pure ()

def readEof : ReaderM Unit := do
  let r ← get
  let crcBuf ← readTrailer
  checkCrc r.reader.crc (BitVec.ofNat 64 (leVal crcBuf))
  modify fun r => { r with finished := true }

/-! ### Opcodes (reader.rs:1002-1137) -/

/-- `a.checked_mul(b)` on 64-bit signed integers. -/
def checkedMul64 (a b : Int) : Option Int := if FitsSigned 64 (a * b) then some (a * b) else none

def selectDb : ReaderM Unit := do
  let db ← liftRead readLengthValue
  if db < 2 ^ 32 then modify fun r => { r with currentDb := db }
  else corruptData s!"db index {db} exceeds u32"

def resizeDb : ReadM Unit := do
  let _dbSize ← readLengthValue
  let _expiresSize ← readLengthValue
  pure ()

def expireTimeMs : ReaderM Unit := do
  let ms ← liftRead readI64Le
  modify fun r => { r with pendingExpiryMs := some ms }

def expireTime : ReaderM Unit := do
  let secs ← liftRead readI32Le
  match checkedMul64 secs 1000 with
  | some ms => modify fun r => { r with pendingExpiryMs := some ms }
  | none => corruptData s!"EXPIRETIME overflow: {secs} seconds"

def idle : ReaderM Unit := do
  let secs ← liftRead readLengthValue
  modify fun r => { r with pendingLruIdle := some secs }

def freq : ReaderM Unit := do
  let f ← liftRead readU8
  modify fun r => { r with pendingLfuFreq := some f }

def skipFunction2 : ReadM Unit := do
  let _payload ← readString
  pure ()

def skipModuleAux : ReadM Unit := do
  let _moduleId ← readLengthValue
  let _whenOpcode ← readLengthValue
  let _when ← readLengthValue
  skipModuleData

def skipSlotInfo : ReadM Unit := do
  let _slotId ← readLengthValue
  let _slotSize ← readLengthValue
  let _expiresSize ← readLengthValue
  pure ()

def skipSlotRange : ReadM Unit := do
  let _start ← readLengthValue
  let _end ← readLengthValue
  pure ()

def skipSlotImport : ReadM Unit := do
  let _jobName ← readString
  let numRanges ← readCount "slot import range count"
  let _ranges ← ReadAction.replicate numRanges skipSlotRange
  pure ()

/-- A method that ends a round of the opcode loop with `continue`. -/
def continueWith (m : ReaderM Unit) : ReaderM (Option (Option RdbEntry)) := do
  m
  pure none

/-- What the loop does with an opcode byte: `none` is `continue`, `some x` is
`return Ok(x)`. -/
def opcodeArm (byte : UInt8) : ReaderM (Option (Option RdbEntry)) :=
  match byte with
  | rdbOpcodeAux => continueWith readAuxField
  | rdbOpcodeSelectdb => continueWith selectDb
  | rdbOpcodeResizedb => continueWith (liftRead resizeDb)
  | rdbOpcodeExpiretimeMs => continueWith expireTimeMs
  | rdbOpcodeExpiretime => continueWith expireTime
  | rdbOpcodeIdle => continueWith idle
  | rdbOpcodeFreq => continueWith freq
  | rdbOpcodeEof => do
    readEof
    pure (some none)
  | rdbOpcodeFunction2 => continueWith (liftRead skipFunction2)
  | rdbOpcodeFunctionPreGa => corruptData "FUNCTION_PRE_GA opcode is not supported"
  | rdbOpcodeModuleAux => continueWith (liftRead skipModuleAux)
  | rdbOpcodeSlotInfo => continueWith (liftRead skipSlotInfo)
  | rdbOpcodeSlotImport => continueWith (liftRead skipSlotImport)
  | byte =>
    if isObjectType byte then do
      let entry ← readEntry byte
      pure (some (some entry))
    else corruptData s!"unexpected byte 0x{hexText 2 byte.toNat} in opcode position"

/-- The replayed byte if there is one, else the next one (reader.rs:1013-1017). -/
def readOpcode : ReaderM UInt8 := fun r =>
  match r.preambleByte with
  | some b => (.ok b, { r with preambleByte := none })
  | none => liftRead readU8 r

/-- One round of the opcode loop. -/
def opcodeStep : ReaderM (Option (Option RdbEntry)) := do
  let byte ← readOpcode
  opcodeArm byte

def opcodeLoop : ReaderM (Option RdbEntry) :=
  StateAction.loop RdbReader.pendingBytes opcodeStep .diverge

/-- reader.rs:1002-1137 -/
def nextInner : ReaderM (Option RdbEntry) := do
  let r ← get
  if r.chunked.isSome then do
    let entry ← readChunk
    pure (some entry)
  else opcodeLoop

/-- One call of `next` (reader.rs:979-997). A fault other than `Err(UnknownType)` ends
the iteration. -/
def RdbReader.next (r : RdbReader) : Option (Res RdbEntry) × RdbReader :=
  if r.finished then (none, r)
  else match nextInner r with
    | (.ok (some entry), r') => (some (.ok entry), r')
    | (.ok none, r') => (none, r')
    | (.error (.error (.unknownType t)), r') => (some (.error (.error (.unknownType t))), r')
    | (.error f, r') => (some (.error f), { r' with finished := true })

end ValkeyRdb
