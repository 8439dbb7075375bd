import ValkeyRdb.Reader.Primitives
import ValkeyRdb.Listpack
import ValkeyRdb.Ziplist
import ValkeyRdb.Intset
import ValkeyRdb.Stream

/-!
# Value decoders of the RDB reader (reader.rs:12-39, 364-461, 572-920, 1140-1189)
-/

namespace ValkeyRdb

open ReadAction (lift readExact)

/-! ### Modules -/

/-- "A".."Z", "a".."z", "0".."9", "-", "_" (reader.rs:20). -/
def moduleTypeNameCharset : Bytes :=
  (List.range 26).map (fun i => UInt8.ofNat (65 + i)) ++
    (List.range 26).map (fun i => UInt8.ofNat (97 + i)) ++
    (List.range 10).map (fun i => UInt8.ofNat (48 + i)) ++ [45, 95]

/-- The loop of `decode_module_id`, last character first. -/
def moduleNameLoop : Nat → Nat → Bytes → Res Bytes
  | 0, _, name => .ok name
  | n + 1, id, name => do
    let c ← index moduleTypeNameCharset (id &&& 0x3F)
    moduleNameLoop n (id >>> 6) (c :: name)

/-- Name and encoding version packed in a module type ID (reader.rs:27-39). -/
def decodeModuleId (moduleId : Nat) : Res (Bytes × Nat) := do
  let version := moduleId &&& 0x3FF
  let name ← moduleNameLoop 9 (moduleId >>> 10) []
  pure (fromUtf8Lossy name, version)

def rdbModuleOpcodeEof : Nat := 0
def rdbModuleOpcodeSint : Nat := 1
def rdbModuleOpcodeUint : Nat := 2
def rdbModuleOpcodeFloat : Nat := 3
def rdbModuleOpcodeDouble : Nat := 4
def rdbModuleOpcodeString : Nat := 5

/-- One module value, or `none` at the end of the opcode stream: the body of the loop
of `for_each_module_value` before `emit` (reader.rs:391-426). -/
def readModuleValue : ReadM (Option ModuleValue) := do
  let opcode ← readLengthValue
  if opcode = rdbModuleOpcodeEof then pure none
  else if opcode = rdbModuleOpcodeSint then
    let raw ← readLengthValue
    pure (some (.signedInt (signed 64 raw)))
  else if opcode = rdbModuleOpcodeUint then
    let raw ← readLengthValue
    pure (some (.unsignedInt raw))
  else if opcode = rdbModuleOpcodeString then
    let s ← readString
    pure (some (.string s))
  else if opcode = rdbModuleOpcodeFloat then
    let buf ← readExact 4
    pure (some (.float (F32.ofLeBytes buf)))
  else if opcode = rdbModuleOpcodeDouble then
    let buf ← readExact 8
    pure (some (.double (F64.ofLeBytes buf)))
  else lift (corrupt s!"unknown module sub-opcode: {opcode}")

section Emit

variable {σ : Type} (emit : σ → ModuleValue → Res σ)

def moduleRound (st : σ) : ReadM (σ ⊕ σ) := do
  match ← readModuleValue with
  | none => pure (.inr st)
  | some v =>
    let st' ← lift (emit st v)
    pure (.inl st')

/-- reader.rs:387-427; the captured variables of `emit` are its state. -/
def forEachModuleValue (st : σ) : ReadM σ := ReadAction.loop (moduleRound emit) .diverge st

end Emit

/-- reader.rs:369 -/
def maxModuleValues : Nat := 5000000

/-- reader.rs:375 -/
def maxModuleStringBytes : Nat := 256 * 1024 * 1024

/-- The closure of `read_module_data`: values so far and their string bytes. -/
def emitModuleValue (st : List ModuleValue × Nat) (v : ModuleValue) :
    Res (List ModuleValue × Nat) :=
  let (values, stringBytes) := st
  if values.length ≥ maxModuleValues then
    corrupt s!"module value count exceeds {maxModuleValues} limit"
  else
    match v with
    | .string s =>
      let stringBytes := min (stringBytes + s.length) (2 ^ 64 - 1)
      if stringBytes > maxModuleStringBytes then
        corrupt s!"module string bytes exceed {maxModuleStringBytes} limit"
      else .ok (values ++ [v], stringBytes)
    | _ => .ok (values ++ [v], stringBytes)

/-- reader.rs:432-455 -/
def readModuleData : ReadM (List ModuleValue) := do
  let (values, _) ← forEachModuleValue emitModuleValue ([], 0)
  pure values

/-- reader.rs:459 -/
def skipModuleData : ReadM Unit := forEachModuleValue (fun _ _ => .ok ()) ()

/-! ### Compact entries as pairs -/

/-- The loop of `decode_hash_pairs`. -/
def hashPairsLoop (ctx : String) : List CompactEntry → Res (List HashField)
  | [] => .ok []
  | [_] => corrupt s!"{ctx}: missing value for field"
  | field :: value :: rest => do
    let fields ← hashPairsLoop ctx rest
    pure (⟨field.intoBytes, value.intoBytes, none⟩ :: fields)

/-- reader.rs:1140-1163 -/
def decodeHashPairs (entries : List CompactEntry) (ctx : String) : Res (List HashField) :=
  if entries.length % 2 ≠ 0 then corrupt s!"{ctx} has odd number of entries"
  else hashPairsLoop ctx entries

/-- The loop of `decode_zset_pairs`. -/
def zsetPairsLoop (ctx : String) : List CompactEntry → Res (List (Bytes × F64))
  | [] => .ok []
  | [_] => corrupt s!"{ctx}: missing score for member"
  | member :: scoreEntry :: rest => do
    let score ← scoreEntry.toF64
    let pairs ← zsetPairsLoop ctx rest
    pure ((member.intoBytes, score) :: pairs)

/-- reader.rs:1166-1185 -/
def decodeZsetPairs (entries : List CompactEntry) (ctx : String) : Res (List (Bytes × F64)) :=
  if entries.length % 2 ≠ 0 then corrupt s!"{ctx} has odd number of entries"
  else zsetPairsLoop ctx entries

/-! ### Elements of plain collections (reader.rs:851-920) -/

def readZsetPair : ReadM (Bytes × F64) := do
  let member ← readString
  let score ← readDoubleValue
  pure (member, score)

def readHashField : ReadM HashField := do
  let field ← readString
  let value ← readString
  pure ⟨field, value, none⟩

def readZset2Pair : ReadM (Bytes × F64) := do
  let member ← readString
  let scoreBuf ← readExact 8
  pure (member, F64.ofLeBytes scoreBuf)

def readHash2Field : ReadM HashField := do
  let field ← readString
  let value ← readString
  let ttl ← readI64Le
  pure ⟨field, value, if ttl = -1 then none else some ttl⟩

def readNElements (typeCode : UInt8) (n : Nat) : ReadM RdbValue :=
  match typeCode with
  | rdbTypeList => do
    let elements ← ReadAction.replicate n readString
    pure (.list elements)
  | rdbTypeSet => do
    let members ← ReadAction.replicate n readString
    pure (.set members)
  | rdbTypeZset => do
    let pairs ← ReadAction.replicate n readZsetPair
    pure (.sortedSet pairs)
  | rdbTypeHash => do
    let fields ← ReadAction.replicate n readHashField
    pure (.hash fields)
  | rdbTypeZset2 => do
    let pairs ← ReadAction.replicate n readZset2Pair
    pure (.sortedSet pairs)
  | rdbTypeHash2 => do
    let fields ← ReadAction.replicate n readHash2Field
    pure (.hash fields)
  | _ => lift (corrupt s!"read_n_elements called with non-plain type code {typeCode.toNat}")

/-! ### Streams (reader.rs:735-847) -/

/-- Entries decoded so far and the first decode error, which is deferred. -/
structure StreamAcc where
  allEntries : List StreamEntry
  deferredErr : Option RdbError

/-- Decoding of one listpack once its bytes are read (reader.rs:752-772). -/
def streamAccPush (acc : StreamAcc) (masterId lpData : Bytes) : Res StreamAcc :=
  if acc.deferredErr.isSome then .ok acc
  else if masterId.length ≠ 16 then
    .ok { acc with deferredErr := some (.corruptData
      s!"stream master ID is {masterId.length} bytes, expected exactly 16") }
  else do
    let ms := beVal (← slice masterId 0 8)
    let seq := beVal (← slice masterId 8 16)
    let budget := Stream.maxStreamEntries - acc.allEntries.length
    match Stream.decodeStreamListpack ms seq lpData budget with
    | .ok entries => .ok { acc with allEntries := acc.allEntries ++ entries }
    | .error (.error e) => .ok { acc with deferredErr := some e }
    | .error f => .error f

/-- One round of the listpack loop (reader.rs:742-776). -/
def readStreamListpack (acc : StreamAcc) : ReadM StreamAcc := do
  let masterIdBytes ← readString
  let lpData ← readString
  lift (streamAccPush acc masterIdBytes lpData)

/-- One entry of a consumer group's pending list (reader.rs:826-830). -/
def skipPelEntry : ReadM Unit := do
  let _id ← readExactVec 16
  let _deliveryTime ← readI64Le
  let _deliveryCount ← readLengthValue
  pure ()

/-- A field that stream types have from `minType` on. -/
def readSince {α : Type} (minType typeCode : UInt8) (p : ReadM α) : ReadM (Option α) :=
  if minType ≤ typeCode then do
    let a ← p
    pure (some a)
  else pure none

/-- One consumer (reader.rs:833-845). -/
def skipConsumer (typeCode : UInt8) : ReadM Unit := do
  let _consumerName ← readString
  let _seenTime ← readI64Le
  let _activeTime ← readSince rdbTypeStreamListpacks3 typeCode readI64Le
  let consumerPel ← readCount "stream consumer PEL count"
  let _ids ← ReadAction.replicate consumerPel (readExactVec 16)
  pure ()

/-- One consumer group (reader.rs:815-845). -/
def skipConsumerGroup (typeCode : UInt8) : ReadM Unit := do
  let _name ← readString
  let _lastIdMs ← readLengthValue
  let _lastIdSeq ← readLengthValue
  let _entriesRead ← readSince rdbTypeStreamListpacks2 typeCode readLengthValue
  let numPel ← readCount "stream PEL count"
  let _pel ← ReadAction.replicate numPel skipPelEntry
  let numConsumers ← readCount "stream consumer count"
  let _consumers ← ReadAction.replicate numConsumers (skipConsumer typeCode)
  pure ()

/-- reader.rs:813-847 -/
def skipStreamConsumerGroups (typeCode : UInt8) : ReadM Unit := do
  let numCgroups ← readCount "stream cgroup count"
  let _groups ← ReadAction.replicate numCgroups (skipConsumerGroup typeCode)
  pure ()

/-- The five ID and counter fields newer stream types add (reader.rs:783-789). -/
def skipStreamIdFields : ReadM Unit := do
  let _fields ← ReadAction.replicate 5 readLengthValue
  pure ()

/-- The checks after the payload is drained (reader.rs:793-815). -/
def finishStream (acc : StreamAcc) (length lastIdMs lastIdSeq : Nat) : Res RdbValue :=
  match acc.deferredErr with
  | some e => .error (.error e)
  | none =>
    let decoded := acc.allEntries.length
    if length ≠ decoded then
      corrupt s!"stream length metadata ({length}) does not match decoded entry count ({decoded})"
    else .ok (.stream ⟨acc.allEntries, length, s!"{lastIdMs}-{lastIdSeq}"⟩)

/-- reader.rs:735-810 -/
def readStream (typeCode : UInt8) : ReadM RdbValue := do
  let numListpacks ← readCount "stream listpack count"
  let acc ← ReadAction.iterate numListpacks readStreamListpack ⟨[], none⟩
  let length ← readLengthValue
  let lastIdMs ← readLengthValue
  let lastIdSeq ← readLengthValue
  let _idFields ← readSince rdbTypeStreamListpacks2 typeCode skipStreamIdFields
  skipStreamConsumerGroups typeCode
  lift (finishStream acc length lastIdMs lastIdSeq)

/-! ### Values (reader.rs:575-722) -/

/-- One node of a quicklist (reader.rs:661-666). -/
def readQuicklistNode : ReadM (List Bytes) := do
  let node ← readString
  let entries ← lift (Ziplist.decode node)
  pure (entries.map CompactEntry.intoBytes)

/-- One node of a quicklist v2: container 1 is PLAIN, 2 is PACKED (reader.rs:678-699). -/
def readQuicklist2Node : ReadM (List Bytes) := do
  let container ← readLengthValue
  let node ← readString
  if container = 1 then pure [node]
  else if container = 2 then
    let entries ← lift (Listpack.decode node)
    pure (entries.map CompactEntry.intoBytes)
  else lift (corrupt s!"quicklist2 unknown container type: {container}")

/-- `decode(read_string()?)?` -/
def readBlob {α : Type} (decode : Bytes → Res α) : ReadM α := do
  let blob ← readString
  lift (decode blob)

def readValue (typeCode : UInt8) : ReadM RdbValue :=
  match typeCode with
  | rdbTypeString => do
    let data ← readString
    pure (.string data)
  | rdbTypeSetListpack => do
    let entries ← readBlob Listpack.decode
    pure (.set (entries.map CompactEntry.intoBytes))
  | rdbTypeHashListpack => do
    let entries ← readBlob Listpack.decode
    let fields ← lift (decodeHashPairs entries "hash listpack")
    pure (.hash fields)
  | rdbTypeZsetListpack => do
    let entries ← readBlob Listpack.decode
    let pairs ← lift (decodeZsetPairs entries "zset listpack")
    pure (.sortedSet pairs)
  | rdbTypeListZiplist => do
    let entries ← readBlob Ziplist.decode
    pure (.list (entries.map CompactEntry.intoBytes))
  | rdbTypeHashZiplist => do
    let entries ← readBlob Ziplist.decode
    let fields ← lift (decodeHashPairs entries "hash ziplist")
    pure (.hash fields)
  | rdbTypeZsetZiplist => do
    let entries ← readBlob Ziplist.decode
    let pairs ← lift (decodeZsetPairs entries "zset ziplist")
    pure (.sortedSet pairs)
  | rdbTypeSetIntset => do
    let members ← readBlob Intset.decode
    pure (.set members)
  | rdbTypeHashZipmap => do
    let _blob ← readString
    lift (.error (.error (.unknownType typeCode)))
  | rdbTypeHash | rdbTypeHash2 | rdbTypeList | rdbTypeSet | rdbTypeZset | rdbTypeZset2 => do
    let count ← readCount "element count"
    readNElements typeCode count
  | rdbTypeListQuicklist => do
    let count ← readCount "element count"
    let nodes ← ReadAction.replicate count readQuicklistNode
    pure (.list nodes.flatten)
  | rdbTypeListQuicklist2 => do
    let count ← readCount "element count"
    let nodes ← ReadAction.replicate count readQuicklist2Node
    pure (.list nodes.flatten)
  | rdbTypeStreamListpacks | rdbTypeStreamListpacks2 | rdbTypeStreamListpacks3 =>
    readStream typeCode
  | rdbTypeModule2 => do
    let moduleId ← readLengthValue
    let (moduleName, moduleVersion) ← lift (decodeModuleId moduleId)
    let values ← readModuleData
    pure (.module ⟨moduleName, moduleVersion, values⟩)
  | rdbTypeModulePreGa => lift (corrupt "MODULE_PRE_GA (type 6) is not supported")
  | _ => lift (corrupt
      s!"type {typeCode.toNat} recognized as object type but has no decoder or skip logic")

end ValkeyRdb
