import ValkeyRdb.Format.Values
import ValkeyRdb.Reader.Chunking
import ValkeyRdb.Reader.Preamble

/-!
# Opcode records as they are written

Every opcode but EOF is read in one round of the opcode loop. It leaves the reader behind
the record with the fields that `Opcode.effect` sets, or fails where the record exceeds a
cap.
-/

namespace ValkeyRdb

open ReadAction (Decodes DecodesWhen FailsWith)
open StateAction (run_bind_ok run_bind_error)

/-! ### Reads of a whole reader -/

/-- The reader behind the bytes `b`, in front of the bytes `rest`. -/
def RdbReader.past (r : RdbReader) (b rest : Bytes) : RdbReader :=
  { r with reader := ⟨rest, crc64 r.reader.crc b⟩ }

theorem past_past (r : RdbReader) (b b' rest rest' : Bytes) :
    (r.past b rest').past b' rest = r.past (b ++ b') rest := by
  unfold RdbReader.past
  rw [crc64_append]

/-- In front of the bytes `b` the method returns `x` and leaves the reader as `effect` does
behind them if `c` holds; if not, it fails in a way that ends the iteration. -/
structure ArmWhen {α : Type} (c : Prop) (m : ReaderM α) (b : Bytes) (x : α)
    (effect : RdbReader → RdbReader) : Prop where
  takes : c → ∀ r rest, r.reader.inner = b ++ rest → m r = (.ok x, effect (r.past b rest))
  fails : ¬c → ∃ e, Terminal (.error e) ∧
    ∀ r rest, r.reader.inner = b ++ rest → ∃ r', m r = (.error e, r')

section Arms

variable {α β : Type} {c c' : Prop} {p : ReadM α} {b b' : Bytes} {x : α} {y : β}
  {Q : α → Prop} {effect : RdbReader → RdbReader}

theorem liftRead_decodes (h : Decodes p b x) {r : RdbReader} {rest : Bytes}
    (hi : r.reader.inner = b ++ rest) : liftRead p r = (.ok x, r.past b rest) := by
  have hrun := h.run rest r.reader.crc
  rw [← hi] at hrun
  exact liftRead_ok hrun

theorem liftRead_fails {e : Fault} (h : FailsWith p b e) {r : RdbReader} {rest : Bytes}
    (hi : r.reader.inner = b ++ rest) : ∃ r', liftRead p r = (.error e, r') := by
  have hrun := h rest r.reader.crc
  rw [← hi] at hrun
  exact ⟨_, Prod.ext hrun rfl⟩

theorem terminal_of_fails (hp : ReadReturns p Q) {e : Fault} (h : FailsWith p b e) :
    Terminal (.error e) := by
  have hret := hp ⟨b ++ [], 0⟩
  rw [h [] 0] at hret
  exact terminal_of_inputError hret

theorem ArmWhen.read (hp : ReadReturns p Q) (h : DecodesWhen c p b x) :
    ArmWhen c (liftRead p) b x id where
  takes hc _ _ hi := liftRead_decodes (h.decodes hc) hi
  fails hc := by
    obtain ⟨e, he⟩ := h.fails hc
    exact ⟨e, terminal_of_fails hp he, fun _ _ hi => liftRead_fails he hi⟩

theorem ArmWhen.bind_read {f : α → ReaderM β} (hp : ReadReturns p Q) (h : DecodesWhen c p b x)
    (hf : ArmWhen c' (f x) b' y effect) :
    ArmWhen (c ∧ c') (liftRead p >>= f) (b ++ b') y effect where
  takes hc r rest hi := by
    rw [List.append_assoc] at hi
    rw [run_bind_ok (liftRead_decodes (h.decodes hc.1) hi),
      hf.takes hc.2 (r.past b (b' ++ rest)) rest rfl, past_past]
  fails hc := by
    by_cases hcx : c
    · obtain ⟨e, ht, he⟩ := hf.fails fun hc' => hc ⟨hcx, hc'⟩
      refine ⟨e, ht, fun r rest hi => ?_⟩
      rw [List.append_assoc] at hi
      rw [run_bind_ok (liftRead_decodes (h.decodes hcx) hi)]
      exact he (r.past b (b' ++ rest)) rest rfl
    · obtain ⟨e, he⟩ := h.fails hcx
      refine ⟨e, terminal_of_fails hp he, fun r rest hi => ?_⟩
      rw [List.append_assoc] at hi
      obtain ⟨r', hr⟩ := liftRead_fails he hi
      exact ⟨r', run_bind_error hr⟩

theorem ArmWhen.modify (effect : RdbReader → RdbReader) :
    ArmWhen True (StateAction.modify effect) [] () effect where
  takes _ r rest hi := by
    have hr : r.past [] rest = r := by
      cases r
      cases hi
      rfl
    rw [hr]
    rfl
  fails h := absurd trivial h

theorem ArmWhen.read_modify {f : α → ReaderM Unit} (hp : ReadReturns p Q)
    (h : DecodesWhen c p b x) (hf : f x = StateAction.modify effect) :
    ArmWhen c (liftRead p >>= f) b () effect := by
  have hmod := ArmWhen.modify effect
  rw [← hf] at hmod
  have harm := ArmWhen.bind_read hp h hmod
  rw [List.append_nil, and_true] at harm
  exact harm

theorem ArmWhen.continues {m : ReaderM Unit} (h : ArmWhen c m b () effect) :
    ArmWhen c (continueWith m) b none effect where
  takes hc r rest hi := run_bind_ok (h.takes hc r rest hi)
  fails hc := by
    obtain ⟨e, ht, he⟩ := h.fails hc
    refine ⟨e, ht, fun r rest hi => ?_⟩
    obtain ⟨r', hr⟩ := he r rest hi
    exact ⟨r', run_bind_error hr⟩

end Arms

theorem readI32Le_decodes {i : Int} (h : FitsSigned 32 i) :
    Decodes readI32Le (leBytes 4 (unsigned 32 i)) i := by
  have hlt : unsigned 32 i < 256 ^ 4 := unsigned_lt 32 i
  have hbuf : Decodes (ReadAction.readExact 4 : ReadM Bytes) (leBytes 4 (unsigned 32 i)) _ :=
    ReadAction.decodes_readExact_of_length (length_leBytes 4 _)
  have hval : signed 32 (leVal (leBytes 4 (unsigned 32 i))) = i := by
    rw [leVal_leBytes_of_lt hlt, signed_unsigned (by decide) h]
  have hread := hbuf.bind_pure (f := fun buf => pure (signed 32 (leVal buf))) (Decodes.pure _)
  rwa [hval] at hread

/-! ### Opcode records -/

inductive Opcode where
  | aux (key value : StringForm) (h : validUtf8 key.value = true)
  | selectDb (db : LenForm) (h : db.value < 2 ^ 32)
  | resizeDb (dbSize expiresSize : LenForm)
  | expireTimeMs (ms : Int) (h : FitsSigned 64 ms)
  | expireTime (secs : Int) (h : FitsSigned 32 secs)
  | idle (secs : LenForm)
  | freq (f : UInt8)
  | function2 (payload : StringForm)
  | moduleAux (moduleId whenOpcode when : LenForm) (stream : ModuleStream)
  | slotInfo (slotId slotSize expiresSize : LenForm)
  | slotImport (jobName : StringForm) (ranges : Counted (LenForm × LenForm))

namespace Opcode

def byte : Opcode → UInt8
  | aux _ _ _ => rdbOpcodeAux
  | selectDb _ _ => rdbOpcodeSelectdb
  | resizeDb _ _ => rdbOpcodeResizedb
  | expireTimeMs _ _ => rdbOpcodeExpiretimeMs
  | expireTime _ _ => rdbOpcodeExpiretime
  | idle _ => rdbOpcodeIdle
  | freq _ => rdbOpcodeFreq
  | function2 _ => rdbOpcodeFunction2
  | moduleAux _ _ _ _ => rdbOpcodeModuleAux
  | slotInfo _ _ _ => rdbOpcodeSlotInfo
  | slotImport _ _ => rdbOpcodeSlotImport

def payload : Opcode → Bytes
  | aux key value _ => key.bytes ++ value.bytes
  | selectDb db _ => db.bytes
  | resizeDb dbSize expiresSize => dbSize.bytes ++ expiresSize.bytes
  | expireTimeMs ms _ => leBytes 8 (unsigned 64 ms)
  | expireTime secs _ => leBytes 4 (unsigned 32 secs)
  | idle secs => secs.bytes
  | freq f => [f]
  | function2 payload => payload.bytes
  | moduleAux moduleId whenOpcode when stream =>
    moduleId.bytes ++ (whenOpcode.bytes ++ (when.bytes ++ stream.bytes))
  | slotInfo slotId slotSize expiresSize =>
    slotId.bytes ++ (slotSize.bytes ++ expiresSize.bytes)
  | slotImport jobName ranges =>
    jobName.bytes ++ ranges.bytes fun range => range.1.bytes ++ range.2.bytes

def bytes (o : Opcode) : Bytes := o.byte :: o.payload

/-- Strings and counts are within the caps of the reader. -/
def Fits : Opcode → Prop
  | aux key value _ => key.Fits ∧ value.Fits
  | function2 payload => payload.Fits
  | moduleAux _ _ _ stream => ∀ t ∈ stream.items, t.Fits
  | slotImport jobName ranges => jobName.Fits ∧ ranges.items.length ≤ maxAllocBytes
  | _ => True

def effect (o : Opcode) (r : RdbReader) : RdbReader :=
  match o with
  | aux key value _ => r.insertAux key.value (auxValue value.value)
  | selectDb db _ => { r with currentDb := db.value }
  | expireTimeMs ms _ => { r with pendingExpiryMs := some ms }
  | expireTime secs _ => { r with pendingExpiryMs := some (secs * 1000) }
  | idle secs => { r with pendingLruIdle := some secs.value }
  | freq f => { r with pendingLfuFreq := some f }
  | _ => r

theorem skipSlotRange_decodes (range : LenForm × LenForm) :
    Decodes skipSlotRange (range.1.bytes ++ range.2.bytes) () :=
  range.1.decodesValue.bind (range.2.decodesValue.map fun _ => ())

/-- The seconds of EXPIRETIME never overflow as milliseconds. -/
theorem checkedMul64_seconds {secs : Int} (h : FitsSigned 32 secs) :
    checkedMul64 secs 1000 = some (secs * 1000) := by
  have hfit : FitsSigned 64 (secs * 1000) := by
    unfold FitsSigned at h ⊢
    omega
  exact if_pos hfit

theorem aux_arm (key value : StringForm) (h : validUtf8 key.value = true) :
    ArmWhen (key.Fits ∧ value.Fits) readAuxField (key.bytes ++ value.bytes) ()
      (RdbReader.insertAux key.value (auxValue value.value)) := by
  have hvalue : ArmWhen value.Fits (liftRead readString >>= fun value =>
      if validUtf8 key.value then StateAction.modify (RdbReader.insertAux key.value (auxValue value))
      else corruptData "AUX key is not valid UTF-8") value.bytes ()
      (RdbReader.insertAux key.value (auxValue value.value)) :=
    ArmWhen.read_modify readString_returns value.decodes (if_pos h)
  exact ArmWhen.bind_read readString_returns key.decodes hvalue

theorem selectDb_arm (db : LenForm) (h : db.value < 2 ^ 32) :
    ArmWhen True ValkeyRdb.selectDb db.bytes () fun r => { r with currentDb := db.value } :=
  ArmWhen.read_modify readLengthValue_returns db.decodesValue.when (if_pos h)

theorem expireTime_arm (secs : Int) (h : FitsSigned 32 secs) :
    ArmWhen True ValkeyRdb.expireTime (leBytes 4 (unsigned 32 secs)) () fun r =>
      { r with pendingExpiryMs := some (secs * 1000) } := by
  refine ArmWhen.read_modify readI32Le_returns (readI32Le_decodes h).when ?_
  rw [checkedMul64_seconds h]

theorem resizeDb_decodes (dbSize expiresSize : LenForm) :
    Decodes ValkeyRdb.resizeDb (dbSize.bytes ++ expiresSize.bytes) () :=
  dbSize.decodesValue.bind (expiresSize.decodesValue.map fun _ => ())

theorem skipSlotInfo_decodes (slotId slotSize expiresSize : LenForm) :
    Decodes skipSlotInfo (slotId.bytes ++ (slotSize.bytes ++ expiresSize.bytes)) () :=
  slotId.decodesValue.bind
    (slotSize.decodesValue.bind (expiresSize.decodesValue.map fun _ => ()))

theorem skipModuleAux_when (moduleId whenOpcode when : LenForm) (stream : ModuleStream) :
    DecodesWhen (∀ t ∈ stream.items, t.Fits) skipModuleAux
      (moduleId.bytes ++ (whenOpcode.bytes ++ (when.bytes ++ stream.bytes))) () :=
  moduleId.decodesValue.bind_when
    (whenOpcode.decodesValue.bind_when (when.decodesValue.bind_when stream.skipped))

theorem skipSlotImport_when (jobName : StringForm) (ranges : Counted (LenForm × LenForm)) :
    DecodesWhen (jobName.Fits ∧ ranges.items.length ≤ maxAllocBytes) skipSlotImport
      (jobName.bytes ++ ranges.bytes fun range => range.1.bytes ++ range.2.bytes) () := by
  have hranges := ranges.map (p := skipSlotRange) "slot import range count"
    (fun range _ => (skipSlotRange_decodes range).when) (fun _ => ())
  have himport : DecodesWhen _ skipSlotImport _ _ := jobName.decodes.bind hranges
  exact himport.congr (by simp [Counted.Fits])

theorem arm (o : Opcode) : ArmWhen o.Fits (opcodeArm o.byte) o.payload none o.effect := by
  cases o with
  | aux key value h => exact (aux_arm key value h).continues
  | selectDb db h => exact (selectDb_arm db h).continues
  | resizeDb dbSize expiresSize =>
    exact (ArmWhen.read resizeDb_returns (resizeDb_decodes dbSize expiresSize).when).continues
  | expireTimeMs ms h =>
    have harm : ArmWhen True ValkeyRdb.expireTimeMs (leBytes 8 (unsigned 64 ms)) () _ :=
      ArmWhen.read_modify readI64Le_returns (readI64Le_decodes h).when rfl
    exact harm.continues
  | expireTime secs h => exact (expireTime_arm secs h).continues
  | idle secs =>
    have harm : ArmWhen True ValkeyRdb.idle secs.bytes () _ :=
      ArmWhen.read_modify readLengthValue_returns secs.decodesValue.when rfl
    exact harm.continues
  | freq f =>
    have harm : ArmWhen True ValkeyRdb.freq [f] () _ :=
      ArmWhen.read_modify readU8_returns (readU8_decodes f).when rfl
    exact harm.continues
  | function2 payload =>
    have hskip : DecodesWhen payload.Fits skipFunction2 payload.bytes () :=
      payload.decodes.map fun _ => ()
    exact (ArmWhen.read (skips_return readString_returns) hskip).continues
  | moduleAux moduleId whenOpcode when stream =>
    exact (ArmWhen.read skipModuleAux_returns
      (skipModuleAux_when moduleId whenOpcode when stream)).continues
  | slotInfo slotId slotSize expiresSize =>
    exact (ArmWhen.read skipSlotInfo_returns
      (skipSlotInfo_decodes slotId slotSize expiresSize).when).continues
  | slotImport jobName ranges =>
    exact (ArmWhen.read skipSlotImport_returns (skipSlotImport_when jobName ranges)).continues

end Opcode

theorem ArmWhen.step {c : Prop} {byte : UInt8} {b : Bytes} {x : Option (Option RdbEntry)}
    {effect : RdbReader → RdbReader} (h : ArmWhen c (opcodeArm byte) b x effect) :
    (c → ∀ r rest, r.preambleByte = none → r.reader.inner = byte :: b ++ rest →
      opcodeStep r = (.ok x, effect (r.past (byte :: b) rest))) ∧
    (¬c → ∃ e, Terminal (.error e) ∧ ∀ r rest, r.preambleByte = none →
      r.reader.inner = byte :: b ++ rest → ∃ r', opcodeStep r = (.error e, r')) := by
  have hopcode : ∀ (r : RdbReader) rest, r.preambleByte = none →
      r.reader.inner = byte :: b ++ rest →
        readOpcode r = (.ok byte, r.past [byte] (b ++ rest)) := fun r rest hp hi =>
    readOpcode_cons hp hi
  constructor
  · intro hc r rest hp hi
    refine (run_bind_ok (hopcode r rest hp hi)).trans ?_
    rw [h.takes hc (r.past [byte] (b ++ rest)) rest rfl, past_past]
    rfl
  · intro hc
    obtain ⟨e, ht, he⟩ := h.fails hc
    refine ⟨e, ht, fun r rest hp hi => ?_⟩
    obtain ⟨r', hr⟩ := he (r.past [byte] (b ++ rest)) rest rfl
    exact ⟨r', (run_bind_ok (hopcode r rest hp hi)).trans hr⟩

end ValkeyRdb
