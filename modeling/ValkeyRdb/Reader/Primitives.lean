import ValkeyRdb.Crc64
import ValkeyRdb.Lzf

/-!
# Reading primitives of the RDB reader (reader.rs:46-375)

A `CrcReader` is the unread input with the CRC-64 of what was read; everything below
reads through it, so the laws of `ReadAction` hold of every reader in this
development.
-/

namespace ValkeyRdb

open ReadAction (lift readExact)

/-- The fault of a read past the end of the input. -/
abbrev eofFault : Fault := .error (.io .unexpectedEof)

/-- reader.rs:63-66 -/
abbrev CrcReader := Source (BitVec 64)

/-- The running CRC-64. -/
abbrev CrcReader.crc (r : CrcReader) : BitVec 64 := r.digest

/-- Methods of `RdbReader` that touch its `CrcReader` only. -/
abbrev ReadM := ReadAction crcByte eofFault

/-- A read action returns a value with `Q` or an `Err` about its input. -/
abbrev ReadReturns {α : Type} (p : ReadM α) (Q : α → Prop) : Prop :=
  ReadAction.Meets Fault.IsInputError p Q

/-- Cap on a single allocation (reader.rs:52). -/
def maxAllocBytes : Nat := 512 * 1024 * 1024

/-- reader.rs:56-61 -/
inductive LenResult where
  | len (n : Nat)
  | special (encType : UInt8)
  deriving DecidableEq

/-- reader.rs:199 -/
def readU8 : ReadM UInt8 := do
  let buf ← readExact 1
  lift (index buf 0)

/-- reader.rs:205 -/
def readI32Le : ReadM Int := do
  let buf ← readExact 4
  pure (signed 32 (leVal buf))

/-- reader.rs:211 -/
def readI64Le : ReadM Int := do
  let buf ← readExact 8
  pure (signed 64 (leVal buf))

/-- reader.rs:217 -/
def readExactVec (len : Nat) : ReadM Bytes := readExact len

/-- reader.rs:226-234 -/
def lenToUsize (len : Nat) (ctx : String) : Res Nat :=
  if len > maxAllocBytes then
    corrupt s!"{ctx}: length {len} exceeds {maxAllocBytes} byte limit"
  else .ok len

/-- reader.rs:240-283 -/
def readLength : ReadM LenResult := do
  let first ← readU8
  let top2 := (first &&& 0xC0) >>> 6
  if top2 = rdb6bitlen then pure (.len (first &&& 0x3F).toNat)
  else if top2 = rdb14bitlen then
    let second ← readU8
    pure (.len (((first &&& 0x3F).toNat <<< 8) ||| second.toNat))
  else if top2 = 2 then
    if first = rdb32bitlen then
      let buf ← readExact 4
      pure (.len (beVal buf))
    else if first = rdb64bitlen then
      let buf ← readExact 8
      pure (.len (beVal buf))
    else lift (corrupt s!"unknown length encoding byte: 0x{hexText 2 first.toNat}")
  else if top2 = rdbEncval then pure (.special (first &&& 0x3F))
  else lift (.error .panic)

/-- A plain length; a special encoding is an error (reader.rs:287-294). -/
def readLengthValue : ReadM Nat := do
  match ← readLength with
  | .len len => pure len
  | .special _ => lift (corrupt "expected plain length, got special encoding")

/-- A count or size behind its cap, as the callers of `len_to_usize` read it. -/
def readCount (ctx : String) : ReadM Nat := do
  let len ← readLengthValue
  lift (lenToUsize len ctx)

/-- The LZF form of a string (reader.rs:321-333). -/
def readLzfString : ReadM Bytes := do
  let compressedLen ← readCount "LZF compressed length"
  let uncompressedLen ← readCount "LZF uncompressed length"
  let compressed ← readExactVec compressedLen
  lift (Lzf.decompress compressed uncompressedLen)

/-- An integer stored as a string, in `w` little-endian bytes (reader.rs:306-320). -/
def readIntString (w : Nat) : ReadM Bytes := do
  let buf ← readExact w
  pure (intText (signed (8 * w) (leVal buf)))

/-- reader.rs:300-340 -/
def readString : ReadM Bytes := do
  match ← readLength with
  | .len len =>
    let len ← lift (lenToUsize len "string")
    readExactVec len
  | .special encType =>
    match encType with
    | rdbEncInt8 => readIntString 1
    | rdbEncInt16 => readIntString 2
    | rdbEncInt32 => readIntString 4
    | rdbEncLzf => readLzfString
    | _ => lift (corrupt s!"unknown string encoding sub-type: {encType.toNat}")

/-- The ASCII form of a double, after its bytes were read (reader.rs:353-360). -/
def parseDoubleText (buf : Bytes) : Res F64 :=
  if validUtf8 buf then
    match parseF64 buf with
    | some x => .ok x
    | none => corrupt s!"invalid double string: {utf8Text buf}"
  else corrupt "invalid UTF-8 in double value"

/-- reader.rs:345-362 -/
def readDoubleValue : ReadM F64 := do
  let len ← readU8
  if len = 255 then pure F64.negInfinity
  else if len = 254 then pure F64.infinity
  else if len = 253 then pure F64.nan
  else
    let buf ← readExactVec len.toNat
    lift (parseDoubleText buf)

/-! ### Every read returns -/

theorem readExact_returns (n : Nat) :
    ReadReturns (readExact n) (fun b => b.length = n) :=
  ReadAction.meets_readExact trivial n

theorem readU8_returns : ReadReturns readU8 (fun _ => True) :=
  (readExact_returns 1).bind fun buf hbuf =>
    ReadAction.Meets.lift (by rw [index_lt (show 0 < buf.length by omega)]; trivial)

theorem readI32Le_returns : ReadReturns readI32Le (FitsSigned 32) :=
  (readExact_returns 4).bind fun _ _ => ReadAction.Meets.pure (signed_fits (by decide) _)

theorem readI64Le_returns : ReadReturns readI64Le (FitsSigned 64) :=
  (readExact_returns 8).bind fun _ _ => ReadAction.Meets.pure (signed_fits (by decide) _)

theorem lenToUsize_returns (len : Nat) (ctx : String) :
    Returns (lenToUsize len ctx) (fun n => n = len ∧ n ≤ maxAllocBytes) :=
  ExceptMeets.ite (fun _ => returns_corrupt) fun h => ⟨rfl, by omega⟩

theorem returnsIte {α : Type} {c : Prop} [Decidable c] {p q : ReadM α} {Q : α → Prop}
    (hp : c → ReadReturns p Q) (hq : ¬c → ReadReturns q Q) :
    ReadReturns (if c then p else q) Q := by
  split
  · exact hp (by assumption)
  · exact hq (by assumption)

theorem corrupt_returns {α : Type} {msg : String} {Q : α → Prop} :
    ReadReturns (lift (corrupt msg)) Q := ReadAction.Meets.lift returns_corrupt

/-- A length fits 64 bits and a special sub-type six. -/
def LenResult.InRange : LenResult → Prop
  | .len n => n < 2 ^ 64
  | .special e => e < 64

theorem low6 (b : UInt8) : (b &&& 0x3F).toNat < 64 := by
  have h : ∀ n < 256, (UInt8.ofNat n &&& 0x3F).toNat < 64 := by decide +kernel
  have hb := h b.toNat b.toNat_lt
  rwa [UInt8.ofNat_toNat] at hb

theorem top2_cases (b : UInt8) : (b &&& 0xC0) >>> 6 = 0 ∨ (b &&& 0xC0) >>> 6 = 1 ∨
    (b &&& 0xC0) >>> 6 = 2 ∨ (b &&& 0xC0) >>> 6 = 3 := by
  have h : ∀ n < 256, (UInt8.ofNat n &&& 0xC0) >>> 6 = 0 ∨ (UInt8.ofNat n &&& 0xC0) >>> 6 = 1 ∨
      (UInt8.ofNat n &&& 0xC0) >>> 6 = 2 ∨ (UInt8.ofNat n &&& 0xC0) >>> 6 = 3 := by
    decide +kernel
  have hb := h b.toNat b.toNat_lt
  rwa [UInt8.ofNat_toNat] at hb

theorem readLength_returns : ReadReturns readLength LenResult.InRange := by
  refine readU8_returns.bind fun first _ => ?_
  have hlow := low6 first
  refine returnsIte (fun _ => ReadAction.Meets.pure ?_) fun h0 => ?_
  · change (first &&& 0x3F).toNat < 2 ^ 64
    omega
  refine returnsIte (fun _ => readU8_returns.bind fun second _ => ReadAction.Meets.pure ?_)
    fun h1 => ?_
  · change ((first &&& 0x3F).toNat <<< 8) ||| second.toNat < 2 ^ 64
    have hs := second.toNat_lt
    rw [shift_or_byte]
    omega
  refine returnsIte (fun _ => ?_) fun h2 => ?_
  · refine returnsIte (fun _ => (readExact_returns 4).bind fun buf hbuf => ?_) fun _ => ?_
    · have hlt := beVal_lt buf
      rw [hbuf] at hlt
      exact ReadAction.Meets.pure (lt_of_lt_of_le hlt (by decide))
    refine returnsIte (fun _ => (readExact_returns 8).bind fun buf hbuf => ?_)
      fun _ => corrupt_returns
    have hlt := beVal_lt buf
    rw [hbuf] at hlt
    exact ReadAction.Meets.pure (lt_of_lt_of_le hlt (by decide))
  refine returnsIte (fun _ => ReadAction.Meets.pure ?_) fun h3 => ?_
  · exact UInt8.lt_iff_toNat_lt.mpr hlow
  rcases top2_cases first with h | h | h | h <;> contradiction

theorem readLengthValue_returns : ReadReturns readLengthValue (fun n => n < 2 ^ 64) := by
  refine readLength_returns.bind fun r hr => ?_
  cases r with
  | len n => exact ReadAction.Meets.pure hr
  | special e => exact corrupt_returns

theorem readCount_returns (ctx : String) :
    ReadReturns (readCount ctx) (fun n => n ≤ maxAllocBytes) :=
  readLengthValue_returns.bind fun len _ =>
    ReadAction.Meets.lift ((lenToUsize_returns len ctx).mono fun _ h => h.2)

theorem readLzfString_returns :
    ReadReturns readLzfString (fun s => s.length ≤ maxAllocBytes) := by
  refine (readCount_returns _).bind fun compressedLen hc => ?_
  refine (readCount_returns _).bind fun uncompressedLen hu => ?_
  refine (readExact_returns compressedLen).bind fun compressed hlen => ?_
  have h63 : maxAllocBytes < 2 ^ 63 := by decide
  refine ReadAction.Meets.lift ?_
  refine (Lzf.decompress_returns (by omega) (by omega)).mono fun out hout => ?_
  omega

theorem natText_length_le (n : Nat) (h : n < 2 ^ 64) : (natText n).length ≤ 20 := by
  rw [natText, List.length_map]
  have hlt : n < 10 ^ 20 := lt_of_lt_of_le h (by decide)
  exact (Nat.length_toDigits_le_iff (by decide) (by decide)).mpr hlt

theorem intText_length_le {i : Int} (h : i.natAbs < 2 ^ 64) : (intText i).length ≤ 21 := by
  have hn := natText_length_le i.natAbs h
  rw [intText]
  split
  · rw [List.length_cons]
    omega
  · omega

theorem readIntString_returns {w : Nat} (hw : 0 < w) (hw8 : w ≤ 8) :
    ReadReturns (readIntString w) (fun s => s.length ≤ maxAllocBytes) := by
  refine (readExact_returns w).bind fun buf _ => ReadAction.Meets.pure ?_
  have hfit := signed_fits (show 0 < 8 * w by omega) (leVal buf)
  have hpow : (2 : Int) ^ (8 * w - 1) ≤ 2 ^ 63 := by
    exact_mod_cast Nat.pow_le_pow_right (by decide) (show 8 * w - 1 ≤ 63 by omega)
  have habs : (signed (8 * w) (leVal buf)).natAbs < 2 ^ 64 := by
    obtain ⟨h1, h2⟩ := hfit
    omega
  have hlen := intText_length_le habs
  exact le_trans hlen (by decide)

/-- A string is never longer than the allocation cap, whatever its form. -/
theorem readString_returns : ReadReturns readString (fun s => s.length ≤ maxAllocBytes) := by
  refine readLength_returns.bind fun r hr => ?_
  cases r with
  | len n =>
    refine (ReadAction.Meets.lift (lenToUsize_returns n "string")).bind fun len hlen => ?_
    exact (readExact_returns len).mono fun b hb => by omega
  | special e =>
    dsimp only
    split
    · exact readIntString_returns (by decide) (by decide)
    · exact readIntString_returns (by decide) (by decide)
    · exact readIntString_returns (by decide) (by decide)
    · exact readLzfString_returns
    · exact corrupt_returns

theorem parseDoubleText_returns (buf : Bytes) : Returns (parseDoubleText buf) (fun _ => True) := by
  refine ExceptMeets.ite (fun _ => ?_) fun _ => returns_corrupt
  cases parseF64 buf with
  | some x => trivial
  | none => exact returns_corrupt

theorem readDoubleValue_returns : ReadReturns readDoubleValue (fun _ => True) := by
  refine readU8_returns.bind fun len _ => ?_
  refine returnsIte (fun _ => ReadAction.Meets.pure trivial) fun _ => ?_
  refine returnsIte (fun _ => ReadAction.Meets.pure trivial) fun _ => ?_
  refine returnsIte (fun _ => ReadAction.Meets.pure trivial) fun _ => ?_
  exact (readExact_returns len.toNat).bind fun buf _ =>
    ReadAction.Meets.lift (parseDoubleText_returns buf)

/-! ### Every read that returns has read something -/

theorem readU8_consumes : ReadAction.Consumes readU8 :=
  (ReadAction.consumes_readExact (by decide)).bind _

theorem readLength_consumes : ReadAction.Consumes readLength := readU8_consumes.bind _

theorem readLengthValue_consumes : ReadAction.Consumes readLengthValue :=
  readLength_consumes.bind _

theorem readString_consumes : ReadAction.Consumes readString := readLength_consumes.bind _

end ValkeyRdb
