import ValkeyRdb.Types

/-!
# Entries of compact encodings (compact.rs)

Shared by listpacks and ziplists.
-/

namespace ValkeyRdb

/-- compact.rs:11-16 -/
inductive CompactEntry where
  | int (n : Int)
  | str (s : Bytes)
  deriving DecidableEq

/-- compact.rs:20 -/
def CompactEntry.intoBytes : CompactEntry → Bytes
  | .str s => s
  | .int n => intText n

/-- `n as f64` for an `i64`. -/
def f64OfInt (n : Int) : F64 := F64.ofRat n

/-- The escapes of Rust's `{:?}` for a string. Past ASCII every character stands for itself
here; Rust escapes those that its tables call unprintable or combining. -/
def debugChar (c : Char) : String :=
  if c.toNat = 34 then "\\\"" else if c.toNat = 92 then "\\\\"
  else if c.toNat = 0 then "\\0" else if c = '\t' then "\\t" else if c = '\n' then "\\n"
  else if c = '\r' then "\\r"
  else if c.toNat < 16 then "\\u\x7b" ++ hexText 1 c.toNat ++ "\x7d"
  else if c.toNat < 32 ∨ c.toNat = 127 then "\\u\x7b" ++ hexText 2 c.toNat ++ "\x7d"
  else c.toString

/-- A string as `{:?}` prints it. -/
def debugText (s : Bytes) : String :=
  "\"" ++ String.join ((utf8Text s).toList.map debugChar) ++ "\""

/-- compact.rs:29-44 -/
def CompactEntry.toF64 : CompactEntry → Res F64
  | .int n => .ok (f64OfInt n)
  | .str s =>
    if validUtf8 s then
      match parseF64 s with
      | some x => .ok x
      | none => corrupt s!"compact entry score is not a valid float: {debugText s}"
    else corrupt "compact entry score is not valid UTF-8"

/-- `((raw << shift) as i64) >> shift` with `shift = 64 - bits` (compact.rs:48-51). -/
def signExtend (raw bits : Nat) : Int :=
  let shift := 64 - bits
  (((BitVec.ofNat 64 raw) <<< shift).sshiftRight shift).toInt

/-- compact.rs:59-64 -/
def readI24Le (buf : Bytes) (offset : Nat) : Res Int := do
  let b0 ← index buf offset
  let b1 ← index buf (← add64 offset 1)
  let b2 ← index buf (← add64 offset 2)
  let raw := b0.toNat ||| (b1.toNat <<< 8) ||| (b2.toNat <<< 16)
  pure (signExtend raw 24)

/-- compact.rs:84-88 -/
def checkedAdd (a b : Nat) (format ctx : String) : Res Nat :=
  if a + b < 2 ^ 64 then .ok (a + b) else corrupt s!"{format} {ctx}: length overflow"

/-- compact.rs:91-99 -/
def ensureLen (buf : Bytes) (need : Nat) (format ctx : String) : Res Unit :=
  if buf.length < need then
    corrupt s!"{format} {ctx}: need {need} bytes, have {buf.length}"
  else .ok ()

theorem checkedAdd_eq {a b : Nat} {format ctx : String} (h : a + b < 2 ^ 64) :
    checkedAdd a b format ctx = .ok (a + b) := if_pos h

theorem ensureLen_eq {buf : Bytes} {need : Nat} {format ctx : String} (h : need ≤ buf.length) :
    ensureLen buf need format ctx = .ok () := if_neg (by omega)

theorem checkedAdd_returns (a b : Nat) (format ctx : String) :
    Returns (checkedAdd a b format ctx) (fun n => n = a + b ∧ n < 2 ^ 64) := by
  rw [checkedAdd]
  split
  · exact ⟨rfl, by assumption⟩
  · exact returns_corrupt

theorem ensureLen_returns (buf : Bytes) (need : Nat) (format ctx : String) :
    Returns (ensureLen buf need format ctx) (fun _ => need ≤ buf.length) := by
  rw [ensureLen]
  split
  · exact returns_corrupt
  · exact Nat.le_of_not_lt (by assumption)

theorem signExtend_eq {raw bits : Nat} (hb64 : bits ≤ 64) (h : raw < 2 ^ bits) :
    signExtend raw bits = signed bits raw := by
  obtain ⟨s, hs⟩ : ∃ s, 64 = bits + s := ⟨64 - bits, by omega⟩
  have hshift : 64 - bits = s := by omega
  have hpow : (2 : Nat) ^ 64 = 2 ^ bits * 2 ^ s := by rw [← pow_add, ← hs]
  have hpos : 0 < 2 ^ s := Nat.two_pow_pos s
  have hlt : raw * 2 ^ s < 2 ^ 64 := by
    rw [hpow]
    exact Nat.mul_lt_mul_of_pos_right h hpos
  have hnat : ((BitVec.ofNat 64 raw) <<< s).toNat = raw * 2 ^ s := by
    have hraw : raw < 2 ^ 64 := lt_of_le_of_lt (Nat.le_mul_of_pos_right raw hpos) hlt
    rw [BitVec.toNat_shiftLeft, BitVec.toNat_ofNat, Nat.mod_eq_of_lt hraw, Nat.shiftLeft_eq,
      Nat.mod_eq_of_lt hlt]
  have hint : ((BitVec.ofNat 64 raw) <<< s).toInt
      = (if 2 * raw < 2 ^ bits then (raw : Int) else (raw : Int) - 2 ^ bits) * 2 ^ s := by
    rw [BitVec.toInt_eq_toNat_cond, hnat, hpow]
    have hiff : 2 * (raw * 2 ^ s) < 2 ^ bits * 2 ^ s ↔ 2 * raw < 2 ^ bits := by
      rw [← Nat.mul_assoc]
      exact Nat.mul_lt_mul_right hpos
    by_cases hc : 2 * raw < 2 ^ bits
    · rw [if_pos (hiff.mpr hc), if_pos hc]
      push_cast
      ring
    · rw [if_neg (fun hh => hc (hiff.mp hh)), if_neg hc]
      push_cast
      ring
  rw [signExtend, hshift, BitVec.toInt_sshiftRight, hint, signed_eq h, Int.shiftRight_eq_div_pow]
  push_cast
  exact Int.mul_ediv_cancel _ (by positivity)

/-! ### Fixed and counted fields

Both decoders read their strings and little-endian integers the same way. -/

/-- A string entry of `len` bytes after a header of `hdr` bytes. -/
def stringEntry (buf : Bytes) (hdr len : Nat) (format ctx : String) : Res (CompactEntry × Nat) := do
  let total ← checkedAdd hdr len format ctx
  ensureLen buf total format ctx
  let s ← slice buf hdr total
  pure (.str s, total)

/-- A signed little-endian integer entry of `w` bytes after the encoding byte. -/
def intEntry (buf : Bytes) (w : Nat) (format ctx : String) : Res (CompactEntry × Nat) := do
  ensureLen buf (w + 1) format ctx
  let b ← slice buf 1 (w + 1)
  pure (.int (signed (8 * w) (leVal b)), w + 1)

/-- The 24-bit form, which goes through `read_i24_le`. -/
def int24Entry (buf : Bytes) (format ctx : String) : Res (CompactEntry × Nat) := do
  ensureLen buf 4 format ctx
  pure (.int (← readI24Le buf 1), 4)

/-- What an entry decoder promises about the bytes it took. -/
def TakesFrom (buf : Bytes) (r : CompactEntry × Nat) : Prop := 1 ≤ r.2 ∧ r.2 ≤ buf.length

theorem stringEntry_returns {buf : Bytes} {hdr len : Nat} {format ctx : String} (h : 1 ≤ hdr) :
    Returns (stringEntry buf hdr len format ctx) (TakesFrom buf) := by
  refine (checkedAdd_returns hdr len format ctx).bind fun total ht => ?_
  refine (ensureLen_returns buf total format ctx).bind fun _ hl => ?_
  rw [slice_eq ⟨by omega, hl⟩]
  exact ⟨by dsimp only; omega, hl⟩

theorem intEntry_returns (buf : Bytes) (w : Nat) (format ctx : String) :
    Returns (intEntry buf w format ctx) (TakesFrom buf) := by
  refine (ensureLen_returns buf (w + 1) format ctx).bind fun _ hl => ?_
  rw [slice_eq ⟨by omega, hl⟩]
  exact ⟨by dsimp only; omega, hl⟩

theorem readI24Le_eq {buf : Bytes} {b0 b1 b2 : UInt8} {offset : Nat} (h64 : offset + 2 < 2 ^ 64)
    (h0 : buf[offset]? = some b0) (h1 : buf[offset + 1]? = some b1)
    (h2 : buf[offset + 2]? = some b2) :
    readI24Le buf offset
      = .ok (signExtend (b0.toNat ||| (b1.toNat <<< 8) ||| (b2.toNat <<< 16)) 24) := by
  rw [readI24Le, index_eq h0, add64_eq (by omega), add64_eq (by omega)]
  simp only [bind, Except.bind, index_eq h1, index_eq h2]
  rfl

/-! ### Fields that were written -/

theorem stringEntry_form (hdr s rest : Bytes) (format ctx : String)
    (h : hdr.length + s.length < 2 ^ 64) :
    stringEntry (hdr ++ s ++ rest) hdr.length s.length format ctx =
      .ok (.str s, (hdr ++ s).length) := by
  have hlen : hdr.length + s.length ≤ (hdr ++ s ++ rest).length := by
    simp only [List.length_append]
    omega
  rw [stringEntry, checkedAdd_eq h, ok_bind, ensureLen_eq hlen, ok_bind, List.append_assoc,
    slice_append hdr s rest rfl, ok_bind, List.length_append]
  rfl

theorem intEntry_form {w : Nat} {i : Int} {b : UInt8} {format ctx : String} (hw : 0 < w)
    (h : FitsSigned (8 * w) i) (rest : Bytes) :
    intEntry (b :: leBytes w (unsigned (8 * w) i) ++ rest) w format ctx =
      .ok (.int i, (b :: leBytes w (unsigned (8 * w) i)).length) := by
  have hlt : unsigned (8 * w) i < 256 ^ w := by
    have hpow : (256 : Nat) ^ w = 2 ^ (8 * w) := by rw [Nat.pow_mul]
    rw [hpow]
    exact unsigned_lt _ _
  have hslice : slice (b :: leBytes w (unsigned (8 * w) i) ++ rest) 1 (w + 1) =
      .ok (leBytes w (unsigned (8 * w) i)) := by
    have hmid := slice_append [b] (leBytes w (unsigned (8 * w) i)) rest (n := w + 1)
      (by simp; omega)
    simpa using hmid
  rw [intEntry, ensureLen_eq (by simp), ok_bind, hslice, ok_bind,
    leVal_leBytes_of_lt hlt, signed_unsigned (by omega) h]
  simp [pure, Except.pure]

theorem int24Entry_form {i : Int} {b : UInt8} {format ctx : String} (h : FitsSigned 24 i)
    (rest : Bytes) :
    int24Entry (b :: leBytes 3 (unsigned 24 i) ++ rest) format ctx =
      .ok (.int i, (b :: leBytes 3 (unsigned 24 i)).length) := by
  have hlt := unsigned_lt 24 i
  generalize hn : unsigned 24 i = n at hlt
  have hraw : (UInt8.ofNat n).toNat ||| ((UInt8.ofNat (n / 256)).toNat <<< 8) |||
      ((UInt8.ofNat (n / 256 / 256)).toNat <<< 16) = n := by
    simp only [UInt8.toNat_ofNat', Nat.shiftLeft_eq]
    have h8 := (Nat.two_pow_add_eq_or_of_lt (i := 8) (a := n / 256 % 256) (b := n % 256)
      (by omega))
    have h16 := (Nat.two_pow_add_eq_or_of_lt (i := 16) (a := n / 256 / 256 % 256)
      (b := n % 65536) (by omega))
    have hmod : n % 65536 = 2 ^ 8 * (n / 256 % 256) + n % 256 := by omega
    rw [Nat.or_comm (n % 256), Nat.mul_comm, ← h8, ← hmod, Nat.or_comm,
      Nat.mul_comm (n / 256 / 256 % 256), ← h16]
    omega
  have hread : readI24Le (b :: leBytes 3 n ++ rest) 1 =
      .ok (signExtend ((UInt8.ofNat n).toNat ||| ((UInt8.ofNat (n / 256)).toNat <<< 8) |||
        ((UInt8.ofNat (n / 256 / 256)).toNat <<< 16)) 24) :=
    readI24Le_eq (by decide) rfl rfl rfl
  rw [int24Entry, ensureLen_eq (by simp), ok_bind, hread, ok_bind, hraw,
    signExtend_eq (by decide) hlt, ← hn, signed_unsigned (by decide) h]
  rfl

theorem int24Entry_returns (buf : Bytes) (format ctx : String) :
    Returns (int24Entry buf format ctx) (TakesFrom buf) := by
  refine (ensureLen_returns buf 4 format ctx).bind fun _ hl => ?_
  rw [readI24Le_eq (by decide) (List.getElem?_eq_getElem (by omega))
    (List.getElem?_eq_getElem (by omega)) (List.getElem?_eq_getElem (by omega))]
  exact ⟨by dsimp only; omega, hl⟩

end ValkeyRdb
