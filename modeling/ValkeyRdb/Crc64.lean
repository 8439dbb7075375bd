import ValkeyRdb.Types

/-!
# CRC-64 of RDB files (crc64.rs)
-/

namespace ValkeyRdb

/-- crc64.rs:14 -/
def crcPoly : BitVec 64 := 0x95ac9329ac4bc9b5#64

/-- One round of the inner loop of `make_table`, for bit `j` of the index `i`. -/
def tableRound (i : BitVec 32) (j : Nat) (crc : BitVec 64) : BitVec 64 :=
  if ((i >>> j) ^^^ crc.setWidth 32) &&& 1#32 = 1#32 then (crc >>> 1) ^^^ crcPoly else crc >>> 1

/-- The lookup table, entry by entry (crc64.rs:17-36). -/
def makeTable (i : Fin 256) : BitVec 64 :=
  (List.range 8).foldl (fun crc j => tableRound (BitVec.ofNat 32 i.val) j crc) 0

/-- `TABLE[idx] ^ (crc >> 8)` for the next byte; the mask keeps the index in the table. -/
def crcByte (crc : BitVec 64) (byte : UInt8) : BitVec 64 :=
  let idx := (crc ^^^ byte.toBitVec.setWidth 64) &&& 0xFF#64
  have hidx : idx.toNat < 256 := by
    have h : idx.toNat ≤ (0xFF#64).toNat := by
      rw [BitVec.toNat_and]
      exact Nat.and_le_right
    exact Nat.lt_of_le_of_lt h (by decide)
  makeTable ⟨idx.toNat, hidx⟩ ^^^ (crc >>> 8)

/-- crc64.rs:41 -/
def crc64 (crc : BitVec 64) (data : Bytes) : BitVec 64 := data.foldl crcByte crc

theorem crc64_append (crc : BitVec 64) (a b : Bytes) :
    crc64 crc (a ++ b) = crc64 (crc64 crc a) b := List.foldl_append ..

-- "123456789"
example : crc64 0 [49, 50, 51, 52, 53, 54, 55, 56, 57] = 0xe9c6d914c4b8d9ca#64 := by
  decide +kernel

end ValkeyRdb
