import ValkeyRdb.Crc64
import ValkeyRdb.Lib.ShiftRegister

/-!
# The checksum bit by bit

CRC-64 is a shift register with the reversed polynomial as its feedback. The table of
`crc64.rs` holds what the register does to a byte, so that the two agree on every input, and
what is known of such registers holds of the checksum.
-/

namespace ValkeyRdb

open ShiftRegister

/-- One byte, bit by bit: it is added to the low byte of the state, which then moves eight
places. -/
def serialByte (crc : BitVec 64) (byte : UInt8) : BitVec 64 := feed crcPoly 8 crc byte.toBitVec

def serialCrc64 (crc : BitVec 64) (data : Bytes) : BitVec 64 := data.foldl serialByte crc

example : serialCrc64 0 [0x31] = crc64 0 [0x31] := by decide +kernel

/-! ### The table -/

theorem and_one_eq_one (x : BitVec 32) : x &&& 1#32 = 1#32 ↔ x.getLsbD 0 = true := by
  rw [BitVec.and_one_eq_setWidth_ofBool_getLsbD]
  cases x.getLsbD 0 <;> decide

/-- A round of `make_table` takes in bit `j` of the index; in the register that bit has been
there from the start. -/
theorem step_tableRound (i : BitVec 32) (j : Nat) (crc : BitVec 64) :
    step crcPoly (crc ^^^ (i >>> j).setWidth 64) =
      tableRound i j crc ^^^ (i >>> (j + 1)).setWidth 64 := by
  have hbit : ((i >>> j) ^^^ crc.setWidth 32).getLsbD 0 =
      (crc ^^^ (i >>> j).setWidth 64).getLsbD 0 := by
    have hj : i.getLsbD j = true → j < 64 := fun h => by
      have hlt := BitVec.lt_of_getLsbD h
      omega
    simpa [Bool.xor_comm] using hj
  have hshift : (crc ^^^ (i >>> j).setWidth 64) >>> 1 =
      crc >>> 1 ^^^ (i >>> (j + 1)).setWidth 64 := by
    rw [BitVec.ushiftRight_xor_distrib, BitVec.shiftRight_add]
    congr 1
  unfold step tableRound
  simp only [and_one_eq_one, hbit, hshift]
  split
  · rw [BitVec.xor_assoc, BitVec.xor_assoc, BitVec.xor_comm crcPoly]
  · rfl

theorem steps_tableRounds (i : BitVec 32) (n : Nat) :
    steps crcPoly n (i.setWidth 64) =
      (List.range n).foldl (fun crc j => tableRound i j crc) 0 ^^^ (i >>> n).setWidth 64 := by
  induction n with
  | zero => simp [steps]
  | succ n ih =>
    rw [steps_add crcPoly n 1, ih, List.range_succ, List.foldl_append]
    exact step_tableRound i n _

theorem makeTable_eq (i : Fin 256) : makeTable i = steps crcPoly 8 (BitVec.ofNat 64 i.val) := by
  have hrounds := steps_tableRounds (BitVec.ofNat 32 i.val) 8
  have hi := i.isLt
  have hout : BitVec.ofNat 32 i.val >>> 8 = 0#32 := by
    apply BitVec.eq_of_toNat_eq
    rw [BitVec.toNat_ushiftRight, BitVec.toNat_ofNat, Nat.shiftRight_eq_div_pow]
    simp
    omega
  have hwide : (BitVec.ofNat 32 i.val).setWidth 64 = BitVec.ofNat 64 i.val := by
    apply BitVec.eq_of_toNat_eq
    simp
    omega
  rw [hout, hwide] at hrounds
  rw [hrounds]
  simp [makeTable]

theorem crcByte_serial (crc : BitVec 64) (byte : UInt8) : crcByte crc byte = serialByte crc byte := by
  have hmask : lowMask 64 8 = 0xFF#64 := by decide
  have hout : (byte.toBitVec.setWidth 64) >>> 8 = 0#64 := by
    apply BitVec.eq_of_toNat_eq
    have hb := byte.toNat_lt
    rw [BitVec.toNat_ushiftRight, Nat.shiftRight_eq_div_pow]
    simp
    omega
  have htable := steps_table crcPoly 8 (crc ^^^ byte.toBitVec.setWidth 64)
  rw [hmask, BitVec.ushiftRight_xor_distrib, hout, BitVec.xor_zero] at htable
  unfold crcByte serialByte feed
  rw [htable]
  simp only [makeTable_eq, BitVec.ofNat_toNat, BitVec.setWidth_eq]

/-- The checksum by table is the checksum bit by bit, and it can be taken part by part. -/
theorem crc64_eq_serialCrc64 (crc : BitVec 64) (data : Bytes) :
    crc64 crc data = serialCrc64 crc data ∧
      ∀ more, crc64 crc (data ++ more) = crc64 (crc64 crc data) more := by
  refine ⟨?_, crc64_append crc data⟩
  have hfun : crcByte = serialByte := funext fun crc => funext fun byte => crcByte_serial crc byte
  unfold crc64 serialCrc64
  rw [hfun]

/-! ### Damage within eight bytes -/

theorem crc64_register (crc : BitVec 64) (data : Bytes) :
    crc64 crc data = (data.map UInt8.toBitVec).foldl (feed crcPoly 8) crc := by
  unfold crc64
  rw [List.foldl_map]
  congr 1
  exact funext fun crc => funext fun byte => crcByte_serial crc byte

/-- Two strings of one length that differ, and only within eight bytes in a row, have
different checksums. -/
theorem crc64_detects_burst (crc : BitVec 64) (a b : Bytes) (k : Nat)
    (hlen : a.length = b.length) (hne : a ≠ b)
    (hout : ∀ i, i < k ∨ k + 8 ≤ i → a[i]? = b[i]?) : crc64 crc a ≠ crc64 crc b := by
  intro heq
  have hpre : a.take k = b.take k := by
    apply List.ext_getElem?
    intro i
    by_cases hi : i < k
    · rw [List.getElem?_take_of_lt hi, List.getElem?_take_of_lt hi, hout i (Or.inl hi)]
    · simp [hi]
  have hpost : (a.drop k).drop 8 = (b.drop k).drop 8 := by
    apply List.ext_getElem?
    intro i
    simp only [List.getElem?_drop]
    exact hout _ (Or.inr (by omega))
  have hsplit (x : Bytes) : x = x.take k ++ (x.drop k).take 8 ++ (x.drop k).drop 8 := by
    rw [List.append_assoc, List.take_append_drop, List.take_append_drop]
  have hmid : (a.drop k).take 8 = (b.drop k).take 8 := by
    rw [crc64_register, crc64_register, hsplit a, hsplit b, hpre, hpost] at heq
    simp only [List.map_append] at heq
    have hmap := foldl_feed_window crcPoly (by decide) crc _ _ _ _ (by simp [hlen])
      (by simp; omega) heq
    exact List.map_injective_iff.mpr (fun x y h => UInt8.toBitVec_inj.mp h) hmap
  exact hne (by rw [hsplit a, hsplit b, hpre, hmid, hpost])

theorem crc64_detects_burst_bit : crc64 0 [1, 2, 3] ≠ crc64 0 [1, 6, 3] :=
  crc64_detects_burst 0 [1, 2, 3] [1, 6, 3] 1 rfl (by decide) (by
    rintro i (hi | hi)
    · obtain rfl : i = 0 := by omega
      rfl
    · simp [List.getElem?_eq_none (by simp; omega : [(1 : UInt8), 2, 3].length ≤ i),
        List.getElem?_eq_none (by simp; omega : [(1 : UInt8), 6, 3].length ≤ i)])

end ValkeyRdb
