import ValkeyRdb.Format.Strings

/-!
# Every form of a length and of a string

The two top bits of the first byte select the form. One value of them is reserved but for
two bytes, another introduces the sub-types of strings, of which four exist; the reader
refuses all the rest.
-/

namespace ValkeyRdb

open ReadAction (Decodes FailsWith Drains lift)

/-! ### Forms that do not exist -/

theorem reserved_top2 : ∀ n < 256, 0x80 ≤ UInt8.ofNat n → UInt8.ofNat n < 0xC0 →
    (UInt8.ofNat n &&& 0xC0) >>> 6 = 2 := by decide +kernel

/-- A first byte `10xxxxxx` is a length of 32 or 64 bits or nothing. -/
theorem readLength_reserved {b : UInt8} (hlo : 0x80 ≤ b) (hhi : b < 0xC0) (h32 : b ≠ rdb32bitlen)
    (h64 : b ≠ rdb64bitlen) : ∃ msg, FailsWith readLength [b] (.error (.corruptData msg)) := by
  have htop := reserved_top2 b.toNat b.toNat_lt
  rw [UInt8.ofNat_toNat] at htop
  refine ⟨s!"unknown length encoding byte: 0x{hexText 2 b.toNat}", fun r d => ?_⟩
  rw [readLength, ReadAction.run_bind_ok ((readU8_decodes b).run r d)]
  dsimp only
  rw [htop hlo hhi, if_neg (by decide), if_neg (by decide), if_pos rfl, if_neg h32, if_neg h64]
  rfl

theorem readLengthValue_special {e : Nat} (h : e < 64) :
    ∃ msg, FailsWith readLengthValue [UInt8.ofNat (192 + e)] (.error (.corruptData msg)) := by
  refine ⟨"expected plain length, got special encoding", fun r d => ?_⟩
  rw [readLengthValue, ReadAction.run_bind_ok ((readLength_special h).run r d)]
  rfl

theorem sub_type : ∀ e < 64, 4 ≤ e → (UInt8.ofNat (192 + e) &&& 0x3F) ≠ rdbEncInt8 ∧
    (UInt8.ofNat (192 + e) &&& 0x3F) ≠ rdbEncInt16 ∧
    (UInt8.ofNat (192 + e) &&& 0x3F) ≠ rdbEncInt32 ∧
    (UInt8.ofNat (192 + e) &&& 0x3F) ≠ rdbEncLzf := by decide +kernel

theorem readString_subType {e : Nat} (h4 : 4 ≤ e) (h : e < 64) :
    ∃ msg, FailsWith readString [UInt8.ofNat (192 + e)] (.error (.corruptData msg)) := by
  obtain ⟨h8, h16, h32, hlzf⟩ := sub_type e h h4
  refine ⟨s!"unknown string encoding sub-type: {(UInt8.ofNat (192 + e) &&& 0x3F).toNat}",
    fun r d => ?_⟩
  rw [readString, ReadAction.run_bind_ok ((readLength_special h).run r d)]
  generalize UInt8.ofNat (192 + e) &&& 0x3F = encType at *
  dsimp only
  split
  · exact absurd rfl h8
  · exact absurd rfl h16
  · exact absurd rfl h32
  · exact absurd rfl hlzf
  · rfl

/-! ### The LZF form -/

/-- What the two lengths promise is read, and the result is that of the decompressor,
whatever the compressed bytes. -/
theorem readString_lzf (cf uf : LenForm) (compressed : Bytes) (hc : cf.value = compressed.length)
    (hcap : compressed.length ≤ maxAllocBytes) (hu : uf.value ≤ maxAllocBytes) :
    Drains readString (0xC3 :: (cf.bytes ++ (uf.bytes ++ compressed)))
      (Lzf.decompress compressed uf.value) := by
  have hclen := (cf.decodesCount "LZF compressed length").decodes (by rw [hc]; exact hcap)
  rw [hc] at hclen
  have hulen := (uf.decodesCount "LZF uncompressed length").decodes hu
  have hdata : Decodes (readExactVec compressed.length) compressed compressed :=
    ReadAction.decodes_readExact compressed
  have hend := hdata.bind_drains (f := fun c => lift (Lzf.decompress c uf.value)) (Drains.lift _)
  rw [List.append_nil] at hend
  exact (readLength_special (e := 3) (by decide)).bind_drains
    (hclen.bind_drains (hulen.bind_drains hend))

/-! ### All forms -/

/-- Every form is read to its value, with the rest of the input untouched, and what is not
a form is refused. -/
theorem readString_forms :
    (∀ (len : LenForm) (s rest : Bytes) (crc : BitVec 64), len.value = s.length →
      s.length ≤ 512 * 1024 * 1024 →
      readString.run ⟨len.bytes ++ s ++ rest, crc⟩ =
        (.ok s, ⟨rest, crc64 crc (len.bytes ++ s)⟩)) ∧
    (∀ (i : Int) (rest : Bytes) (crc : BitVec 64),
      (FitsSigned 8 i → readString.run ⟨0xC0 :: leBytes 1 (unsigned 8 i) ++ rest, crc⟩ =
        (.ok (intText i), ⟨rest, crc64 crc (0xC0 :: leBytes 1 (unsigned 8 i))⟩)) ∧
      (FitsSigned 16 i → readString.run ⟨0xC1 :: leBytes 2 (unsigned 16 i) ++ rest, crc⟩ =
        (.ok (intText i), ⟨rest, crc64 crc (0xC1 :: leBytes 2 (unsigned 16 i))⟩)) ∧
      (FitsSigned 32 i → readString.run ⟨0xC2 :: leBytes 4 (unsigned 32 i) ++ rest, crc⟩ =
        (.ok (intText i), ⟨rest, crc64 crc (0xC2 :: leBytes 4 (unsigned 32 i))⟩))) ∧
    (∀ (cf uf : LenForm) (c rest : Bytes) (crc : BitVec 64), cf.value = c.length →
      c.length ≤ 512 * 1024 * 1024 → uf.value ≤ 512 * 1024 * 1024 →
      readString.run ⟨0xC3 :: (cf.bytes ++ (uf.bytes ++ c)) ++ rest, crc⟩ =
        (Lzf.decompress c uf.value, ⟨rest, crc64 crc (0xC3 :: (cf.bytes ++ (uf.bytes ++ c)))⟩)) ∧
    (∀ (len : LenForm) (rest : Bytes) (crc : BitVec 64),
      readLengthValue.run ⟨len.bytes ++ rest, crc⟩ = (.ok len.value, ⟨rest, crc64 crc len.bytes⟩)) ∧
    (∀ b : UInt8, 0x80 ≤ b → b < 0xC0 → b ≠ 0x80 → b ≠ 0x81 → ∃ msg, ∀ rest crc,
      (readString.run ⟨b :: rest, crc⟩).1 = .error (.error (.corruptData msg)) ∧
      (readLengthValue.run ⟨b :: rest, crc⟩).1 = .error (.error (.corruptData msg))) ∧
    (∀ e < 64, 3 < e → ∃ msg, ∀ rest crc,
      (readString.run ⟨UInt8.ofNat (192 + e) :: rest, crc⟩).1 =
        .error (.error (.corruptData msg))) ∧
    (∀ e < 64, ∃ msg, ∀ rest crc, (readLengthValue.run ⟨UInt8.ofNat (192 + e) :: rest, crc⟩).1 =
      .error (.error (.corruptData msg))) := by
  refine ⟨fun len s rest crc hlen hcap => ?_, fun i rest crc => ⟨fun h => ?_, fun h => ?_,
    fun h => ?_⟩, fun cf uf c rest crc hc hcap hu => ?_, fun len rest crc => ?_,
    fun b hlo hhi h32 h64 => ?_, fun e he h3 => ?_, fun e he => ?_⟩
  · exact ((StringForm.raw len s hlen).decodes.decodes hcap).run rest crc
  · exact ((StringForm.int8 i h).decodes.decodes trivial).run rest crc
  · exact ((StringForm.int16 i h).decodes.decodes trivial).run rest crc
  · exact ((StringForm.int32 i h).decodes.decodes trivial).run rest crc
  · exact readString_lzf cf uf c hc hcap hu rest crc
  · exact len.decodesValue.run rest crc
  · obtain ⟨msg, hfails⟩ := readLength_reserved hlo hhi h32 h64
    exact ⟨msg, fun rest crc => ⟨hfails.bind rest crc, hfails.bind rest crc⟩⟩
  · obtain ⟨msg, hfails⟩ := readString_subType (by omega) he
    exact ⟨msg, hfails⟩
  · obtain ⟨msg, hfails⟩ := readLengthValue_special he
    exact ⟨msg, hfails⟩

/-- A length in its widest form, a negative integer, a string of three bytes from an LZF
match, and the two kinds of bytes that are refused. -/
theorem readString_forms_run :
    readString.run ⟨[0x81, 0, 0, 0, 0, 0, 0, 0, 2, 104, 105, 7], 0⟩ =
        (.ok [104, 105], ⟨[7], crc64 0 [0x81, 0, 0, 0, 0, 0, 0, 0, 2, 104, 105]⟩) ∧
      readString.run ⟨[0xC1, 0, 0x80, 7], 0⟩ =
        (.ok [45, 51, 50, 55, 54, 56], ⟨[7], crc64 0 [0xC1, 0, 0x80]⟩) ∧
      readString.run ⟨[0xC3, 4, 4, 0, 97, 0x20, 0, 7], 0⟩ =
        (Lzf.decompress [0, 97, 0x20, 0] 4, ⟨[7], crc64 0 [0xC3, 4, 4, 0, 97, 0x20, 0]⟩) ∧
      (∃ msg, ∀ rest crc, (readString.run ⟨0x82 :: rest, crc⟩).1 =
          .error (.error (.corruptData msg)) ∧
        (readLengthValue.run ⟨0x82 :: rest, crc⟩).1 = .error (.error (.corruptData msg))) ∧
      (∃ msg, ∀ rest crc, (readString.run ⟨0xC4 :: rest, crc⟩).1 =
        .error (.error (.corruptData msg))) := by
  obtain ⟨hraw, hint, hlzf, -, hreserved, hsub, -⟩ := readString_forms
  refine ⟨?_, ?_, ?_, ?_, ?_⟩
  · exact hraw (.sixtyFour 2 (by decide)) [104, 105] [7] 0 rfl (by decide)
  · have hbytes : leBytes 2 (unsigned 16 (-32768)) = [0, 0x80] := by decide +kernel
    have htext : intText (-32768) = [45, 51, 50, 55, 54, 56] := by decide +kernel
    have hread := (hint (-32768) [7] 0).2.1 (by decide)
    rw [hbytes, htext] at hread
    exact hread
  · exact hlzf (.six 4 (by decide)) (.six 4 (by decide)) [0, 97, 0x20, 0] [7] 0 rfl (by decide)
      (by decide)
  · exact hreserved 0x82 (by decide) (by decide) (by decide) (by decide)
  · exact hsub 4 (by decide) (by decide)

end ValkeyRdb
